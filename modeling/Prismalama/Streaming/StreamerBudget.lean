import Prismalama.Streaming.Streamer

/-!
# The budget of a streamer

The tracker's books agree with the data that is held: the used bytes are those
of the resident layers, and a layer is resident exactly when its data is there.
Every operation keeps that, as long as no layer is accepted that is larger than
the whole budget. That the used bytes stay within the budget needs more: nothing
reserves the room of a layer that is on its way.
-/

namespace Prismalama.Streaming

open Prismalama.Lib

namespace BudgetTracker

/-! ## Books -/

def entryBytes (e : LayerEntry) : Nat := if e.state = .resident then e.sizeBytes else 0

/-- The bytes of the resident layers. -/
def residentBytes (bt : BudgetTracker) : Nat := (bt.states.map entryBytes).sum

theorem sum_map_modify {α : Type*} (g : α → Nat) (f : α → α) {xs : List α} {i : Nat} {a : α}
    (h : xs[i]? = some a) : ((xs.modify i f).map g).sum + g a = (xs.map g).sum + g (f a) := by
  induction xs generalizing i with
  | nil => simp at h
  | cons x xs ih =>
    cases i with
    | zero =>
      simp only [List.getElem?_cons_zero, Option.some.injEq] at h
      subst h
      simp only [List.modify_zero_cons, List.map_cons, List.sum_cons]
      omega
    | succ i =>
      have hrest := ih (by simpa using h)
      simp only [List.modify_succ_cons, List.map_cons, List.sum_cons]
      omega

theorem state_setState (bt : BudgetTracker) (l : Nat) (f : LayerEntry → LayerEntry) (l' : Nat) :
    (bt.setState l f).state l' =
      if l' = l then ((bt.states[l]?.map f).map LayerEntry.state).getD .evicted
      else bt.state l' := by
  by_cases h : l' = l
  · subst h
    simp only [state, setState, List.getElem?_modify_eq, if_true]
    cases bt.states[l']? <;> rfl
  · simp only [state, setState, if_neg h, List.getElem?_modify_ne f bt.states (Ne.symm h)]

end BudgetTracker

open BudgetTracker

/-- The tracker's books agree with the data that is held. -/
structure Books {τ : Type*} (cfg : StreamerConfig τ) (bt : BudgetTracker) (held : GoMap Nat τ) :
    Prop where
  budget : bt.budgetBytes = cfg.budgetBytes
  length : bt.states.length = cfg.layers.length
  sizes : ∀ (l : Nat) (e : LayerEntry), bt.states[l]? = some e → cfg.layers[l]? = some e.sizeBytes
  used : bt.usedBytes = bt.residentBytes % wrap64
  resident : ∀ l, (held.lookup l).isSome = true ↔ bt.state l = .resident
  data : ∀ l t, held.lookup l = some t → t = cfg.tensors l

namespace Books

variable {τ : Type*} {cfg : StreamerConfig τ} {bt : BudgetTracker} {held : GoMap Nat τ}

theorem size_lt (h : Books cfg bt held) {l : Nat} {e : LayerEntry} (he : bt.states[l]? = some e) :
    e.sizeBytes < wrap64 :=
  cfg.layers_lt _ (List.mem_of_getElem? (h.sizes l e he))

/-- A change of one entry that keeps its size. -/
theorem sizes_modify (h : Books cfg bt held) {l : Nat} {f : LayerEntry → LayerEntry}
    {bt' : BudgetTracker} (hbt : bt'.states = bt.states.modify l f)
    (hf : ∀ e, (f e).sizeBytes = e.sizeBytes) :
    ∀ (l' : Nat) (e : LayerEntry), bt'.states[l']? = some e →
      cfg.layers[l']? = some e.sizeBytes := by
  intro l' e he
  rw [hbt, List.getElem?_modify] at he
  obtain ⟨e₀, he₀, rfl⟩ := Option.map_eq_some_iff.mp he
  rw [h.sizes l' e₀ he₀]
  split
  · exact congrArg some (hf e₀).symm
  · rfl

/-- Releasing a layer, resident or not. -/
theorem release (h : Books cfg bt held) (l : Nat) :
    Books cfg (bt.markEvicted l) (held.erase l) ∧
      (bt.markEvicted l).residentBytes ≤ bt.residentBytes := by
  have hdata : ∀ l' t, (held.erase l).lookup l' = some t → t = cfg.tensors l' := by
    intro l' t ht
    rw [GoMap.lookup_erase_ite] at ht
    split at ht
    · cases ht
    · exact h.data l' t ht
  unfold markEvicted
  cases he : bt.states[l]? with
  | none =>
    refine ⟨⟨h.budget, h.length, h.sizes, h.used, fun l' => ?_, hdata⟩, le_refl _⟩
    rw [GoMap.lookup_erase_ite]
    split
    · rename_i heq
      subst heq
      simp [state, he]
    · exact h.resident l'
  | some e =>
    have hsum := sum_map_modify entryBytes (fun e => { e with state := .evicted }) he
    have hgone : entryBytes { e with state := LayerState.evicted } = 0 := rfl
    rw [hgone] at hsum
    have hlt := h.size_lt he
    refine ⟨⟨h.budget, ?_, h.sizes_modify rfl (fun _ => rfl), ?_, fun l' => ?_,
      hdata⟩, ?_⟩
    · show (bt.states.modify l _).length = _
      rw [List.length_modify]
      exact h.length
    · have hused := h.used
      unfold residentBytes at hused
      show (if e.state = .resident then (bt.usedBytes + wrap64 - e.sizeBytes) % wrap64
        else bt.usedBytes) = (List.map entryBytes (bt.states.modify l _)).sum % wrap64
      split
      · rename_i hres
        rw [entryBytes, if_pos hres] at hsum
        rw [hused]
        unfold wrap64 at *
        omega
      · rename_i hres
        rw [entryBytes, if_neg hres] at hsum
        rw [hused]
        exact congrArg (· % wrap64) (by omega)
    · show _ ↔ (bt.setState l _).state l' = _
      rw [GoMap.lookup_erase_ite, state_setState, he]
      by_cases heq : l' = l
      · subst heq
        simp
      · rw [if_neg heq, if_neg heq]
        exact h.resident l'
    · show (List.map entryBytes (bt.states.modify l _)).sum ≤ _
      unfold residentBytes
      omega

/-- Starting to load a layer that is not resident. -/
theorem markLoading (h : Books cfg bt held) {l : Nat} (hl : bt.state l ≠ .resident) :
    Books cfg (bt.markLoading l) held ∧ (bt.markLoading l).residentBytes = bt.residentBytes := by
  have hsum : (bt.markLoading l).residentBytes = bt.residentBytes := by
    unfold residentBytes BudgetTracker.markLoading setState
    cases he : bt.states[l]? with
    | none =>
      rw [List.modify_eq_self]
      exact List.getElem?_eq_none_iff.mp he
    | some e =>
      have hold : entryBytes e = 0 := by
        rw [state, he] at hl
        exact if_neg hl
      have hmod := sum_map_modify entryBytes (fun e => { e with state := .loading }) he
      have hnew : entryBytes { e with state := LayerState.loading } = 0 := rfl
      rw [hold, hnew] at hmod
      omega
  refine ⟨⟨h.budget, ?_, h.sizes_modify rfl (fun _ => rfl), ?_, fun l' => ?_,
    h.data⟩, hsum⟩
  · show (bt.states.modify l _).length = _
    rw [List.length_modify]
    exact h.length
  · rw [hsum]
    exact h.used
  · rw [BudgetTracker.markLoading, state_setState]
    split
    · rename_i heq
      subst heq
      rw [h.resident]
      constructor
      · exact fun hres => absurd hres hl
      · intro hload
        cases he : bt.states[l']? with
        | none =>
          rw [he] at hload
          cases hload
        | some e =>
          rw [he] at hload
          cases hload
    · exact h.resident l'

/-- Accepting a layer that is not larger than the budget. -/
theorem accept (h : Books cfg bt held) {l : Nat} {e : LayerEntry} (he : bt.states[l]? = some e)
    (hfit : e.sizeBytes ≤ bt.budgetBytes) :
    Books cfg (bt.markResident l).1 (held.insert l (cfg.tensors l)) ∧
      (bt.markResident l).2 = true ∧
      (bt.markResident l).1.residentBytes ≤ bt.residentBytes + e.sizeBytes := by
  have hdata : ∀ l' t, (held.insert l (cfg.tensors l)).lookup l' = some t → t = cfg.tensors l' := by
    intro l' t ht
    rw [GoMap.lookup_insert_ite] at ht
    split at ht
    · rename_i heq
      subst heq
      exact (Option.some.inj ht).symm
    · exact h.data l' t ht
  have hresident : ∀ f : LayerEntry → LayerEntry, (f e).state = .resident → ∀ l',
      ((held.insert l (cfg.tensors l)).lookup l').isSome = true ↔
        (bt.setState l f).state l' = .resident := by
    intro f hf l'
    rw [GoMap.lookup_insert_ite, state_setState, he]
    by_cases heq : l' = l
    · subst heq
      simp [hf]
    · rw [if_neg heq, if_neg heq]
      exact h.resident l'
  have hlen : ∀ f : LayerEntry → LayerEntry, (bt.states.modify l f).length = cfg.layers.length :=
    fun f => (List.length_modify f bt.states l).trans h.length
  unfold markResident
  rw [he]
  simp only
  split
  · -- already resident: only the sequence number changes
    rename_i hres
    have hsum := sum_map_modify entryBytes (fun e => { e with seqNo := bt.seqNo + 1 }) he
    have hsame : entryBytes { e with seqNo := bt.seqNo + 1 } = entryBytes e := rfl
    rw [hsame] at hsum
    have hbytes : (List.map entryBytes
        (bt.states.modify l fun e => { e with seqNo := bt.seqNo + 1 })).sum = bt.residentBytes :=
      Nat.add_right_cancel hsum
    refine ⟨⟨h.budget, hlen _, h.sizes_modify rfl (fun _ => rfl), ?_,
      hresident _ hres, hdata⟩, rfl, ?_⟩
    · exact h.used.trans (congrArg (· % wrap64) hbytes.symm)
    · exact hbytes.le.trans (Nat.le_add_right _ _)
  · rename_i hres
    rw [if_neg (not_lt.mpr hfit)]
    have hsum := sum_map_modify entryBytes
      (fun e => { e with state := .resident, seqNo := bt.seqNo + 1 }) he
    have hnew : entryBytes { e with state := LayerState.resident, seqNo := bt.seqNo + 1 } =
        e.sizeBytes := rfl
    rw [hnew, entryBytes, if_neg hres] at hsum
    have hbytes : (List.map entryBytes (bt.states.modify l fun e =>
        { e with state := .resident, seqNo := bt.seqNo + 1 })).sum =
        bt.residentBytes + e.sizeBytes := hsum
    refine ⟨⟨h.budget, hlen _, h.sizes_modify rfl (fun _ => rfl), ?_,
      hresident _ rfl, hdata⟩, rfl, hbytes.le⟩
    calc (bt.usedBytes + e.sizeBytes) % wrap64
        = (bt.residentBytes % wrap64 + e.sizeBytes) % wrap64 := by rw [h.used]
      _ = (bt.residentBytes + e.sizeBytes) % wrap64 := Nat.mod_add_mod _ _ _
      _ = _ := congrArg (· % wrap64) hbytes.symm

/-- Only what the map has for each layer matters. -/
theorem congr_held (h : Books cfg bt held) {held' : GoMap Nat τ}
    (heq : ∀ l, held'.lookup l = held.lookup l) : Books cfg bt held' where
  budget := h.budget
  length := h.length
  sizes := h.sizes
  used := h.used
  resident l := by rw [heq]; exact h.resident l
  data l t ht := h.data l t ((heq l).symm.trans ht)

theorem exists_entry (h : Books cfg bt held) {l : Nat} (hl : l < cfg.layers.length) :
    ∃ e, bt.states[l]? = some e ∧ e.sizeBytes = cfg.layers.getD l 0 := by
  have hlt : l < bt.states.length := h.length ▸ hl
  refine ⟨bt.states[l], List.getElem?_eq_getElem hlt, ?_⟩
  have hsize := h.sizes l _ (List.getElem?_eq_getElem hlt)
  simp [hsize]

/-- Data is held for layers of the model only. -/
theorem lt_of_held (h : Books cfg bt held) {l : Nat} (hl : (held.lookup l).isSome = true) :
    l < cfg.layers.length := by
  have hstate := (h.resident l).mp hl
  rw [← h.length]
  by_contra hge
  rw [state, List.getElem?_eq_none (not_lt.mp hge)] at hstate
  cases hstate

end Books

/-- The layer an instruction loads exists. -/
def Instr.InRange (n : Nat) : Instr → Prop
  | .kick l | .wait l | .receive l | .ahead _ l => l < n
  | _ => True

namespace Streamer

variable {τ : Type*} {cfg : StreamerConfig τ} {s : Streamer τ}

/-! ## Invariant -/

/-- What every step keeps, as long as no accepted layer is larger than the budget. -/
structure Inv (cfg : StreamerConfig τ) (s : Streamer τ) : Prop where
  books : Books cfg s.budget s.residentData
  results : ∀ l result, s.pending.lookup l = some (some result) →
    result.layerIndex = l ∧ ∀ t, result.tensors = some t → t = cfg.tensors l
  awaited : ∀ l, (s.pending.lookup l).isSome = true →
    l < cfg.layers.length ∧ s.residentData.lookup l = none
  reading : ∀ l, s.inflight.lookup l = some .reading → s.pending.lookup l = some none
  todo : ∀ instr ∈ s.todo, instr.InRange cfg.layers.length

/-- Some layers were released, and nothing else changed. -/
structure Released (ls : List Nat) (s s' : Streamer τ) : Prop where
  only : s' = { s with residentData := s'.residentData, budget := s'.budget }
  bytes : s'.budget.residentBytes ≤ s.budget.residentBytes
  gone : ∀ l ∈ ls, s'.residentData.lookup l = none
  kept : ∀ l, l ∉ ls → s'.residentData.lookup l = s.residentData.lookup l

theorem Inv.releaseLayer (h : Inv cfg s) (l : Nat) :
    Inv cfg (s.releaseLayer l) ∧ Released [l] s (s.releaseLayer l) := by
  obtain ⟨hbooks, hbytes⟩ := h.books.release l
  refine ⟨⟨hbooks, h.results, fun l' hl' => ?_, h.reading, h.todo⟩, rfl, hbytes, ?_, ?_⟩
  · refine ⟨(h.awaited l' hl').1, ?_⟩
    show (s.residentData.erase l).lookup l' = none
    rw [GoMap.lookup_erase_ite, (h.awaited l' hl').2, ite_self]
  · intro l' hl'
    rw [List.mem_singleton.mp hl']
    exact AList.lookup_erase l s.residentData
  · intro l' hl'
    exact AList.lookup_erase_ne (fun heq => hl' (List.mem_singleton.mpr heq))

theorem Released.trans {ls ls' : List Nat} {s₁ s₂ s₃ : Streamer τ} (h : Released ls s₁ s₂)
    (h' : Released ls' s₂ s₃) : Released (ls ++ ls') s₁ s₃ := by
  refine ⟨?_, h'.bytes.trans h.bytes, fun l hl => ?_, fun l hl => ?_⟩
  · rw [h'.only, h.only]
  · by_cases hl' : l ∈ ls'
    · exact h'.gone l hl'
    · rw [h'.kept l hl']
      exact h.gone l ((List.mem_append.mp hl).resolve_right hl')
  · rw [List.mem_append, not_or] at hl
    rw [h'.kept l hl.2, h.kept l hl.1]

theorem Inv.releaseLayers (h : Inv cfg s) (ls : List Nat) :
    Inv cfg (ls.foldl Streamer.releaseLayer s) ∧
      Released ls s (ls.foldl Streamer.releaseLayer s) := by
  induction ls generalizing s with
  | nil => exact ⟨h, rfl, le_refl _, fun l hl => absurd hl List.not_mem_nil, fun l _ => rfl⟩
  | cons l ls ih =>
    obtain ⟨hinv, hrel⟩ := h.releaseLayer l
    obtain ⟨hinv', hrel'⟩ := ih hinv
    exact ⟨hinv', hrel.trans hrel'⟩

/-- What `kickPrefetch` does for a layer that is neither there nor on its way:
it releases some layers and starts the read, unless a goroutine of the layer is
still at its end. -/
theorem Inv.kickPrefetch_unknown (h : Inv cfg s) {l : Nat} (hl : l < cfg.layers.length)
    (hunknown : ¬ s.Known l) :
    ∃ s₁, Released (s.budget.needEvict (cfg.layers.getD l 0) l) s s₁ ∧
      kickPrefetch cfg s l = fetch (startLoading s₁ l) l ∧
      Inv cfg (kickPrefetch cfg s l) ∧
      (kickPrefetch cfg s l).budget.residentBytes ≤ s.budget.residentBytes ∧
      (kickPrefetch cfg s l).residentData = s₁.residentData := by
  obtain ⟨hinv, hrel⟩ := h.releaseLayers (s.budget.needEvict (cfg.layers.getD l 0) l)
  have hnone : (evictIfNeeded cfg s l).residentData.lookup l = none := by
    have hbefore : s.residentData.lookup l = none :=
      Option.not_isSome_iff_eq_none.mp fun hres => hunknown (.inl hres)
    by_cases hmem : l ∈ s.budget.needEvict (cfg.layers.getD l 0) l
    · exact hrel.gone l hmem
    · exact (hrel.kept l hmem).trans hbefore
  have hnotres : (evictIfNeeded cfg s l).budget.state l ≠ .resident := by
    intro hres
    have hsome : ((evictIfNeeded cfg s l).residentData.lookup l).isSome = true :=
      (hinv.books.resident l).mpr hres
    rw [hnone] at hsome
    cases hsome
  obtain ⟨hbooks, hbytes⟩ := hinv.books.markLoading hnotres
  have heq : kickPrefetch cfg s l = fetch (startLoading (evictIfNeeded cfg s l) l) l :=
    if_neg hunknown
  have hload : Inv cfg (startLoading (evictIfNeeded cfg s l) l) :=
    ⟨hbooks, hinv.results, hinv.awaited, hinv.reading, hinv.todo⟩
  have hbytes' : (startLoading (evictIfNeeded cfg s l) l).budget.residentBytes ≤
      s.budget.residentBytes := hbytes.le.trans hrel.bytes
  refine ⟨evictIfNeeded cfg s l, hrel, heq, ?_⟩
  rw [heq, fetch]
  split
  · exact ⟨hload, hbytes', rfl⟩
  · refine ⟨⟨hload.books, fun l' result hr => ?_, fun l' hl' => ?_, fun l' hl' => ?_, hload.todo⟩,
      hbytes', rfl⟩
    · rw [GoMap.lookup_insert_ite] at hr
      split at hr
      · cases hr
      · exact hload.results l' result hr
    · rw [GoMap.lookup_insert_ite] at hl'
      split at hl'
      · rename_i heq'
        subst heq'
        exact ⟨hl, hnone⟩
      · exact hload.awaited l' hl'
    · rw [GoMap.lookup_insert_ite] at hl' ⊢
      split
      · rfl
      · rename_i hne
        rw [if_neg hne] at hl'
        exact hload.reading l' hl'

theorem Inv.kickPrefetch (h : Inv cfg s) {l : Nat} (hl : l < cfg.layers.length) :
    Inv cfg (kickPrefetch cfg s l) ∧
      (kickPrefetch cfg s l).budget.residentBytes ≤ s.budget.residentBytes := by
  by_cases hknown : s.Known l
  · rw [Streamer.kickPrefetch, if_pos hknown]
    exact ⟨h, le_refl _⟩
  · obtain ⟨_, _, _, hinv, hbytes, _⟩ := h.kickPrefetch_unknown hl hknown
    exact ⟨hinv, hbytes⟩

/-! ## Steps -/

/-- A layer whose read succeeded is accepted only if it is not larger than the
budget. -/
def Fits (cfg : StreamerConfig τ) (s : Streamer τ) : Prop :=
  ∀ l rest result tensors, s.todo = .receive l :: rest →
    s.pending.lookup l = some (some result) → result.tensors = some tensors →
    cfg.layers.getD l 0 ≤ cfg.budgetBytes

theorem Inv.fail (h : Inv cfg s) (e : StreamError) : Inv cfg (s.fail e) :=
  ⟨h.books, h.results, h.awaited, h.reading, fun _ hi => absurd hi List.not_mem_nil⟩

theorem Inv.setTodo (h : Inv cfg s) {todo : List Instr}
    (htodo : ∀ instr ∈ todo, instr.InRange cfg.layers.length) :
    Inv cfg { s with todo := todo } :=
  ⟨h.books, h.results, h.awaited, h.reading, htodo⟩

/-- A result that was sent is not of a goroutine that is still reading. -/
theorem Inv.consume (h : Inv cfg s) {l : Nat} {result : PrefetchResult τ}
    (hr : s.pending.lookup l = some (some result)) : Inv cfg (s.consume l) := by
  refine ⟨h.books, fun l' r hl' => ?_, fun l' hl' => ?_, fun l' hl' => ?_, h.todo⟩
  · exact h.results l' r (lookup_of_erase hl')
  · obtain ⟨r, hl'⟩ := Option.isSome_iff_exists.mp hl'
    exact h.awaited l' (Option.isSome_iff_exists.mpr ⟨r, lookup_of_erase hl'⟩)
  · have hreading := h.reading l' hl'
    show (s.pending.erase l).lookup l' = _
    rw [GoMap.lookup_erase_ite]
    split
    · rename_i heq
      subst heq
      rw [hr] at hreading
      cases hreading
    · exact hreading
where
  lookup_of_erase {l l' : Nat} {r} (hl' : (s.pending.erase l).lookup l' = some r) :
      s.pending.lookup l' = some r := by
    rw [GoMap.lookup_erase_ite] at hl'
    split at hl'
    · cases hl'
    · exact hl'

/-- The read of the layer failed. -/
theorem Inv.accept_failed (h : Inv cfg s) {l : Nat} {result : PrefetchResult τ}
    (hr : s.pending.lookup l = some (some result)) (hfailed : result.tensors = none) :
    Inv cfg (accept (s.consume l) l result) ∧
      (accept (s.consume l) l result).budget.residentBytes ≤ s.budget.residentBytes ∧
      (accept (s.consume l) l result).todo = [] := by
  have hnone := (h.awaited l (Option.isSome_iff_exists.mpr ⟨_, hr⟩)).2
  obtain ⟨hbooks, hbytes⟩ := h.books.release l
  have hinv := h.consume hr
  have hheld : ∀ l', s.residentData.lookup l' = (s.residentData.erase l).lookup l' := by
    intro l'
    rw [GoMap.lookup_erase_ite]
    split
    · rename_i heq
      rw [heq, hnone]
    · rfl
  rw [accept, hfailed]
  exact ⟨⟨hbooks.congr_held hheld, hinv.results, hinv.awaited, hinv.reading,
    fun _ hi => absurd hi List.not_mem_nil⟩, hbytes, rfl⟩

/-- The read of the layer succeeded, and the layer is not larger than the budget. -/
theorem Inv.accept_ok (h : Inv cfg s) {l : Nat} {result : PrefetchResult τ} {tensors : τ}
    (hr : s.pending.lookup l = some (some result)) (hok : result.tensors = some tensors)
    (hfit : cfg.layers.getD l 0 ≤ cfg.budgetBytes) :
    accept (s.consume l) l result =
        { s.consume l with
          residentData := s.residentData.insert l tensors
          budget := (s.budget.markResident l).1 } ∧
      Inv cfg (accept (s.consume l) l result) ∧
      (accept (s.consume l) l result).budget.residentBytes ≤
        s.budget.residentBytes + cfg.layers.getD l 0 := by
  obtain ⟨e, he, hsize⟩ :=
    h.books.exists_entry (h.awaited l (Option.isSome_iff_exists.mpr ⟨_, hr⟩)).1
  obtain rfl : tensors = cfg.tensors l := (h.results l result hr).2 tensors hok
  obtain ⟨hbooks, hmarked, hbytes⟩ := h.books.accept he (by rw [hsize, h.books.budget]; exact hfit)
  have hinv := h.consume hr
  have heq : accept (s.consume l) l result =
      { s.consume l with
        residentData := s.residentData.insert l (cfg.tensors l)
        budget := (s.budget.markResident l).1 } := by
    rw [accept, hok]
    exact if_pos hmarked
  refine ⟨heq, ?_⟩
  rw [heq]
  refine ⟨⟨hbooks, hinv.results, fun l' hl' => ?_, hinv.reading, h.todo⟩, hsize ▸ hbytes⟩
  obtain ⟨hlt, hnone⟩ := hinv.awaited l' hl'
  refine ⟨hlt, ?_⟩
  show (s.residentData.insert l (cfg.tensors l)).lookup l' = none
  rw [GoMap.lookup_insert_ite]
  split
  · rename_i heq'
    subst heq'
    have hl'' : ((s.pending.erase l').lookup l').isSome = true := hl'
    rw [AList.lookup_erase] at hl''
    cases hl''
  · exact hnone

theorem exec_receive_none {l : Nat} (h : s.pending.lookup l = none) :
    Streamer.exec cfg s (.receive l) = s.fail .notStarted := by
  simp only [Streamer.exec, h]

theorem exec_receive_unsent {l : Nat} (h : s.pending.lookup l = some none) :
    Streamer.exec cfg s (.receive l) = s := by
  simp only [Streamer.exec, h]

theorem exec_receive_sent {l : Nat} {result : PrefetchResult τ}
    (h : s.pending.lookup l = some (some result)) :
    Streamer.exec cfg s (.receive l) = accept (s.consume l) l result := by
  simp only [Streamer.exec, h]

/-- One instruction. -/
theorem Inv.exec (h : Inv cfg s) {instr : Instr} {rest : List Instr}
    (htodo : s.todo = instr :: rest) (hfits : Fits cfg s) :
    Inv cfg (exec cfg { s with todo := rest } instr) := by
  have hrange := h.todo
  rw [htodo] at hrange
  have hrest : Inv cfg { s with todo := rest } :=
    h.setTodo fun i hi => hrange i (List.mem_cons_of_mem _ hi)
  have hinstr := hrange instr List.mem_cons_self
  cases instr with
  | kick l => exact (hrest.kickPrefetch hinstr).1
  | wait l =>
    show Inv cfg (if (s.residentData.lookup l).isSome then { s with todo := rest } else _)
    have hcons : ∀ i ∈ Instr.receive l :: rest, i.InRange cfg.layers.length := by
      intro i hi
      rcases List.mem_cons.mp hi with rfl | hi
      · exact hinstr
      · exact hrange i (List.mem_cons_of_mem _ hi)
    split
    · exact hrest
    · split
      · exact h.setTodo hcons
      · refine h.setTodo fun i hi => ?_
        rcases List.mem_cons.mp hi with rfl | hi
        · exact hinstr
        · exact hcons i hi
  | receive l =>
    cases hp : s.pending.lookup l with
    | none =>
      rw [exec_receive_none (s := { s with todo := rest }) hp]
      exact hrest.fail .notStarted
    | some sent =>
      cases sent with
      | none =>
        rw [exec_receive_unsent (s := { s with todo := rest }) hp]
        exact hrest
      | some result =>
        rw [exec_receive_sent (s := { s with todo := rest }) hp]
        cases hr : result.tensors with
        | none => exact (hrest.accept_failed hp hr).1
        | some tensors =>
          exact (hrest.accept_ok hp hr (hfits l rest result tensors htodo hp hr)).2.1
  | ahead l next => exact (hrest.kickPrefetch hinstr).1
  | prepared l => exact hrest
  | compute l => exact hrest
  | release l => exact (hrest.releaseLayer l).1

theorem Inv.send (h : Inv cfg s) {l : Nat} (hl : s.inflight.lookup l = some .reading) (ok : Bool) :
    Inv cfg (apply cfg s (.send l ok)) := by
  have hpending := h.reading l hl
  refine ⟨h.books, fun l' result hr => ?_, fun l' hl' => ?_, fun l' hl' => ?_, h.todo⟩
  · have hr' : (s.pending.insert l _).lookup l' = some (some result) := hr
    rw [GoMap.lookup_insert_ite] at hr'
    split at hr'
    · rename_i heq
      subst heq
      obtain rfl := Option.some.inj (Option.some.inj hr')
      refine ⟨rfl, fun t ht => ?_⟩
      cases ok with
      | true => exact (Option.some.inj ht).symm
      | false => cases ht
    · exact h.results l' result hr'
  · refine h.awaited l' ?_
    have hl'' : ((s.pending.insert l _).lookup l').isSome = true := hl'
    rw [GoMap.lookup_insert_ite] at hl''
    split at hl''
    · rename_i heq
      rw [heq, hpending]
      rfl
    · exact hl''
  · have hl'' : (s.inflight.insert l .sent).lookup l' = some .reading := hl'
    show (s.pending.insert l _).lookup l' = some none
    rw [GoMap.lookup_insert_ite] at hl'' ⊢
    split
    · rename_i heq
      rw [if_pos heq] at hl''
      cases hl''
    · rename_i hne
      rw [if_neg hne] at hl''
      exact h.reading l' hl''

theorem Inv.remove (h : Inv cfg s) (l : Nat) : Inv cfg (apply cfg s (.remove l)) := by
  refine ⟨h.books, h.results, h.awaited, fun l' hl' => h.reading l' ?_, h.todo⟩
  have hl'' : (s.inflight.erase l).lookup l' = some .reading := hl'
  rw [GoMap.lookup_erase_ite] at hl''
  split at hl''
  · cases hl''
  · exact hl''

theorem prepare_inRange {l : Nat} (hl : l < cfg.layers.length) :
    ∀ instr ∈ prepare cfg l, instr.InRange cfg.layers.length := by
  intro instr hi
  simp only [prepare, List.cons_append, List.mem_cons, List.mem_append, List.mem_map,
    List.mem_filter, decide_eq_true_eq, List.not_mem_nil, or_false] at hi
  rcases hi with rfl | rfl | ⟨next, ⟨_, hnext⟩, rfl⟩ | rfl
  · exact hl
  · exact hl
  · exact hnext
  · trivial

theorem runAllLayers_inRange : ∀ instr ∈ runAllLayers cfg, instr.InRange cfg.layers.length := by
  intro instr hi
  simp only [runAllLayers, runLayer, List.mem_append, List.mem_flatMap, List.mem_range,
    List.mem_cons, List.mem_map] at hi
  rcases hi with ⟨l, hl, hprep | rfl | hrel⟩ | ⟨_, _, rfl⟩
  · exact prepare_inRange hl instr hprep
  · trivial
  · split at hrel
    · rw [List.mem_singleton.mp hrel]
      trivial
    · cases hrel
  · trivial

theorem Inv.call (h : Inv cfg s) {todo : List Instr}
    (htodo : ∀ instr ∈ todo, instr.InRange cfg.layers.length) (running : Bool) :
    Inv cfg (s.call todo running) :=
  ⟨h.books, h.results, h.awaited, h.reading, htodo⟩

theorem releaseCall_inRange (l : Int) : ∀ instr ∈ if 0 ≤ l then [Instr.release l.toNat] else [],
    instr.InRange cfg.layers.length := by
  intro instr hi
  split at hi
  · rw [List.mem_singleton.mp hi]
    trivial
  · cases hi

theorem Inv.apply (h : Inv cfg s) (hfits : Fits cfg s) {a : Label} (ha : s.Enabled a) :
    Inv cfg (apply cfg s a) := by
  cases a with
  | prepare l =>
    show Inv cfg (if 0 ≤ l ∧ l < cfg.layers.length then _ else _)
    split
    · rename_i hl
      exact h.call (prepare_inRange (by omega)) false
    · exact (h.call (fun _ hi => absurd hi List.not_mem_nil) false).fail .outOfRange
  | release l => exact h.call (releaseCall_inRange l) false
  | runAllLayers => exact h.call runAllLayers_inRange true
  | next =>
    cases htodo : s.todo with
    | nil => exact absurd htodo ha.1
    | cons instr rest =>
      have heq : Streamer.apply cfg s .next = Streamer.exec cfg { s with todo := rest } instr := by
        simp only [Streamer.apply, htodo]
      rw [heq]
      exact h.exec htodo hfits
  | cancelled => exact h.fail .cancelled
  | callbackFails => exact h.fail .compute
  | send l ok => exact h.send ha ok
  | remove l => exact h.remove l

theorem sum_evicted (sizes : List Nat) :
    ((sizes.map fun size => (⟨.evicted, size, 0⟩ : LayerEntry)).map entryBytes).sum = 0 := by
  rw [List.sum_eq_zero_iff]
  intro n hn
  simp only [List.map_map, List.mem_map, Function.comp_apply] at hn
  obtain ⟨size, _, rfl⟩ := hn
  rfl

theorem Inv.newStreamer : Inv cfg (newStreamer cfg) := by
  refine ⟨⟨rfl, ?_, fun l e he => ?_, ?_, fun l => ?_, fun l t ht => ?_⟩, fun l r hr => ?_,
    fun l hl => ?_, fun l hl => ?_, fun _ hi => absurd hi List.not_mem_nil⟩
  · exact List.length_map _
  · have he' : (cfg.layers.map fun size => (⟨.evicted, size, 0⟩ : LayerEntry))[l]? = some e := he
    rw [List.getElem?_map] at he'
    obtain ⟨size, hsize, rfl⟩ := Option.map_eq_some_iff.mp he'
    exact hsize
  · exact (congrArg (· % wrap64) (sum_evicted cfg.layers)).symm
  · constructor
    · intro hl
      cases hl
    · intro hl
      rw [state, Streamer.newStreamer, List.getElem?_map] at hl
      cases hsize : cfg.layers[l]? with
      | none =>
        rw [hsize] at hl
        cases hl
      | some size =>
        rw [hsize] at hl
        cases hl
  · cases ht
  · cases hr
  · cases hl
  · cases hl

/-! ## Budget

The bytes stay within the budget if each result finds room for its layer when it
is received, and `Prepare` returns a resident layer if the reads it starts ahead
do not evict it. -/

/-- Where in a call an instruction list starts. -/
inductive Phase
  | idle
  /-- The layer was kicked. -/
  | kicked (layerIdx : Nat)
  /-- The layer is there. -/
  | ready (layerIdx : Nat)

/-- The instructions are those of whole calls, from a phase on. -/
def Ordered : Phase → List Instr → Prop
  | .idle, [] => True
  | .idle, .kick l :: rest => Ordered (.kicked l) rest
  | .idle, .compute _ :: rest => Ordered .idle rest
  | .idle, .release _ :: rest => Ordered .idle rest
  | .kicked l, .wait l' :: rest => l' = l ∧ Ordered (.ready l) rest
  | .kicked l, .receive l' :: rest => l' = l ∧ Ordered (.ready l) rest
  | .ready l, .ahead l' _ :: rest => l' = l ∧ Ordered (.ready l) rest
  | .ready l, .prepared l' :: rest => l' = l ∧ Ordered .idle rest
  | _, _ => False

theorem Ordered.append {ph : Phase} {xs ys : List Instr} (h : Ordered ph xs)
    (h' : Ordered .idle ys) : Ordered ph (xs ++ ys) := by
  induction xs generalizing ph with
  | nil => cases ph <;> first | exact h' | exact h.elim
  | cons instr xs ih =>
    cases ph <;> cases instr <;>
      first | exact h.elim | exact ih h | exact ⟨h.1, ih h.2⟩

theorem ordered_aheads (l : Nat) (nexts : List Nat) {rest : List Instr}
    (h : Ordered (.ready l) rest) : Ordered (.ready l) (nexts.map (Instr.ahead l) ++ rest) := by
  induction nexts with
  | nil => exact h
  | cons next nexts ih => exact ⟨rfl, ih⟩

theorem ordered_prepare (l : Nat) : Ordered .idle (prepare cfg l) :=
  ⟨rfl, ordered_aheads l _ ⟨rfl, trivial⟩⟩

theorem ordered_runLayer (i : Nat) : Ordered .idle (runLayer cfg i) := by
  refine (ordered_prepare i).append ?_
  show Ordered .idle (if cfg.prefetchAhead ≤ i then _ else _)
  split
  · trivial
  · trivial

theorem ordered_runAllLayers : Ordered .idle (runAllLayers cfg) := by
  refine Ordered.append ?_ ?_
  · induction List.range cfg.layers.length with
    | nil => trivial
    | cons i is ih =>
      rw [List.flatMap_cons]
      exact (ordered_runLayer i).append ih
  · induction (List.range cfg.layers.length).filter _ with
    | nil => trivial
    | cons i is ih => exact ih

/-- What was received for a layer finds room for it. -/
def FindsRoom (cfg : StreamerConfig τ) (s : Streamer τ) (layerIdx : Nat) :
    Option (Option (PrefetchResult τ)) → Prop
  | some (some result) => result.tensors.isSome = true →
    s.budget.usedBytes + cfg.layers.getD layerIdx 0 ≤ s.budget.budgetBytes
  | _ => True

/-- A result finds room for its layer, and a read started ahead leaves the
prepared layer. -/
def AffordableInstr (cfg : StreamerConfig τ) (s : Streamer τ) : Instr → Prop
  | .receive l => FindsRoom cfg s l (s.pending.lookup l)
  | .ahead l next => s.Known next ∨ l ∉ s.budget.needEvict (cfg.layers.getD next 0) next
  | _ => True

/-- The step executes no instruction that is not affordable. -/
def Affordable (cfg : StreamerConfig τ) (s : Streamer τ) : Label → Prop
  | .next => ∀ instr ∈ s.todo.head?, AffordableInstr cfg s instr
  | _ => True

instance (s : Streamer τ) (l : Nat) : (sent : Option (Option (PrefetchResult τ))) →
    Decidable (FindsRoom cfg s l sent)
  | some (some result) => inferInstanceAs (Decidable (result.tensors.isSome = true → _))
  | some none => .isTrue trivial
  | none => .isTrue trivial

instance (s : Streamer τ) : (instr : Instr) → Decidable (AffordableInstr cfg s instr)
  | .receive l => inferInstanceAs (Decidable (FindsRoom cfg s l (s.pending.lookup l)))
  | .ahead l next => inferInstanceAs (Decidable (s.Known next ∨
      l ∉ s.budget.needEvict (cfg.layers.getD next 0) next))
  | .kick _ | .wait _ | .prepared _ | .compute _ | .release _ => .isTrue trivial

instance (s : Streamer τ) : (a : Label) → Decidable (Affordable cfg s a)
  | .next => inferInstanceAs (Decidable (∀ instr ∈ s.todo.head?, AffordableInstr cfg s instr))
  | .prepare _ | .release _ | .runAllLayers | .cancelled | .callbackFails | .send _ _
  | .remove _ => .isTrue trivial

/-- The state of a run whose steps were all affordable. -/
structure WithinBudget (cfg : StreamerConfig τ) (s : Streamer τ) : Prop where
  inv : Inv cfg s
  bytes : s.budget.residentBytes ≤ cfg.budgetBytes
  phase : ∃ ph, Ordered ph s.todo ∧ ∀ l, ph = .ready l → (s.residentData.lookup l).isSome = true

theorem WithinBudget.usedBytes (h : WithinBudget cfg s) :
    s.budget.usedBytes = s.budget.residentBytes :=
  h.inv.books.used.trans (Nat.mod_eq_of_lt (h.bytes.trans_lt cfg.budgetBytes_lt))

theorem WithinBudget.fail (h : WithinBudget cfg s) (e : StreamError) :
    WithinBudget cfg (s.fail e) :=
  ⟨h.inv.fail e, h.bytes, .idle, trivial, fun _ hl => by cases hl⟩

theorem WithinBudget.fits (h : WithinBudget cfg s) (hafford : Affordable cfg s .next) :
    Fits cfg s := by
  intro l rest result tensors htodo hp hr
  have hinstr : AffordableInstr cfg s (.receive l) := hafford _ (by rw [htodo]; rfl)
  simp only [AffordableInstr, hp, FindsRoom, hr, h.inv.books.budget] at hinstr
  exact (Nat.le_add_left _ _).trans (hinstr rfl)

/-- The layers that a kick does not evict stay. -/
theorem Inv.kickPrefetch_kept (h : Inv cfg s) {l next : Nat} (hnext : next < cfg.layers.length)
    (hkept : s.Known next ∨ l ∉ s.budget.needEvict (cfg.layers.getD next 0) next) :
    (Streamer.kickPrefetch cfg s next).residentData.lookup l = s.residentData.lookup l := by
  by_cases hknown : s.Known next
  · rw [Streamer.kickPrefetch, if_pos hknown]
  · obtain ⟨s₁, hrel, _, _, _, hdata⟩ := h.kickPrefetch_unknown hnext hknown
    rw [hdata]
    exact hrel.kept l (hkept.resolve_left hknown)

theorem kickPrefetch_todo (s : Streamer τ) (l : Nat) :
    (Streamer.kickPrefetch cfg s l).todo = s.todo := by
  have hevict : ∀ ls : List Nat, (ls.foldl Streamer.releaseLayer s).todo = s.todo := by
    intro ls
    induction ls generalizing s with
    | nil => rfl
    | cons l' ls ih => exact ih (s.releaseLayer l')
  unfold Streamer.kickPrefetch fetch
  split
  · rfl
  · split
    · exact hevict _
    · exact hevict _

theorem WithinBudget.exec (h : WithinBudget cfg s) {instr : Instr} {rest : List Instr}
    (htodo : s.todo = instr :: rest) (hblocked : s.blocked = false)
    (hafford : Affordable cfg s .next) :
    WithinBudget cfg (Streamer.exec cfg { s with todo := rest } instr) := by
  have hfits := h.fits hafford
  have hcan : AffordableInstr cfg s instr := hafford _ (by rw [htodo]; rfl)
  have hinv := h.inv.exec htodo hfits
  have hrange := h.inv.todo
  rw [htodo] at hrange
  have hrest : Inv cfg { s with todo := rest } :=
    h.inv.setTodo fun i hi => hrange i (List.mem_cons_of_mem _ hi)
  have hinstr := hrange instr List.mem_cons_self
  obtain ⟨ph, hordered, hready⟩ := h.phase
  rw [htodo] at hordered
  cases instr with
  | kick l =>
    cases ph <;> first | exact hordered.elim | skip
    refine ⟨hinv, (hrest.kickPrefetch hinstr).2.trans h.bytes, .kicked l, ?_, fun _ hl => by cases hl⟩
    show Ordered _ (Streamer.kickPrefetch cfg { s with todo := rest } l).todo
    rw [kickPrefetch_todo]
    exact hordered
  | wait l =>
    cases ph <;> first | exact hordered.elim | skip
    obtain ⟨rfl, hordered⟩ := hordered
    by_cases hheld : (s.residentData.lookup l).isSome = true
    · have heq : Streamer.exec cfg { s with todo := rest } (.wait l) = { s with todo := rest } :=
        if_pos hheld
      rw [heq] at hinv ⊢
      exact ⟨hinv, h.bytes, .ready l, hordered, fun _ hl => by cases hl; exact hheld⟩
    · by_cases hpending : (s.pending.lookup l).isSome = true
      · have heq : Streamer.exec cfg { s with todo := rest } (.wait l) =
            { s with todo := .receive l :: rest } := (if_neg hheld).trans (if_pos hpending)
        rw [heq] at hinv ⊢
        exact ⟨hinv, h.bytes, .kicked l, ⟨rfl, hordered⟩, fun _ hl => by cases hl⟩
      · have heq : Streamer.exec cfg { s with todo := rest } (.wait l) =
            { s with todo := .kick l :: .receive l :: rest } :=
          (if_neg hheld).trans (if_neg hpending)
        rw [heq] at hinv ⊢
        exact ⟨hinv, h.bytes, .idle, ⟨rfl, hordered⟩, fun _ hl => by cases hl⟩
  | receive l =>
    cases ph <;> first | exact hordered.elim | skip
    obtain ⟨rfl, hordered⟩ := hordered
    cases hp : s.pending.lookup l with
    | none =>
      rw [exec_receive_none (s := { s with todo := rest }) hp]
      exact h.fail .notStarted
    | some sent =>
      cases sent with
      | none =>
        simp only [blocked, htodo, hp] at hblocked
        cases hblocked
      | some result =>
        rw [exec_receive_sent (s := { s with todo := rest }) hp]
        cases hr : result.tensors with
        | none =>
          obtain ⟨hinv', hbytes, htodo'⟩ := hrest.accept_failed hp hr
          refine ⟨hinv', hbytes.trans h.bytes, .idle, ?_, fun _ hl => by cases hl⟩
          rw [htodo']
          trivial
        | some tensors =>
          obtain ⟨heq', hinv', hbytes⟩ :=
            hrest.accept_ok hp hr (hfits l rest result tensors htodo hp hr)
          have hroom : s.budget.residentBytes + cfg.layers.getD l 0 ≤ cfg.budgetBytes := by
            simp only [AffordableInstr, hp, FindsRoom, hr, h.inv.books.budget, h.usedBytes]
              at hcan
            exact hcan rfl
          refine ⟨hinv', hbytes.trans hroom, .ready l, ?_, fun l' hl => ?_⟩
          · rw [heq']
            exact hordered
          · obtain rfl := Phase.ready.inj hl
            rw [heq']
            show ((s.residentData.insert l tensors).lookup l).isSome = true
            rw [AList.lookup_insert]
            rfl
  | ahead l next =>
    cases ph <;> first | exact hordered.elim | skip
    obtain ⟨rfl, hordered⟩ := hordered
    refine ⟨hinv, (hrest.kickPrefetch hinstr).2.trans h.bytes, .ready l, ?_, fun l' hl => ?_⟩
    · show Ordered _ (Streamer.kickPrefetch cfg { s with todo := rest } next).todo
      rw [kickPrefetch_todo]
      exact hordered
    · obtain rfl := Phase.ready.inj hl
      have hkept := hrest.kickPrefetch_kept hinstr hcan
      exact hkept ▸ hready l rfl
  | prepared l =>
    cases ph <;> first | exact hordered.elim | skip
    exact ⟨hinv, h.bytes, .idle, hordered.2, fun _ hl => by cases hl⟩
  | compute l =>
    cases ph <;> first | exact hordered.elim | skip
    exact ⟨hinv, h.bytes, .idle, hordered, fun _ hl => by cases hl⟩
  | release l =>
    cases ph <;> first | exact hordered.elim | skip
    exact ⟨hinv, (hrest.releaseLayer l).2.bytes.trans h.bytes, .idle, hordered,
      fun _ hl => by cases hl⟩

theorem WithinBudget.call (h : WithinBudget cfg s) {todo : List Instr}
    (htodo : ∀ instr ∈ todo, instr.InRange cfg.layers.length) (hordered : Ordered .idle todo)
    (running : Bool) : WithinBudget cfg (s.call todo running) :=
  ⟨h.inv.call htodo running, h.bytes, .idle, hordered, fun _ hl => by cases hl⟩

theorem WithinBudget.apply (h : WithinBudget cfg s) {a : Label} (hafford : Affordable cfg s a)
    (ha : s.Enabled a) : WithinBudget cfg (Streamer.apply cfg s a) := by
  cases a with
  | prepare l =>
    show WithinBudget cfg (if 0 ≤ l ∧ l < cfg.layers.length then _ else _)
    split
    · rename_i hl
      exact h.call (prepare_inRange (by omega)) (ordered_prepare _) false
    · exact (h.call (fun _ hi => absurd hi List.not_mem_nil) trivial false).fail .outOfRange
  | release l =>
    refine h.call (releaseCall_inRange l) ?_ false
    split
    · trivial
    · trivial
  | runAllLayers => exact h.call runAllLayers_inRange ordered_runAllLayers true
  | next =>
    cases htodo : s.todo with
    | nil => exact absurd htodo ha.1
    | cons instr rest =>
      have heq : Streamer.apply cfg s .next = Streamer.exec cfg { s with todo := rest } instr := by
        simp only [Streamer.apply, htodo]
      rw [heq]
      exact h.exec htodo ha.2 hafford
  | cancelled => exact h.fail .cancelled
  | callbackFails => exact h.fail .compute
  | send l ok => exact ⟨h.inv.send ha ok, h.bytes, h.phase⟩
  | remove l => exact ⟨h.inv.remove l, h.bytes, h.phase⟩

theorem withinBudget_invariant :
    ((sys cfg).restrict (Affordable cfg)).Invariant (WithinBudget cfg) := by
  refine TSys.Inductive.invariant ⟨fun s hs => ?_, fun s a s' h hstep => ?_⟩
  · rw [show s = newStreamer cfg from hs]
    refine ⟨.newStreamer, ?_, .idle, trivial, fun _ hl => by cases hl⟩
    have hzero : (newStreamer cfg).budget.residentBytes = 0 := by
      show ((cfg.layers.map fun size => (⟨.evicted, size, 0⟩ : LayerEntry)).map entryBytes).sum = 0
      exact sum_evicted cfg.layers
    rw [hzero]
    exact Nat.zero_le _
  · obtain ⟨hafford, ha, rfl⟩ := hstep
    exact h.apply hafford ha

/-- In a run whose steps were all affordable, the budget is kept: the used bytes
are those of the resident layers and fit the budget, data is held for exactly
these layers, and a layer that `Prepare` returns is resident. -/
theorem budget_kept (s : Streamer τ)
    (hs : ((sys cfg).restrict (Affordable cfg)).Reachable s) :
    s.budget.usedBytes = s.budget.residentBytes ∧
      s.budget.usedBytes ≤ s.budget.budgetBytes ∧
      (∀ l, (s.residentData.lookup l).isSome = true ↔ s.budget.state l = .resident) ∧
      (∀ l tensors, s.residentData.lookup l = some tensors → tensors = cfg.tensors l) ∧
      ∀ l rest, s.todo = .prepared l :: rest → s.budget.state l = .resident := by
  have h := withinBudget_invariant s hs
  refine ⟨h.usedBytes, ?_, h.inv.books.resident, h.inv.books.data, fun l rest htodo => ?_⟩
  · rw [h.usedBytes, h.inv.books.budget]
    exact h.bytes
  · obtain ⟨ph, hordered, hready⟩ := h.phase
    rw [htodo] at hordered
    cases ph <;> first | exact hordered.elim | skip
    obtain ⟨rfl, _⟩ := hordered
    exact (h.inv.books.resident l).mp (hready l rfl)

/-- Three layers of 200 bytes. -/
def threeLayers (budgetBytes prefetchAhead : Nat) (h : budgetBytes < wrap64) :
    StreamerConfig Nat where
  layers := [200, 200, 200]
  budgetBytes := budgetBytes
  prefetchAhead := prefetchAhead
  tensors l := l
  budgetBytes_lt := h
  layers_lt := by decide

/-- `Prepare` of layer 0 and its release, with room for all layers. -/
theorem budget_kept_threeLayers :
    let cfg := threeLayers 600 1 (by decide)
    let s := [Label.prepare 0, .next, .send 0 true, .remove 0, .next, .next, .next, .next,
      .release 0, .next].foldl (apply cfg) (newStreamer cfg)
    s.budget.usedBytes = s.budget.residentBytes ∧
      s.budget.usedBytes ≤ s.budget.budgetBytes ∧
      (∀ l, (s.residentData.lookup l).isSome = true ↔ s.budget.state l = .resident) ∧
      (∀ l tensors, s.residentData.lookup l = some tensors → tensors = cfg.tensors l) ∧
      ∀ l rest, s.todo = .prepared l :: rest → s.budget.state l = .resident := by
  intro cfg s
  have hinit : ((sys cfg).restrict (Affordable cfg)).Reachable (newStreamer cfg) := .init rfl
  exact budget_kept s (TSys.Reachable.run_restrict hinit _ (by decide))

/-- Two reads ahead that were each checked against an almost empty budget take it
over the limit together, and a read ahead evicts the layer that `Prepare`
returns. -/
theorem budget_overcommitted :
    (∃ s, (sys (threeLayers 450 2 (by decide))).Reachable s ∧ s.todo = [] ∧ s.error = none ∧
      s.budget.usedBytes = 600 ∧ s.budget.budgetBytes = 450) ∧
    ∃ s, (sys (threeLayers 300 1 (by decide))).Reachable s ∧ s.todo = [.prepared 0] ∧
      s.error = none ∧ s.budget.state 0 = .evicted := by
  let overcommit : List Label := [.prepare 0, .next, .send 0 true, .remove 0, .next, .next, .next, .next,
    .next, .send 1 true, .remove 1, .send 2 true, .remove 2, .prepare 1, .next, .next, .next, .next,
    .next, .prepare 2, .next, .next, .next, .next]
  let ahead : List Label := [.prepare 0, .next, .send 0 true, .remove 0, .next, .next, .next]
  constructor
  · let cfg := threeLayers 450 2 (by decide)
    have hinit : (sys cfg).Reachable (newStreamer cfg) := .init rfl
    refine ⟨overcommit.foldl (apply cfg) (newStreamer cfg), TSys.Reachable.run hinit overcommit ?_, ?_⟩
    · decide
    · decide
  · let cfg := threeLayers 300 1 (by decide)
    have hinit : (sys cfg).Reachable (newStreamer cfg) := .init rfl
    refine ⟨ahead.foldl (apply cfg) (newStreamer cfg), TSys.Reachable.run hinit ahead ?_, ?_⟩
    · decide
    · decide

end Streamer

end Prismalama.Streaming
