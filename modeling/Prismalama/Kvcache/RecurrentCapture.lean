import Prismalama.Kvcache.RecurrentOrigin

/-!
# The captures of a pass

A pass captures its state buffers one after the other, each for all sequences
that have a checkpoint planned, and all buffers of a sequence in the one entry
it took from the ring. `Capturing` is the invariant in the middle of a pass; at
its end the pass has become part of the origin of its sequences.
-/

namespace Prismalama.Kvcache

open Prismalama.Lib

namespace Recurrent

/-! ## Capturing -/

section Capture

variable {R : Type*} [Inhabited R]

/-- What the functions of a capture leave alone beside the core. -/
structure SamePlan (c c' : Recurrent R) : Prop where
  core : c'.core = c.core
  pos : c'.curCheckpointPos = c.curCheckpointPos
  count : c'.checkpointCount = c.checkpointCount

omit [Inhabited R] in
theorem saveRow_spec (c : Recurrent R) (slot idx : Nat) (b : StateBuffer) (row : R) :
    SamePlan c (c.saveRow slot idx b row) ∧
      (c.saveRow slot idx b row).curCheckpointSlots = c.curCheckpointSlots ∧
      (∀ j, j ≠ slot → (c.saveRow slot idx b row).storeOf j = c.storeOf j) ∧
      ∀ k e', ((c.saveRow slot idx b row).storeOf slot).entries[k]? = some e' →
        ∃ e, (c.storeOf slot).entries[k]? = some e ∧
          ((e' = e ∧ (k ≠ idx ∨ e'.pos < 0)) ∨
            (k = idx ∧ e' = { e with saved := e.saved.insert b row })) := by
  unfold saveRow
  refine ⟨⟨updateStore_core _ _ _, ?_, ?_⟩, ?_, fun j hj => updateStore_storeOf_ne c hj _, ?_⟩
  · unfold updateStore
    split <;> rfl
  · unfold updateStore
    split <;> rfl
  · unfold updateStore
    split <;> rfl
  · intro k e' he'
    rcases updateStore_storeOf c slot (fun store =>
      { store with entries := store.entries.modify idx fun entry =>
          { entry with saved := entry.saved.insert b row } }) with h | ⟨h, hold⟩
    · rw [h] at he'
      simp only [List.getElem?_modify, Option.map_eq_map, Option.map_eq_some_iff] at he'
      obtain ⟨e, he, rfl⟩ := he'
      refine ⟨e, he, ?_⟩
      by_cases hk : idx = k
      · exact .inr ⟨hk.symm, by simp [hk]⟩
      · exact .inl ⟨by simp [hk], .inl fun h => hk h.symm⟩
    · rw [h] at he'
      have hdead := newSlotCheckpointStore_dead (R := R) c.checkpointCount e'
        (List.mem_of_getElem? he')
      exact ⟨e', by rw [hold]; exact he', .inl ⟨rfl, .inr hdead⟩⟩

theorem captureRow_some {c c' : Recurrent R} (b : StateBuffer) (src : List R) {i slot idx : Nat}
    {p : Int} (hp : 0 ≤ p) (hslot : c.curSlots[i]? = some slot)
    (hindex : c.checkpointIndexForSlot slot p = (c', some idx)) :
    captureRow b src c (p, i) = c'.saveRow slot idx b (src.getD i default) := by
  have hget : c.curSlots.getD i 0 = slot := by
    rw [List.getD_eq_getElem?_getD, hslot]
    rfl
  simp only [captureRow, not_lt.mpr hp, if_false, hget, hindex]

theorem captureRow_none {c c' : Recurrent R} (b : StateBuffer) (src : List R) {i slot : Nat}
    {p : Int} (hp : 0 ≤ p) (hslot : c.curSlots[i]? = some slot)
    (hindex : c.checkpointIndexForSlot slot p = (c', none)) : captureRow b src c (p, i) = c' := by
  have hget : c.curSlots.getD i 0 = slot := by
    rw [List.getD_eq_getElem?_getD, hslot]
    rfl
  simp only [captureRow, not_lt.mpr hp, if_false, hget, hindex]

/-- A capture for the `i`-th sequence of the pass: it saves the row in the entry
of the pass for that slot, which it takes from the ring if there is none yet. -/
theorem captureRow_spec (c : Recurrent R) (b : StateBuffer) (src : List R) {i slot : Nat} {p : Int}
    (hcount : c.checkpointCount ≠ 0) (hp : 0 ≤ p) (hslot : c.curSlots[i]? = some slot) :
    SamePlan c (captureRow b src c (p, i)) ∧
      (∀ j, j ≠ slot → (captureRow b src c (p, i)).storeOf j = c.storeOf j) ∧
      (∀ j, j ≠ slot → (captureRow b src c (p, i)).curCheckpointSlots.lookup j =
        c.curCheckpointSlots.lookup j) ∧
      ((c.curCheckpointSlots.lookup slot = none ∧ (c.storeOf slot).entries = [] ∧
          (captureRow b src c (p, i)).curCheckpointSlots.lookup slot = none ∧
          ((captureRow b src c (p, i)).storeOf slot).entries = []) ∨
        ∃ idx, c.curCheckpointSlots.lookup slot ∈ [none, some idx] ∧
          (captureRow b src c (p, i)).curCheckpointSlots.lookup slot = some idx ∧
          ∀ k e', ((captureRow b src c (p, i)).storeOf slot).entries[k]? = some e' →
            ∃ e, (c.storeOf slot).entries[k]? = some e ∧
              ((e' = e ∧ (k ≠ idx ∨ e'.pos < 0)) ∨
                (k = idx ∧ e'.saved = e.saved.insert b (src.getD i default) ∧
                  (c.curCheckpointSlots.lookup slot = some idx → e'.pos = e.pos)))) := by
  cases hlook : c.curCheckpointSlots.lookup slot with
  | some idx =>
    have hindex : c.checkpointIndexForSlot slot p = (c, some idx) := by
      simp only [checkpointIndexForSlot, hcount, if_false, hlook]
    rw [captureRow_some b src hp hslot hindex]
    obtain ⟨hplan, hslots, hothers, hentries⟩ := saveRow_spec c slot idx b (src.getD i default)
    refine ⟨hplan, hothers, fun j _ => by rw [hslots], .inr ⟨idx, by simp, ?_, ?_⟩⟩
    · rw [hslots, hlook]
    · intro k e' he'
      obtain ⟨e, he, h | ⟨hk, rfl⟩⟩ := hentries k e' he'
      · exact ⟨e, he, .inl h⟩
      · exact ⟨e, he, .inr ⟨hk, rfl, fun _ => rfl⟩⟩
  | none =>
    by_cases hnil : (c.storeOf slot).entries = []
    · have hindex : c.checkpointIndexForSlot slot p =
          (c.setStore slot (c.storeOf slot), none) := by
        simp only [checkpointIndexForSlot, hcount, if_false, hlook, SlotCheckpointStore.record,
          hnil, if_true]
      rw [captureRow_none b src hp hslot hindex]
      have hstore : ∀ j, (c.setStore slot (c.storeOf slot)).storeOf j = c.storeOf j :=
        checkpointStore_storeOf c slot
      exact ⟨⟨rfl, rfl, rfl⟩, fun j _ => hstore j, fun _ _ => rfl,
        .inl ⟨rfl, hnil, hlook, by rw [hstore]; exact hnil⟩⟩
    · let store := c.storeOf slot
      let recorded : SlotCheckpointStore R :=
        { entries := store.entries.modify store.next fun entry => { entry with pos := p }
          size := if store.size < store.entries.length then store.size + 1 else store.size
          next := (store.next + 1) % store.entries.length
          lastPos := p }
      let c₁ : Recurrent R :=
        { c.setStore slot recorded with
          curCheckpointSlots := c.curCheckpointSlots.insert slot store.next }
      have hindex : c.checkpointIndexForSlot slot p = (c₁, some store.next) := by
        simp only [checkpointIndexForSlot, hcount, if_false, hlook, SlotCheckpointStore.record,
          hnil]
        rfl
      rw [captureRow_some b src hp hslot hindex]
      have hstore₁ : ∀ j, c₁.storeOf j = if j = slot then recorded else c.storeOf j :=
        fun j => setStore_storeOf c slot j recorded
      obtain ⟨hplan, hslots, hothers, hentries⟩ :=
        saveRow_spec c₁ slot store.next b (src.getD i default)
      refine ⟨⟨hplan.core, hplan.pos, hplan.count⟩, fun j hj => ?_, fun j hj => ?_,
        .inr ⟨store.next, by simp, ?_, fun k e' he' => ?_⟩⟩
      · exact (hothers j hj).trans ((hstore₁ j).trans (if_neg hj))
      · refine (congrArg (fun m => m.lookup j) hslots).trans ?_
        exact (GoMap.lookup_insert_ite _ _ _ _).trans (if_neg hj)
      · refine (congrArg (fun m => m.lookup slot) hslots).trans ?_
        exact (GoMap.lookup_insert_ite _ _ _ _).trans (if_pos rfl)
      · obtain ⟨e₁, he₁, hcases⟩ := hentries k e' he'
        rw [hstore₁, if_pos rfl] at he₁
        simp only [recorded, List.getElem?_modify, Option.map_eq_map, Option.map_eq_some_iff] at he₁
        obtain ⟨e, he, rfl⟩ := he₁
        refine ⟨e, he, ?_⟩
        by_cases hk : store.next = k
        · simp only [hk, if_true] at hcases
          rcases hcases with ⟨rfl, hne | hneg⟩ | ⟨-, rfl⟩
          · exact absurd rfl hne
          · exact absurd hneg (not_lt.mpr hp)
          · exact .inr ⟨hk.symm, rfl, by simp⟩
        · simp only [hk, if_false] at hcases
          rcases hcases with h | ⟨hk', -⟩
          · exact .inl h
          · exact absurd hk'.symm hk

end Capture

/-! ## A pass -/

/-- The pass has a checkpoint planned for its `i`-th sequence. -/
def PlansCapture {R : Type*} [Inhabited R] (c : Recurrent R) (i : Nat) : Prop :=
  c.checkpointCount ≠ 0 ∧ ∃ p, c.curCheckpointPos[i]? = some p ∧ 0 ≤ p

/-- In the middle of pass `n`: for its `i`-th sequence the buffers `done i` are
captured, all in the entry the pass took for it. The other entries are still
those of before. -/
structure Capturing (ids : Finset Int) (layers : List StateBuffer) (origin : Int → List Tag)
    (n : Nat) (done : Nat → List StateBuffer) (c : Recurrent (Option Tag)) : Prop where
  accounted : c.Accounted ids
  pass : c.Pass
  ensured : c.writableEnsured = true
  clean : ∀ slot ∈ c.freeSlots, Dead (c.storeOf slot)
  saved : ∀ slot, SavedIn layers (c.storeOf slot)
  others : ∀ s slot, c.slotForSeq.lookup s = some slot → s ∉ c.curSeqs →
    StoreFrom layers (origin s) (c.storeOf slot)
  entry : ∀ i s slot, c.curSeqs[i]? = some s → c.curSlots[i]? = some slot →
    ∀ k e, (c.storeOf slot).entries[k]? = some e → 0 ≤ e.pos →
      if c.curCheckpointSlots.lookup slot = some k then
        ∀ b ∈ done i, e.saved.lookup b = some (some (s, n))
      else EntryFrom layers (origin s) e
  recorded : ∀ i slot, c.curSlots[i]? = some slot → c.PlansCapture i → done i ≠ [] →
    c.curCheckpointSlots.lookup slot = none → (c.storeOf slot).entries = []
  unplanned : ∀ i slot, c.curSlots[i]? = some slot → ¬c.PlansCapture i →
    c.curCheckpointSlots.lookup slot = none

section Capturing

variable {ids : Finset Int} {layers : List StateBuffer} {origin : Int → List Tag} {n : Nat}
  {done : Nat → List StateBuffer} {c : Recurrent (Option Tag)}

/-- Nothing is captured for a sequence without a plan. -/
theorem Capturing.congr_done (h : Capturing ids layers origin n done c)
    {done' : Nat → List StateBuffer} (hdone : ∀ i, c.PlansCapture i → done' i = done i) :
    Capturing ids layers origin n done' c where
  accounted := h.accounted
  pass := h.pass
  ensured := h.ensured
  clean := h.clean
  saved := h.saved
  others := h.others
  entry := by
    intro i s slot hs hslot k e he hlive
    have hold := h.entry i s slot hs hslot k e he hlive
    by_cases hplan : c.PlansCapture i
    · rw [hdone i hplan]
      exact hold
    · have hnone := h.unplanned i slot hslot hplan
      rw [if_neg (by simp [hnone])] at hold ⊢
      exact hold
  recorded := by
    intro i slot hslot hplan hne
    rw [hdone i hplan] at hne
    exact h.recorded i slot hslot hplan hne
  unplanned := h.unplanned

/-- What the invariant looks at beside the three parts that are passed on. -/
theorem Capturing.of_eq (h : Capturing ids layers origin n done c) {c' : Recurrent (Option Tag)}
    (hacc : c'.Accounted ids) (hpass : c'.Pass) (hens : c'.writableEnsured = true)
    (hfree : c'.freeSlots = c.freeSlots) (hmap : c'.slotForSeq = c.slotForSeq)
    (hseqs : c'.curSeqs = c.curSeqs) (hcur : c'.curSlots = c.curSlots)
    (hstore : c'.storeOf = c.storeOf) (hslots : c'.curCheckpointSlots = c.curCheckpointSlots)
    (hpos : c'.curCheckpointPos = c.curCheckpointPos)
    (hcount : c'.checkpointCount = c.checkpointCount) :
    Capturing ids layers origin n done c' := by
  have hplans : ∀ i, c'.PlansCapture i ↔ c.PlansCapture i := by
    intro i
    unfold PlansCapture
    rw [hcount, hpos]
  refine ⟨hacc, hpass, hens, ?_, ?_, ?_, ?_, ?_, ?_⟩
  · rw [hfree, hstore]
    exact h.clean
  · rw [hstore]
    exact h.saved
  · rw [hmap, hseqs, hstore]
    exact h.others
  · rw [hseqs, hcur, hstore, hslots]
    exact h.entry
  · intro i slot
    rw [hplans i, hcur, hstore, hslots]
    exact h.recorded i slot
  · intro i slot
    rw [hplans i, hcur, hslots]
    exact h.unplanned i slot

/-- One capture, for the `i`-th sequence. -/
theorem Capturing.captureRow (h : Capturing ids layers origin n done c) {b : StateBuffer}
    (hb : b ∈ layers) {src : List (Option Tag)} {i slot : Nat} {s : Int} {p : Int}
    (hs : c.curSeqs[i]? = some s) (hslot : c.curSlots[i]? = some slot)
    (hsrc : src.getD i default = some (s, n)) (hcount : c.checkpointCount ≠ 0)
    (hpos : c.curCheckpointPos[i]? = some p) (hp : 0 ≤ p) :
    Capturing ids layers origin n (Function.update done i (b :: done i))
      (captureRow b src c (p, i)) := by
  obtain ⟨hplan, hothers, hslots, hcases⟩ := captureRow_spec c b src hcount hp hslot
  have hcore := hplan.core
  have hmap : (Recurrent.captureRow b src c (p, i)).slotForSeq = c.slotForSeq :=
    congrArg (fun k => k.pool.slotOf) hcore
  have hfree : (Recurrent.captureRow b src c (p, i)).freeSlots = c.freeSlots :=
    congrArg (fun k => k.pool.free) hcore
  have hseqs : (Recurrent.captureRow b src c (p, i)).curSeqs = c.curSeqs :=
    congrArg Core.curSeqs hcore
  have hcur : (Recurrent.captureRow b src c (p, i)).curSlots = c.curSlots :=
    congrArg Core.curSlots hcore
  have hens : (Recurrent.captureRow b src c (p, i)).writableEnsured = c.writableEnsured :=
    congrArg Core.writableEnsured hcore
  have hplans : ∀ j, (Recurrent.captureRow b src c (p, i)).PlansCapture j ↔ c.PlansCapture j := by
    intro j
    unfold PlansCapture
    rw [hplan.count, hplan.pos]
  have hi : c.PlansCapture i := ⟨hcount, p, hpos, hp⟩
  -- the slot is the sequence's own
  have hlook : c.slotForSeq.lookup s = some slot := by
    obtain ⟨slot', hslot', hlook⟩ := h.pass.slot hs
    rw [hslot, Option.some.injEq] at hslot'
    rw [hslot']
    exact hlook
  have hnodup := h.pass.slots_nodup h.ensured
  have hne : ∀ (j slot' : Nat), j ≠ i → c.curSlots[j]? = some slot' → slot' ≠ slot := by
    rintro j slot' hj hslot' rfl
    exact hj ((List.getElem?_inj (List.getElem?_eq_some_iff.mp hslot').1 hnodup).mp
      (hslot'.trans hslot.symm))
  refine ⟨h.accounted.of_core_eq hcore, h.pass.of_core hcore, hens.trans h.ensured, ?_, ?_, ?_, ?_,
    ?_, ?_⟩
  · rw [hfree]
    intro j hj
    have hjne : j ≠ slot := by
      rintro rfl
      exact h.accounted.not_owned hj hlook
    rw [hothers j hjne]
    exact h.clean j hj
  · intro j
    by_cases hj : j = slot
    · subst hj
      intro e' he' b' row hrow
      obtain ⟨k, hk⟩ := List.getElem?_of_mem he'
      rcases hcases with ⟨-, -, -, hnil⟩ | ⟨idx, -, -, hentries⟩
      · rw [hnil] at he'
        cases he'
      · obtain ⟨e, he, ⟨rfl, -⟩ | ⟨-, hsaved, -⟩⟩ := hentries k e' hk
        · exact h.saved j e' (List.mem_of_getElem? he) b' row hrow
        · rw [hsaved, GoMap.lookup_insert_ite] at hrow
          split at hrow
          · rename_i heq
            rw [heq]
            exact hb
          · exact h.saved j e (List.mem_of_getElem? he) b' row hrow
    · rw [hothers j hj]
      exact h.saved j
  · rw [hmap, hseqs]
    intro t j ht hnot
    have hjne : j ≠ slot := by
      rintro rfl
      have hts := h.pass.writable h.ensured s (List.mem_of_getElem? hs) t j hlook ht
      exact hnot (hts ▸ List.mem_of_getElem? hs)
    rw [hothers j hjne]
    exact h.others t j ht hnot
  · rw [hseqs, hcur]
    intro j t slot' ht hslot' k e' he' hlive
    by_cases hj : j = i
    · subst hj
      rw [hs] at ht
      rw [hslot] at hslot'
      injection ht with ht
      injection hslot' with hslot'
      subst ht hslot'
      rw [Function.update_self]
      rcases hcases with ⟨-, -, -, hnil⟩ | ⟨idx, hprev, hidx, hentries⟩
      · rw [hnil] at he'
        cases he'
      · rw [hidx]
        obtain ⟨e, he, ⟨rfl, hk⟩ | ⟨rfl, hsaved, heq⟩⟩ := hentries k e' he'
        · have hk' := hk.resolve_right (not_lt.mpr hlive)
          rw [if_neg fun heq => hk' (Option.some.inj heq).symm]
          have hold := h.entry j s slot hs hslot k e' he hlive
          rw [if_neg] at hold
          · exact hold
          · rintro heq
            rw [heq] at hprev
            simp only [List.mem_cons, reduceCtorEq, Option.some.injEq, List.not_mem_nil, or_false,
              false_or] at hprev
            exact hk' hprev
        · rw [if_pos rfl]
          intro b' hb'
          rw [hsaved, GoMap.lookup_insert_ite]
          split
          · rw [hsrc]
          · rename_i hbne
            have hdone := (List.mem_cons.mp hb').resolve_left hbne
            simp only [List.mem_cons, List.not_mem_nil, or_false] at hprev
            rcases hprev with hnone | hsome
            · have hnil := h.recorded j slot hslot hi (List.ne_nil_of_mem hdone) hnone
              rw [hnil] at he
              cases he
            · have hold := h.entry j s slot hs hslot k e he ((heq hsome) ▸ hlive)
              rw [if_pos hsome] at hold
              exact hold b' hdone
    · have hjne := hne j slot' hj hslot'
      rw [hothers slot' hjne] at he'
      rw [hslots slot' hjne, Function.update_of_ne hj]
      exact h.entry j t slot' ht hslot' k e' he' hlive
  · rw [hcur]
    intro j slot' hslot' hplanj hdone hnone
    by_cases hj : j = i
    · subst hj
      rw [hslot] at hslot'
      injection hslot' with hslot'
      subst hslot'
      rcases hcases with ⟨-, -, -, hnil⟩ | ⟨idx, -, hidx, -⟩
      · exact hnil
      · rw [hidx] at hnone
        cases hnone
    · have hjne := hne j slot' hj hslot'
      rw [Function.update_of_ne hj] at hdone
      rw [hslots slot' hjne] at hnone
      rw [hothers slot' hjne]
      exact h.recorded j slot' hslot' ((hplans j).mp hplanj) hdone hnone
  · rw [hcur]
    intro j slot' hslot' hplanj
    by_cases hj : j = i
    · subst hj
      exact absurd ((hplans j).mpr hi) hplanj
    · rw [hslots slot' (hne j slot' hj hslot')]
      exact h.unplanned j slot' hslot' fun hplan => hplanj ((hplans j).mpr hplan)

/-- The loop over the planned positions from the `i`-th on. -/
theorem Capturing.captureRows {b : StateBuffer} (hb : b ∈ layers) {src : List (Option Tag)}
    (ps : List Int) : ∀ (c : Recurrent (Option Tag)) (i : Nat) (done : Nat → List StateBuffer),
      Capturing ids layers origin n done c → c.checkpointCount ≠ 0 →
      c.curCheckpointPos.drop i = ps → c.curCheckpointPos.length ≤ c.curSlots.length →
      (∀ (j : Nat) (s : Int), c.curSeqs[j]? = some s → src.getD j default = some (s, n)) →
      Capturing ids layers origin n (fun j => if i ≤ j then b :: done j else done j)
        ((ps.zipIdx i).foldl (Recurrent.captureRow b src) c) := by
  induction ps with
  | nil =>
    intro c i done h _ hdrop _ _
    refine h.congr_done fun j hj => if_neg ?_
    obtain ⟨-, p, hp, -⟩ := hj
    have hlen := List.drop_eq_nil_iff.mp hdrop
    have hlt := (List.getElem?_eq_some_iff.mp hp).1
    omega
  | cons p rest ih =>
    intro c i done h hcount hdrop hlen hsrc
    have hpos : c.curCheckpointPos[i]? = some p := by
      rw [← List.head?_drop, hdrop]
      rfl
    have hdrop' : c.curCheckpointPos.drop (i + 1) = rest := by
      rw [← List.drop_drop, hdrop]
      rfl
    have hstep : Capturing ids layers origin n (Function.update done i (b :: done i))
        (Recurrent.captureRow b src c (p, i)) ∧
        SamePlan c (Recurrent.captureRow b src c (p, i)) := by
      by_cases hp : 0 ≤ p
      · obtain ⟨slot, hslot⟩ : ∃ slot, c.curSlots[i]? = some slot :=
          ⟨_, List.getElem?_eq_getElem (by
            have := (List.getElem?_eq_some_iff.mp hpos).1
            omega)⟩
        obtain ⟨s, hs, -⟩ := h.pass.seq hslot
        exact ⟨h.captureRow hb hs hslot (hsrc i s hs) hcount hpos hp,
          (captureRow_spec c b src hcount hp hslot).1⟩
      · have hskip : Recurrent.captureRow b src c (p, i) = c := by
          simp only [Recurrent.captureRow, not_le.mp hp, if_true]
        rw [hskip]
        refine ⟨h.congr_done fun j hj => ?_, rfl, rfl, rfl⟩
        obtain ⟨-, q, hq, hnonneg⟩ := hj
        refine Function.update_of_ne ?_ _ _
        rintro rfl
        rw [hpos, Option.some.injEq] at hq
        exact hp (hq ▸ hnonneg)
    obtain ⟨hstep, hplan⟩ := hstep
    have hseqs : (Recurrent.captureRow b src c (p, i)).curSeqs = c.curSeqs :=
      congrArg Core.curSeqs hplan.core
    have hcur : (Recurrent.captureRow b src c (p, i)).curSlots = c.curSlots :=
      congrArg Core.curSlots hplan.core
    have hrest := ih _ (i + 1) _ hstep (by rw [hplan.count]; exact hcount)
      (by rw [hplan.pos]; exact hdrop') (by rw [hplan.pos, hcur]; exact hlen)
      (by rw [hseqs]; exact hsrc)
    rw [List.zipIdx_cons, List.foldl_cons]
    refine hrest.congr_done fun j _ => ?_
    by_cases hj : j = i
    · subst hj
      rw [if_pos (le_refl j), if_neg (by omega), Function.update_self]
    · rw [Function.update_of_ne hj]
      by_cases hle : i ≤ j
      · rw [if_pos hle, if_pos (by omega)]
      · rw [if_neg hle, if_neg (by omega)]

/-- The buffer `b` is captured for every sequence that has a plan. -/
theorem Capturing.captureCheckpoint (h : Capturing ids layers origin n done c) {b : StateBuffer}
    (hb : b ∈ layers) {src : List (Option Tag)}
    (hlen : c.curCheckpointPos.length ≤ c.curSlots.length)
    (hsrc : ∀ (j : Nat) (s : Int), c.curSeqs[j]? = some s → src.getD j default = some (s, n)) :
    Capturing ids layers origin n (fun j => b :: done j) (c.captureCheckpoint b src) := by
  unfold Recurrent.captureCheckpoint
  split
  · rename_i hcount
    exact h.congr_done fun _ hj => absurd hcount hj.1
  · rename_i hcount
    rw [if_neg (by rw [h.pass.computed]; exact Bool.false_ne_true)]
    have hrows := Capturing.captureRows hb c.curCheckpointPos c 0 done h hcount rfl hlen hsrc
    exact hrows.congr_done fun j _ => (if_pos (Nat.zero_le j)).symm

theorem captureCheckpoint_plan {R : Type*} [Inhabited R] (c : Recurrent R)
    (hcomputed : c.reserveCheckpoints = false) (b : StateBuffer) (src : List R) :
    (c.captureCheckpoint b src).curCheckpointPos = c.curCheckpointPos := by
  have hindex : ∀ (c : Recurrent R) (slot : Nat) (p : Int),
      (c.checkpointIndexForSlot slot p).1.curCheckpointPos = c.curCheckpointPos := by
    intro c slot p
    unfold checkpointIndexForSlot
    split
    · rfl
    · split
      · rfl
      · simp only
        split <;> rfl
  have hfold : ∀ (xs : List (Int × Nat)) (c : Recurrent R),
      (xs.foldl (Recurrent.captureRow b src) c).curCheckpointPos = c.curCheckpointPos := by
    intro xs
    induction xs with
    | nil => exact fun _ => rfl
    | cons x rest ih =>
      intro c
      rw [List.foldl_cons, ih]
      unfold Recurrent.captureRow
      split
      · rfl
      · simp only
        split
        · exact hindex _ _ _
        · exact (saveRow_spec _ _ _ _ _).1.pos.trans (hindex _ _ _)
  unfold Recurrent.captureCheckpoint
  split
  · rfl
  · rw [hcomputed, if_neg Bool.false_ne_true]
    exact hfold _ _

/-- The graph of pass `n` over the state buffers `layers`: it reads each buffer
and writes it with rows that carry their provenance. -/
def runLayers (n : Nat) (layers : List StateBuffer) (c : Recurrent (Option Tag)) :
    Recurrent (Option Tag) :=
  layers.foldl (fun c b =>
    (c.readState b none).1.updateState b (c.curSeqs.map fun s => some (s, n))) c

/-- One buffer of the graph. -/
theorem Capturing.layer (h : Capturing ids layers origin n done c) {b : StateBuffer}
    (hb : b ∈ layers) (hlen : c.curCheckpointPos.length ≤ c.curSlots.length) :
    let c' := (c.readState b none).1.updateState b (c.curSeqs.map fun s => some (s, n))
    Capturing ids layers origin n (fun j => b :: done j) c' ∧
      c'.curCheckpointPos.length ≤ c'.curSlots.length ∧ c'.curSeqs = c.curSeqs := by
  have hread : (c.readState b none).1 = c.ensureBuffer b := by
    have hens : c.ensureWritableOnce = c := by
      unfold ensureWritableOnce
      rw [if_pos h.ensured]
    unfold readState
    simp [hens, h.pass.noError]
  intro c'
  obtain ⟨hcore, hbuf, -⟩ := ensureBuffer_core h.accounted b
  have hens : (c.ensureBuffer b).writableEnsured = true :=
    (congrArg Core.writableEnsured hcore).trans h.ensured
  have hseqs : (c.ensureBuffer b).curSeqs = c.curSeqs := congrArg Core.curSeqs hcore
  have hpass := h.pass.of_buffers h.accounted b
  have hsame : (c.ensureBuffer b).storeOf = c.storeOf ∧
      (c.ensureBuffer b).curCheckpointSlots = c.curCheckpointSlots ∧
      (c.ensureBuffer b).curCheckpointPos = c.curCheckpointPos ∧
      (c.ensureBuffer b).checkpointCount = c.checkpointCount := by
    unfold ensureBuffer
    split <;> exact ⟨rfl, rfl, rfl, rfl⟩
  have hbuffered : Capturing ids layers origin n done (c.ensureBuffer b) :=
    h.of_eq (h.accounted.ensureBuffer b) hpass hens (congrArg (fun k => k.pool.free) hcore)
      (congrArg (fun k => k.pool.slotOf) hcore) hseqs (congrArg Core.curSlots hcore) hsame.1
      hsame.2.1 hsame.2.2.1 hsame.2.2.2
  have hrows : (c.curSeqs.map fun s => some (s, n)).length = (c.ensureBuffer b).curSeqs.length := by
    rw [List.length_map, hseqs]
  have hform := (writeCurrentSlotRows_spec hpass hens b hrows).1
  have hwritten : Capturing ids layers origin n done
      ((c.ensureBuffer b).writeCurrentSlotRows b (c.curSeqs.map fun s => some (s, n))) := by
    refine hbuffered.of_eq ((h.accounted.ensureBuffer b).written hpass hens hbuf hrows)
      (hpass.written hens b hrows) ?_ ?_ ?_ ?_ ?_ ?_ ?_ ?_ ?_ <;> rw [hform]
    · exact hens
    · rfl
  have hc' : c' = ((c.ensureBuffer b).writeCurrentSlotRows b
      (c.curSeqs.map fun s => some (s, n))).captureCheckpoint b
        (c.curSeqs.map fun s => some (s, n)) := by
    have htwice : (c.ensureBuffer b).ensureBuffer b = c.ensureBuffer b := by
      rw [Recurrent.ensureBuffer, if_pos hbuf]
    change (c.readState b none).1.updateState b _ = _
    rw [hread]
    unfold updateState
    simp only [htwice, hpass.computed, Bool.false_eq_true, if_false]
  have hwpos : ((c.ensureBuffer b).writeCurrentSlotRows b
      (c.curSeqs.map fun s => some (s, n))).curCheckpointPos.length ≤
      ((c.ensureBuffer b).writeCurrentSlotRows b
        (c.curSeqs.map fun s => some (s, n))).curSlots.length := by
    have hcur : (c.ensureBuffer b).curSlots = c.curSlots := congrArg Core.curSlots hcore
    rw [hform]
    change (c.ensureBuffer b).curCheckpointPos.length ≤ (c.ensureBuffer b).curSlots.length
    rw [hsame.2.2.1, hcur]
    exact hlen
  rw [hc']
  refine ⟨hwritten.captureCheckpoint hb hwpos fun j s hs => ?_, ?_, ?_⟩
  · rw [hform] at hs
    have hs' : c.curSeqs[j]? = some s := by
      rw [← hseqs]
      exact hs
    rw [List.getD_eq_getElem?_getD, List.getElem?_map, hs']
    rfl
  · have hcur : (((c.ensureBuffer b).writeCurrentSlotRows b
        (c.curSeqs.map fun s => some (s, n))).captureCheckpoint b
          (c.curSeqs.map fun s => some (s, n))).curSlots =
        ((c.ensureBuffer b).writeCurrentSlotRows b (c.curSeqs.map fun s => some (s, n))).curSlots :=
      congrArg Core.curSlots (captureCheckpoint_core _ _ _)
    rw [captureCheckpoint_plan _ hwritten.pass.computed, hcur]
    exact hwpos
  · refine (congrArg Core.curSeqs (captureCheckpoint_core _ b _)).trans ?_
    rw [hform]
    exact hseqs

theorem Capturing.runLayers (rest : List StateBuffer) :
    ∀ (c : Recurrent (Option Tag)) (done : Nat → List StateBuffer),
      Capturing ids layers origin n done c → (∀ b ∈ rest, b ∈ layers) →
      c.curCheckpointPos.length ≤ c.curSlots.length →
      Capturing ids layers origin n (fun j => rest.reverse ++ done j)
        (Recurrent.runLayers n rest c) ∧ (Recurrent.runLayers n rest c).curSeqs = c.curSeqs := by
  induction rest with
  | nil => exact fun c done h _ _ => ⟨h, rfl⟩
  | cons b rest ih =>
    intro c done h hsub hlen
    obtain ⟨hstep, hlen', hseqs⟩ := h.layer (hsub b List.mem_cons_self) hlen
    obtain ⟨hrest, hseqs'⟩ :=
      ih _ _ hstep (fun b' hb' => hsub b' (List.mem_cons_of_mem _ hb')) hlen'
    refine ⟨?_, hseqs'.trans hseqs⟩
    simpa [Recurrent.runLayers] using hrest

/-- A pass that may write has captured nothing yet. -/
theorem Traced.capturing (h : Traced layers origin c) (hacc : c.Accounted ids) (hpass : c.Pass)
    (hens : c.writableEnsured = true) (hslots : c.curCheckpointSlots = ∅) (n : Nat) :
    Capturing ids layers origin n (fun _ => []) c where
  accounted := hacc
  pass := hpass
  ensured := hens
  clean := h.clean
  saved := h.saved
  others := fun s slot hslot _ => h.source s slot hslot
  entry := by
    intro i s slot hs hslot k e he _
    rw [hslots, GoMap.lookup_empty, if_neg (by simp)]
    obtain ⟨slot', hslot', hlook⟩ := hpass.slot hs
    rw [hslot] at hslot'
    injection hslot' with hslot'
    subst hslot'
    exact h.source s slot hlook e (List.mem_of_getElem? he)
  recorded := fun _ _ _ _ hne => absurd rfl hne
  unplanned := fun _ _ _ _ => by rw [hslots, GoMap.lookup_empty]

/-- Once all buffers are captured, the pass is part of the origin of its sequences. -/
theorem Capturing.traced (h : Capturing ids layers origin n done c)
    (hdone : ∀ i, ∀ b ∈ layers, b ∈ done i) {origin' : Int → List Tag}
    (hsub : ∀ s, ∀ tag ∈ origin s, tag ∈ origin' s)
    (hpass : ∀ s ∈ c.curSeqs, (s, n) ∈ origin' s) : Traced layers origin' c where
  clean := h.clean
  saved := h.saved
  source := by
    intro s slot hslot
    by_cases hs : s ∈ c.curSeqs
    · obtain ⟨i, hi⟩ := List.getElem?_of_mem hs
      obtain ⟨slot', hslot', hlook⟩ := h.pass.slot hi
      rw [hslot] at hlook
      injection hlook with hlook
      subst hlook
      intro e he hlive
      obtain ⟨k, hk⟩ := List.getElem?_of_mem he
      have hentry := h.entry i s slot hi hslot' k e hk hlive
      split at hentry
      · exact ⟨(s, n), hpass s hs, fun b hb => hentry b (hdone i b hb)⟩
      · exact hentry.mono (hsub s) hlive
    · exact (h.others s slot hslot hs).mono (hsub s)

end Capturing

/-! ## Passes -/

section Passes

variable {R : Type*} [Inhabited R]

/-- What an accepted batch fixes for its pass. -/
structure Planned (batch : List Token) (reserve : Bool) (c : Recurrent R) : Prop where
  slots : c.curCheckpointSlots = ∅
  length : c.curCheckpointPos.length ≤ c.curSlots.length
  seqs : ∀ s ∈ c.curSeqs, ∃ t ∈ batch, t.seq = s
  reserve : c.reserveCheckpoints = reserve

omit [Inhabited R] in
theorem finalizeStartForward_planned {c : Recurrent R} {batch : List Token}
    (hseqs : ∀ s ∈ c.curSeqs, ∃ t ∈ batch, t.seq = s) (reserve : Bool) :
    Planned batch reserve (c.finalizeStartForward batch reserve) := by
  have hcore := finalizeStartForward_core c batch reserve
  have hcur : (c.finalizeStartForward batch reserve).curSlots = c.curSlots :=
    congrArg Core.curSlots hcore
  have hcurSeqs : (c.finalizeStartForward batch reserve).curSeqs = c.curSeqs :=
    congrArg Core.curSeqs hcore
  obtain ⟨-, hslots, hlen⟩ := planCheckpoints_storeOf
    ({ c.setCurSlotsInput with
      writableEnsured := false, writableError := none, reserveCheckpoints := reserve } :
        Recurrent R) batch
  refine ⟨hslots, ?_, ?_, congrArg Core.reserveCheckpoints hcore⟩
  · rw [hcur]
    exact hlen
  · rw [hcurSeqs]
    exact hseqs

omit [Inhabited R] in
theorem ensureSlots_curSeqs (seqs : List Int) : ∀ (c : Recurrent R) (newSlots : List Nat),
    (ensureSlots c seqs newSlots).1.curSeqs = c.curSeqs := by
  induction seqs with
  | nil => exact fun _ _ => rfl
  | cons seq rest ih =>
    intro c newSlots
    unfold ensureSlots
    split
    · exact ih _ _
    · split
      · rfl
      · rename_i slot c' htake
        refine (ih _ _).trans ?_
        unfold takeSlot allocSlot at htake
        cases hfree : c.freeSlots with
        | nil => simp [hfree] at htake
        | cons new rest' =>
          simp only [hfree, Option.some.injEq, Prod.mk.injEq] at htake
          rw [← htake.2]

theorem startForwardSlots_planned {c : Recurrent R} {batch : List Token} (hne : batch ≠ [])
    {reserve : Bool} (hok : (c.startForwardSlots batch reserve).2 = none) :
    Planned batch reserve (c.startForwardSlots batch reserve).1 := by
  cases batch with
  | nil => exact absurd rfl hne
  | cons first rest =>
    simp only [startForwardSlots] at hok ⊢
    split
    · have hseq : ∀ s ∈ [first.seq], ∃ t ∈ first :: rest, t.seq = s := by
        intro s hs
        exact ⟨first, List.mem_cons_self, (List.mem_singleton.mp hs).symm⟩
      unfold startForwardSingleSeq
      cases reserve with
      | true => exact finalizeStartForward_planned hseq true
      | false =>
        simp only [Bool.false_eq_true, if_false]
        split
        · exact finalizeStartForward_planned hseq false
        · split
          · rename_i hfirst _ hnone _ htake
            simp only [hfirst, if_true, startForwardSingleSeq, Bool.false_eq_true, if_false, hnone,
              htake, reduceCtorEq] at hok
          · rename_i slot c' htake
            have hcur : c'.curSeqs = [first.seq] := by
              unfold takeSlot allocSlot at htake
              cases hfree : c.freeSlots with
              | nil => simp [hfree] at htake
              | cons new rest' =>
                simp only [hfree, Option.some.injEq, Prod.mk.injEq] at htake
                rw [← htake.2]
            refine finalizeStartForward_planned ?_ false
            change ∀ s ∈ c'.curSeqs, _
            rw [hcur]
            exact hseq
    · rename_i hfirst
      rw [if_neg hfirst] at hok
      have hseqs : ∀ s ∈ batchSeqs (first :: rest), ∃ t ∈ first :: rest, t.seq = s :=
        fun s hs => mem_of_mem_batchSeqs hs
      split
      · rename_i hwant
        rw [if_pos hwant] at hok
        cases hok
      · rename_i hwant
        rw [if_neg hwant] at hok
        cases reserve with
        | true => exact finalizeStartForward_planned hseqs true
        | false =>
          simp only [Bool.false_eq_true, if_false] at hok ⊢
          split
          · rename_i hnone
            rw [hnone] at hok
            cases hok
          · refine finalizeStartForward_planned ?_ false
            change ∀ s ∈ (ensureSlots _ _ _).1.curSeqs, _
            rw [ensureSlots_curSeqs]
            exact hseqs

theorem startForward_planned {c : Recurrent R} {batch : List Token} (hne : batch ≠ [])
    {order : List Int} {reserve : Bool} (hok : (c.startForward batch order reserve).2 = none) :
    Planned batch reserve (c.startForward batch order reserve).1 := by
  simp only [startForward] at hok ⊢
  split
  · rename_i err herr
    rw [herr] at hok
    cases hok
  · rename_i hnone
    rw [hnone] at hok
    exact startForwardSlots_planned hne hok

end Passes

/-- Reserving fills in rows that dead entries lack. -/
theorem reserveCheckpoint_traced {layers : List StateBuffer} {origin : Int → List Tag}
    {c : Recurrent (Option Tag)} (h : Traced layers origin c) {b : StateBuffer} (hb : b ∈ layers) :
    Traced layers origin (c.reserveCheckpoint b) := by
  have hentry : ∀ (store : SlotCheckpointStore (Option Tag)), ∀ e' ∈ (reserveStore b store).entries,
      ∃ e ∈ store.entries, e'.pos = e.pos ∧
        (e' = e ∨ e.saved.lookup b = none ∧ e'.saved = e.saved.insert b none) := by
    intro store e' he'
    obtain ⟨e, he, rfl⟩ := List.mem_map.mp he'
    refine ⟨e, he, ?_⟩
    cases hlook : e.saved.lookup b with
    | some row => exact ⟨rfl, .inl rfl⟩
    | none => exact ⟨rfl, .inr ⟨rfl, rfl⟩⟩
  have hstep : ∀ (c : Recurrent (Option Tag)) (slot : Nat), Traced layers origin c →
      Traced layers origin (c.setStore slot (reserveStore b (c.storeOf slot))) := by
    intro c slot h
    refine ⟨fun j hj => ?_, fun s j hj => ?_, fun j => ?_⟩ <;> rw [setStore_storeOf]
    · split
      · rename_i heq
        subst heq
        intro e' he'
        obtain ⟨e, he, hpos, -⟩ := hentry _ e' he'
        rw [hpos]
        exact h.clean j hj e he
      · exact h.clean j hj
    · split
      · rename_i heq
        subst heq
        intro e' he' hlive
        obtain ⟨e, he, hpos, rfl | ⟨hnone, -⟩⟩ := hentry _ e' he'
        · exact h.source s j hj e' he hlive
        · obtain ⟨tag, -, hrows⟩ := h.source s j hj e he (hpos ▸ hlive)
          rw [hrows b hb] at hnone
          cases hnone
      · exact h.source s j hj
    · split
      · rename_i heq
        subst heq
        intro e' he' b' row hrow
        obtain ⟨e, he, -, rfl | ⟨-, hsaved⟩⟩ := hentry _ e' he'
        · exact h.saved j e' he b' row hrow
        · rw [hsaved, GoMap.lookup_insert_ite] at hrow
          split at hrow
          · rename_i heq
            rw [heq]
            exact hb
          · exact h.saved j e he b' row hrow
      · exact h.saved j
  have hfold : ∀ (slots : List Nat) (c : Recurrent (Option Tag)), Traced layers origin c →
      Traced layers origin
        (slots.foldl (fun c slot => c.setStore slot (reserveStore b (c.storeOf slot))) c) := by
    intro slots
    induction slots with
    | nil => exact fun _ h => h
    | cons slot rest ih => exact fun c h => ih _ (hstep c slot h)
  unfold reserveCheckpoint
  split
  · exact h
  · exact (hfold _ c h).of_eq rfl rfl rfl

theorem readState_traced {ids : Finset Int} {layers : List StateBuffer} {origin : Int → List Tag}
    {c : Recurrent (Option Tag)} (hacc : c.Accounted ids) (h : Traced layers origin c)
    (b : StateBuffer) (dims : Option (List Int)) :
    (c.readState b dims).1.Accounted ids ∧ Traced layers origin (c.readState b dims).1 ∧
      (c.readState b dims).1.reserveCheckpoints = c.reserveCheckpoints := by
  obtain ⟨hacc', h', -, hres⟩ := ensureWritableOnce_traced hacc h
  unfold readState
  simp only
  split
  · exact ⟨hacc', h', hres⟩
  · split
    · exact ⟨hacc'.ensureBuffer b, ensureBuffer_traced h' b,
        (congrArg Core.reserveCheckpoints (ensureBuffer_core hacc' b).1).trans hres⟩
    · exact ⟨hacc', h', hres⟩

/-- A pass that reserves memory captures nothing. -/
theorem runLayers_reserve {ids : Finset Int} {layers : List StateBuffer} {origin : Int → List Tag}
    (n : Nat) (rest : List StateBuffer) : ∀ (c : Recurrent (Option Tag)), c.Accounted ids →
      Traced layers origin c → c.reserveCheckpoints = true → (∀ b ∈ rest, b ∈ layers) →
      (runLayers n rest c).Accounted ids ∧ Traced layers origin (runLayers n rest c) := by
  induction rest with
  | nil => exact fun c hacc h _ _ => ⟨hacc, h⟩
  | cons b rest ih =>
    intro c hacc h hres hsub
    obtain ⟨hacc', h', hres'⟩ := readState_traced hacc h b none
    have hbuf := hacc'.ensureBuffer b
    have hbufres : ((c.readState b none).1.ensureBuffer b).reserveCheckpoints = true :=
      (congrArg Core.reserveCheckpoints (ensureBuffer_core hacc' b).1).trans (hres'.trans hres)
    have hupdate : ∀ src, (c.readState b none).1.updateState b src =
        ((c.readState b none).1.ensureBuffer b).captureCheckpoint b src := by
      intro src
      unfold updateState
      simp only [hbufres, if_true]
    refine ih _ ?_ ?_ ?_ fun b' hb' => hsub b' (List.mem_cons_of_mem _ hb') <;>
      simp only [hupdate]
    · exact hbuf.of_core_eq (captureCheckpoint_core _ _ _)
    · unfold captureCheckpoint
      split
      · exact ensureBuffer_traced h' b
      · exact reserveCheckpoint_traced (ensureBuffer_traced h' b) (hsub b List.mem_cons_self)
    · exact (congrArg Core.reserveCheckpoints (captureCheckpoint_core _ b _)).trans hbufres

/-- The first read of a pass opens it for writing, the others find it open. -/
theorem runLayers_ensureWritableOnce (n : Nat) (b : StateBuffer) (rest : List StateBuffer)
    (c : Recurrent (Option Tag)) (hseqs : c.ensureWritableOnce.curSeqs = c.curSeqs)
    (hens : c.ensureWritableOnce.writableEnsured = true) :
    runLayers n (b :: rest) c = runLayers n (b :: rest) c.ensureWritableOnce := by
  have htwice : c.ensureWritableOnce.ensureWritableOnce = c.ensureWritableOnce := by
    rw [ensureWritableOnce, if_pos hens]
  have hread : c.ensureWritableOnce.readState b none = c.readState b none := by
    unfold readState
    rw [htwice]
  simp only [runLayers, List.foldl_cons, hread, hseqs]

/-- A pass that computes: afterwards it is part of the origin of its sequences. -/
theorem runLayers_traced {ids : Finset Int} {layers : List StateBuffer}
    {origin origin' : Int → List Tag} {c : Recurrent (Option Tag)} (hacc : c.Accounted ids)
    (h : Traced layers origin c) (hpass : c.Pass) {batch : List Token}
    (hplan : Planned batch false c) {n : Nat} (hsub : ∀ s, ∀ tag ∈ origin s, tag ∈ origin' s)
    (hnew : ∀ t ∈ batch, (t.seq, n) ∈ origin' t.seq) :
    (runLayers n layers c).Accounted ids ∧ Traced layers origin' (runLayers n layers c) := by
  cases layers with
  | nil =>
    refine ⟨hacc, h.follow (fun _ => Fades.refl _) (fun s slot hs => .inl ⟨hs, hsub s⟩)
      fun _ hj => .inl hj⟩
  | cons b rest =>
    obtain ⟨hacc₁, hpass₁, -, hens₁, hseqs₁⟩ := ensureWritableOnce_spec hacc hpass
    obtain ⟨-, h₁, hplan₁, -⟩ := ensureWritableOnce_traced hacc h
    have hpos₁ : c.ensureWritableOnce.curCheckpointPos = c.curCheckpointPos :=
      congrArg Prod.fst hplan₁
    have hslots₁ : c.ensureWritableOnce.curCheckpointSlots = c.curCheckpointSlots :=
      congrArg Prod.snd hplan₁
    have hlen₁ : c.ensureWritableOnce.curCheckpointPos.length ≤
        c.ensureWritableOnce.curSlots.length := by
      rw [hpass₁.length, hseqs₁, ← hpass.length, hpos₁]
      exact hplan.length
    have hopen := h₁.capturing hacc₁ hpass₁ hens₁ (hslots₁.trans hplan.slots) n
    obtain ⟨hrun, hseqs⟩ := Capturing.runLayers (b :: rest) _ _ hopen (fun _ hb => hb) hlen₁
    rw [runLayers_ensureWritableOnce n b rest c hseqs₁ hens₁]
    refine ⟨hrun.accounted, hrun.traced (fun _ b' hb' => ?_) hsub fun s hs => ?_⟩
    · simpa [or_comm] using hb'
    · rw [hseqs, hseqs₁] at hs
      obtain ⟨t, ht, rfl⟩ := hplan.seqs s hs
      exact hnew t ht

end Recurrent

end Prismalama.Kvcache
