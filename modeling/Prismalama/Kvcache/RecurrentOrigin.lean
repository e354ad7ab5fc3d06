import Prismalama.Kvcache.RecurrentCopyOnWrite

/-!
# Where checkpoints come from

Rows carry their provenance: a forward pass writes rows tagged with the
sequence and the number of the pass, so that a checkpoint tells who was
captured in it, and when. `origin` gives for each sequence the passes that make
up its contents: its own, or those of the sequence it was copied from, since it
was last cleared.

`Traced` is the invariant: free slots have no live checkpoints, and those in
the slot of a sequence come from its origin. Each operation but the captures of
a pass is shown to keep it here.
-/

namespace Prismalama.Kvcache

open Prismalama.Lib

namespace Recurrent

/-- The sequence and the number of the pass that wrote a row; none in zeros. -/
abbrev Tag := Int × Nat

/-! ## Entries and stores -/

section Stores

variable {R : Type*}

/-- A live entry has the rows of all `layers`, saved by one pass among `tags`. -/
def EntryFrom (layers : List StateBuffer) (tags : List Tag) (e : CheckpointEntry (Option Tag)) :
    Prop :=
  0 ≤ e.pos → ∃ tag ∈ tags, ∀ b ∈ layers, e.saved.lookup b = some (some tag)

def StoreFrom (layers : List StateBuffer) (tags : List Tag)
    (store : SlotCheckpointStore (Option Tag)) : Prop :=
  ∀ e ∈ store.entries, EntryFrom layers tags e

/-- No live entries. -/
def Dead (store : SlotCheckpointStore R) : Prop := ∀ e ∈ store.entries, e.pos < 0

instance (store : SlotCheckpointStore R) : Decidable (Dead store) :=
  inferInstanceAs (Decidable (∀ e ∈ store.entries, e.pos < 0))

/-- Only rows of `layers` are saved. -/
def SavedIn (layers : List StateBuffer) (store : SlotCheckpointStore R) : Prop :=
  ∀ e ∈ store.entries, ∀ b row, e.saved.lookup b = some row → b ∈ layers

theorem EntryFrom.mono {layers : List StateBuffer} {tags tags' : List Tag}
    {e : CheckpointEntry (Option Tag)} (h : EntryFrom layers tags e)
    (hsub : ∀ tag ∈ tags, tag ∈ tags') : EntryFrom layers tags' e := by
  intro hlive
  obtain ⟨tag, htag, hrows⟩ := h hlive
  exact ⟨tag, hsub tag htag, hrows⟩

theorem StoreFrom.mono {layers : List StateBuffer} {tags tags' : List Tag}
    {store : SlotCheckpointStore (Option Tag)} (h : StoreFrom layers tags store)
    (hsub : ∀ tag ∈ tags, tag ∈ tags') : StoreFrom layers tags' store :=
  fun e he => (h e he).mono hsub

theorem Dead.storeFrom {store : SlotCheckpointStore (Option Tag)} (h : Dead store)
    (layers : List StateBuffer) (tags : List Tag) : StoreFrom layers tags store :=
  fun e he hlive => absurd (h e he) (not_lt.mpr hlive)

theorem newSlotCheckpointStore_dead (n : Nat) : Dead (newSlotCheckpointStore n : SlotCheckpointStore R) := by
  intro e he
  rw [List.eq_of_mem_replicate he]
  exact Int.negSucc_lt_zero 0

example : Dead (newSlotCheckpointStore 2 : SlotCheckpointStore Nat) := by decide

theorem newSlotCheckpointStore_savedIn (layers : List StateBuffer) (n : Nat) :
    SavedIn layers (newSlotCheckpointStore n : SlotCheckpointStore R) := by
  intro e he b row hrow
  rw [List.eq_of_mem_replicate he] at hrow
  simp at hrow

/-- Entries die or move, but keep their rows and do not come to life. -/
def Fades (store store' : SlotCheckpointStore R) : Prop :=
  ∀ e' ∈ store'.entries, ∃ e ∈ store.entries, e'.saved = e.saved ∧ (0 ≤ e'.pos → 0 ≤ e.pos)

theorem Fades.refl (store : SlotCheckpointStore R) : Fades store store :=
  fun e he => ⟨e, he, rfl, id⟩

theorem Fades.storeFrom {layers : List StateBuffer} {tags : List Tag}
    {store store' : SlotCheckpointStore (Option Tag)} (h : Fades store store')
    (hfrom : StoreFrom layers tags store) : StoreFrom layers tags store' := by
  intro e' he' hlive
  obtain ⟨e, he, hsaved, hpos⟩ := h e' he'
  rw [hsaved]
  exact hfrom e he (hpos hlive)

theorem Fades.dead {store store' : SlotCheckpointStore R} (h : Fades store store')
    (hdead : Dead store) : Dead store' := by
  intro e' he'
  obtain ⟨e, he, -, hpos⟩ := h e' he'
  by_contra hlive
  exact absurd (hdead e he) (not_lt.mpr (hpos (not_lt.mp hlive)))

theorem Fades.savedIn {layers : List StateBuffer} {store store' : SlotCheckpointStore R}
    (h : Fades store store') (hsaved : SavedIn layers store) : SavedIn layers store' := by
  intro e' he' b row hrow
  obtain ⟨e, he, heq, -⟩ := h e' he'
  rw [heq] at hrow
  exact hsaved e he b row hrow

theorem recount_entries (entries : List (CheckpointEntry R)) (lastPos : Int) :
    (SlotCheckpointStore.recount entries lastPos).entries = entries := by
  simp only [SlotCheckpointStore.recount]
  split <;> rfl

theorem fades_of_map {store store' : SlotCheckpointStore R}
    {f : CheckpointEntry R → CheckpointEntry R} (h : store'.entries = store.entries.map f)
    (hsaved : ∀ e, (f e).saved = e.saved) (hpos : ∀ e, 0 ≤ (f e).pos → 0 ≤ e.pos) :
    Fades store store' := by
  intro e' he'
  rw [h] at he'
  obtain ⟨e, he, rfl⟩ := List.mem_map.mp he'
  exact ⟨e, he, hsaved e, hpos e⟩

theorem reset_dead (store : SlotCheckpointStore R) : Dead store.reset := by
  intro e he
  obtain ⟨e', -, rfl⟩ := List.mem_map.mp he
  exact Int.negSucc_lt_zero 0

theorem reset_fades (store : SlotCheckpointStore R) : Fades store store.reset :=
  fades_of_map rfl (fun _ => rfl) (fun e hlive => by simp at hlive)

theorem pruneAfter_fades (store : SlotCheckpointStore R) (pos : Int) :
    Fades store (store.pruneAfter pos) := by
  refine fades_of_map (recount_entries _ _) (fun e => ?_) (fun e hlive => ?_)
  · split <;> rfl
  · split at hlive
    · simp at hlive
    · exact hlive

theorem shiftRange_fades (store : SlotCheckpointStore R) (b e : Int) :
    Fades store (store.shiftRange b e) := by
  refine fades_of_map (recount_entries _ _) (fun _ => rfl) (fun entry hlive => ?_)
  by_contra hdead
  simp [SlotCheckpointStore.shiftPos, hdead] at hlive

/-- A copied row is found in the copy; what the source has not saved is as it was. -/
theorem copyEntry_lookup (srcEntry dstEntry : CheckpointEntry R) (b : StateBuffer) :
    (copyEntry srcEntry dstEntry).saved.lookup b =
      (srcEntry.saved.lookup b).or (dstEntry.saved.lookup b) := by
  have hfold : ∀ (es : List ((_ : StateBuffer) × R)) (m : GoMap StateBuffer R),
      (es.map Sigma.fst).Nodup →
      (es.foldl (fun saved e => saved.insert e.1 e.2) m).lookup b =
        (es.dlookup b).or (m.lookup b) := by
    intro es
    induction es with
    | nil => exact fun m _ => rfl
    | cons e rest ih =>
      obtain ⟨k, row⟩ := e
      intro m hnd
      rw [List.map_cons, List.nodup_cons] at hnd
      rw [List.foldl_cons, ih _ hnd.2, GoMap.lookup_insert_ite]
      by_cases hb : b = k
      · have hnone : rest.dlookup b = none := by
          rw [List.dlookup_eq_none, hb]
          exact hnd.1
        subst hb
        rw [if_pos rfl, hnone, List.dlookup_cons_eq]
        rfl
      · rw [if_neg hb, List.dlookup_cons_ne _ _ hb]
  exact hfold srcEntry.saved.entries dstEntry.saved srcEntry.saved.nodupKeys

theorem mem_zipWith_copyEntry {src dst : List (CheckpointEntry R)} {e : CheckpointEntry R}
    (he : e ∈ List.zipWith copyEntry src dst) :
    ∃ e₁ ∈ src, ∃ e₂ ∈ dst, e = copyEntry e₁ e₂ := by
  obtain ⟨i, hi⟩ := List.getElem?_of_mem he
  obtain ⟨e₁, e₂, h₁, h₂, rfl⟩ := List.getElem?_zipWith_eq_some.mp hi
  exact ⟨e₁, List.mem_of_getElem? h₁, e₂, List.mem_of_getElem? h₂, rfl⟩

end Stores

/-! ## Stores of a cache -/

section Cache

variable {R : Type*} [Inhabited R]

omit [Inhabited R] in
theorem setStore_storeOf (c : Recurrent R) (slot j : Nat) (store : SlotCheckpointStore R) :
    (c.setStore slot store).storeOf j = if j = slot then store else c.storeOf j := by
  simp only [storeOf, setStore, GoMap.lookup_insert_ite]
  split <;> rfl

omit [Inhabited R] in
theorem checkpointStore_storeOf (c : Recurrent R) (slot j : Nat) :
    (c.checkpointStore slot).storeOf j = c.storeOf j := by
  unfold checkpointStore
  rw [setStore_storeOf]
  split
  · rename_i heq
    rw [heq]
  · rfl

omit [Inhabited R] in
theorem updateStore_storeOf_ne (c : Recurrent R) {slot j : Nat} (hj : j ≠ slot)
    (f : SlotCheckpointStore R → SlotCheckpointStore R) :
    (c.updateStore slot f).storeOf j = c.storeOf j := by
  unfold updateStore
  split
  · rfl
  · rw [setStore_storeOf, if_neg hj]

omit [Inhabited R] in
/-- A slot without a store keeps its empty one. -/
theorem updateStore_storeOf (c : Recurrent R) (slot : Nat)
    (f : SlotCheckpointStore R → SlotCheckpointStore R) :
    (c.updateStore slot f).storeOf slot = f (c.storeOf slot) ∨
      (c.updateStore slot f).storeOf slot = newSlotCheckpointStore c.checkpointCount ∧
        c.storeOf slot = newSlotCheckpointStore c.checkpointCount := by
  cases h : c.checkpoints.lookup slot with
  | none =>
    right
    simp [updateStore, h, storeOf]
  | some store =>
    left
    simp only [updateStore, h]
    rw [setStore_storeOf, if_pos rfl]
    simp [storeOf, h]

omit [Inhabited R] in
theorem updateStore_fades (c : Recurrent R) (slot : Nat)
    {f : SlotCheckpointStore R → SlotCheckpointStore R} (hf : ∀ store, Fades store (f store))
    (j : Nat) : Fades (c.storeOf j) ((c.updateStore slot f).storeOf j) := by
  by_cases hj : j = slot
  · subst hj
    rcases updateStore_storeOf c j f with h | ⟨h, h'⟩
    · rw [h]
      exact hf _
    · rw [h, h']
      exact Fades.refl _
  · rw [updateStore_storeOf_ne c hj]
    exact Fades.refl _

omit [Inhabited R] in
theorem clearCheckpoints_dead (c : Recurrent R) (slot : Nat) :
    Dead ((c.clearCheckpoints slot).storeOf slot) := by
  rcases updateStore_storeOf c slot SlotCheckpointStore.reset with h | ⟨h, -⟩
  · unfold clearCheckpoints
    rw [h]
    exact reset_dead _
  · unfold clearCheckpoints
    rw [h]
    exact newSlotCheckpointStore_dead _

omit [Inhabited R] in
theorem updateStore_slotForSeq (c : Recurrent R) (slot : Nat)
    (f : SlotCheckpointStore R → SlotCheckpointStore R) :
    (c.updateStore slot f).slotForSeq = c.slotForSeq :=
  congrArg (fun k => k.pool.slotOf) (updateStore_core c slot f)

omit [Inhabited R] in
theorem updateStore_freeSlots (c : Recurrent R) (slot : Nat)
    (f : SlotCheckpointStore R → SlotCheckpointStore R) :
    (c.updateStore slot f).freeSlots = c.freeSlots :=
  congrArg (fun k => k.pool.free) (updateStore_core c slot f)

omit [Inhabited R] in
/-- The copy: each entry is copied over an entry of the new slot, or nothing
happens because the source has no live entries. -/
theorem copyCheckpoints_storeOf (c : Recurrent R) (srcSlot dstSlot : Nat) :
    (∀ j, j ≠ dstSlot → (c.copyCheckpoints srcSlot dstSlot).storeOf j = c.storeOf j) ∧
      ∀ e ∈ ((c.copyCheckpoints srcSlot dstSlot).storeOf dstSlot).entries,
        e ∈ (c.storeOf dstSlot).entries ∨
          ∃ e₁ ∈ (c.storeOf srcSlot).entries, ∃ e₂ ∈ (c.storeOf dstSlot).entries,
            e = copyEntry e₁ e₂ := by
  unfold copyCheckpoints
  split
  · exact ⟨fun _ _ => rfl, fun e he => .inl he⟩
  · split
    · exact ⟨fun _ _ => rfl, fun e he => .inl he⟩
    · rename_i srcStore hsrc
      split
      · exact ⟨fun _ _ => rfl, fun e he => .inl he⟩
      · refine ⟨fun j hj => by rw [setStore_storeOf, if_neg hj], fun e he => .inr ?_⟩
        rw [setStore_storeOf, if_pos rfl] at he
        have hstore : c.storeOf srcSlot = srcStore := by
          unfold storeOf
          rw [hsrc]
          rfl
        rw [hstore]
        exact mem_zipWith_copyEntry he

/-- The checkpoints the pass is to take, and those it has taken. -/
def plan (c : Recurrent R) : List Int × GoMap Nat Nat := (c.curCheckpointPos, c.curCheckpointSlots)

omit [Inhabited R] in
theorem copyCheckpoints_plan (c : Recurrent R) (srcSlot dstSlot : Nat) :
    (c.copyCheckpoints srcSlot dstSlot).plan = c.plan := by
  unfold copyCheckpoints
  split
  · rfl
  · split
    · rfl
    · split <;> rfl

omit [Inhabited R] in
theorem planCheckpoint_storeOf (batch : List Token) (xs : List (Int × Nat))
    (out : Recurrent R × List Int) :
    (xs.foldl (planCheckpoint batch) out).1.storeOf = out.1.storeOf ∧
      (xs.foldl (planCheckpoint batch) out).2.length = out.2.length + xs.length := by
  induction xs generalizing out with
  | nil => exact ⟨rfl, rfl⟩
  | cons x rest ih =>
    obtain ⟨hstore, hlen⟩ := ih (planCheckpoint batch out x)
    rw [List.foldl_cons, hstore, hlen]
    unfold planCheckpoint
    split
    · exact ⟨rfl, by simp; omega⟩
    · split
      · exact ⟨rfl, by simp; omega⟩
      · exact ⟨funext fun j => checkpointStore_storeOf _ _ j, by simp; omega⟩

omit [Inhabited R] in
/-- The pass plans at most one checkpoint for each of its slots. -/
theorem planCheckpoints_storeOf (c : Recurrent R) (batch : List Token) :
    (c.planCheckpoints batch).storeOf = c.storeOf ∧
      (c.planCheckpoints batch).curCheckpointSlots = ∅ ∧
      (c.planCheckpoints batch).curCheckpointPos.length ≤ c.curSlots.length := by
  unfold planCheckpoints
  split
  · exact ⟨rfl, rfl, Nat.zero_le _⟩
  · obtain ⟨hstore, hlen⟩ := planCheckpoint_storeOf batch (c.curSeqs.zip c.curSlots) (c, [])
    refine ⟨hstore, rfl, ?_⟩
    rw [List.length_zip, List.length_nil] at hlen
    change ((c.curSeqs.zip c.curSlots).foldl (planCheckpoint batch) (c, [])).2.length ≤ _
    omega

end Cache

/-! ## The invariant -/

/-- Free slots have no live checkpoints, and those of a sequence's slot come
from its origin. -/
structure Traced (layers : List StateBuffer) (origin : Int → List Tag)
    (c : Recurrent (Option Tag)) : Prop where
  clean : ∀ slot ∈ c.freeSlots, Dead (c.storeOf slot)
  source : ∀ s slot, c.slotForSeq.lookup s = some slot →
    StoreFrom layers (origin s) (c.storeOf slot)
  saved : ∀ slot, SavedIn layers (c.storeOf slot)

/-- The stores fade, sequences keep their slot or take a free one, and slots
become free without live checkpoints. -/
theorem Traced.follow {layers : List StateBuffer} {origin origin' : Int → List Tag}
    {c c' : Recurrent (Option Tag)} (h : Traced layers origin c)
    (hstore : ∀ j, Fades (c.storeOf j) (c'.storeOf j))
    (hmap : ∀ s slot, c'.slotForSeq.lookup s = some slot →
      (c.slotForSeq.lookup s = some slot ∧ ∀ tag ∈ origin s, tag ∈ origin' s) ∨
        slot ∈ c.freeSlots)
    (hfree : ∀ slot ∈ c'.freeSlots, slot ∈ c.freeSlots ∨ Dead (c'.storeOf slot)) :
    Traced layers origin' c' where
  clean := by
    intro slot hslot
    rcases hfree slot hslot with hold | hdead
    · exact (hstore slot).dead (h.clean slot hold)
    · exact hdead
  source := by
    intro s slot hslot
    rcases hmap s slot hslot with ⟨hold, hsub⟩ | hnew
    · exact (hstore slot).storeFrom ((h.source s slot hold).mono hsub)
    · exact ((hstore slot).dead (h.clean slot hnew)).storeFrom _ _
  saved := fun slot => (hstore slot).savedIn (h.saved slot)

theorem Traced.of_eq {layers : List StateBuffer} {origin : Int → List Tag}
    {c c' : Recurrent (Option Tag)} (h : Traced layers origin c)
    (hmap : c'.slotForSeq = c.slotForSeq) (hfree : c'.freeSlots = c.freeSlots)
    (hstore : c'.storeOf = c.storeOf) : Traced layers origin c' :=
  ⟨by rw [hfree, hstore]; exact h.clean, by rw [hmap, hstore]; exact h.source,
    by rw [hstore]; exact h.saved⟩

theorem Traced.of_fades {layers : List StateBuffer} {origin : Int → List Tag}
    {c c' : Recurrent (Option Tag)} (h : Traced layers origin c)
    (hmap : c'.slotForSeq = c.slotForSeq) (hfree : c'.freeSlots = c.freeSlots)
    (hstore : ∀ j, Fades (c.storeOf j) (c'.storeOf j)) : Traced layers origin c' :=
  h.follow hstore (by rw [hmap]; exact fun _ _ hs => .inl ⟨hs, fun _ ht => ht⟩)
    (by rw [hfree]; exact fun _ hs => .inl hs)

/-! ## `StartForward` -/

theorem finalizeStartForward_traced {layers : List StateBuffer} {origin : Int → List Tag}
    {c : Recurrent (Option Tag)} (h : Traced layers origin c) (batch : List Token)
    (reserve : Bool) : Traced layers origin (c.finalizeStartForward batch reserve) :=
  have hcore := finalizeStartForward_core c batch reserve
  h.of_eq (congrArg (fun k => k.pool.slotOf) hcore) (congrArg (fun k => k.pool.free) hcore)
    (planCheckpoints_storeOf _ batch).1

theorem takeSlot_traced {layers : List StateBuffer} {origin : Int → List Tag}
    {c c' : Recurrent (Option Tag)} (h : Traced layers origin c) {s : Int} {slot : Nat}
    (htake : c.takeSlot s = some (slot, c')) : Traced layers origin c' := by
  unfold takeSlot allocSlot at htake
  cases hfree : c.freeSlots with
  | nil => simp [hfree] at htake
  | cons new rest =>
    simp only [hfree, Option.some.injEq, Prod.mk.injEq] at htake
    obtain ⟨rfl, rfl⟩ := htake
    refine h.follow (fun _ => Fades.refl _) (fun t j ht => ?_) (fun j hj => .inl ?_)
    · rw [GoMap.lookup_insert_ite] at ht
      split at ht
      · injection ht with ht
        right
        rw [hfree, ht]
        exact List.mem_cons_self
      · exact .inl ⟨ht, fun _ htag => htag⟩
    · rw [hfree]
      exact List.mem_cons_of_mem _ hj

theorem ensureSlots_traced {layers : List StateBuffer} {origin : Int → List Tag}
    (seqs : List Int) : ∀ (c : Recurrent (Option Tag)) (newSlots : List Nat),
      Traced layers origin c → Traced layers origin (ensureSlots c seqs newSlots).1 := by
  induction seqs with
  | nil => exact fun c newSlots h => h
  | cons seq rest ih =>
    intro c newSlots h
    unfold ensureSlots
    split
    · exact ih _ _ (h.of_eq rfl rfl rfl)
    · split
      · exact h
      · rename_i slot c' htake
        exact ih _ _ ((takeSlot_traced h htake).of_eq rfl rfl rfl)

theorem startForwardSingleSeq_traced {layers : List StateBuffer} {origin : Int → List Tag}
    {c : Recurrent (Option Tag)} (h : Traced layers origin c) (seq : Int) (batch : List Token)
    (reserve : Bool) : Traced layers origin (c.startForwardSingleSeq seq batch reserve).1 := by
  unfold startForwardSingleSeq
  simp only
  split
  · refine finalizeStartForward_traced (h.of_eq ?_ ?_ ?_) batch true <;> rfl
  · split
    · refine finalizeStartForward_traced (h.of_eq ?_ ?_ ?_) batch false <;> rfl
    · split
      · exact h.of_eq rfl rfl rfl
      · rename_i slot c' htake
        have hopen : Traced layers origin
            { c with curSeqs := [seq], curSeqTokens := batch.length } := h.of_eq rfl rfl rfl
        refine finalizeStartForward_traced ((takeSlot_traced hopen htake).of_eq ?_ ?_ ?_) batch
          false <;> rfl

theorem startForwardSlots_traced {layers : List StateBuffer} {origin : Int → List Tag}
    {c : Recurrent (Option Tag)} (h : Traced layers origin c) (batch : List Token)
    (reserve : Bool) : Traced layers origin (c.startForwardSlots batch reserve).1 := by
  cases batch with
  | nil => exact h.of_eq rfl rfl rfl
  | cons first rest =>
    simp only [startForwardSlots]
    split
    · exact startForwardSingleSeq_traced h _ _ _
    · split
      · exact h.of_eq rfl rfl rfl
      · split
        · refine finalizeStartForward_traced (h.of_eq ?_ ?_ ?_) _ true <;> rfl
        · have hslots := ensureSlots_traced (batchSeqs (first :: rest))
            { c with
              curSeqs := batchSeqs (first :: rest)
              curSeqTokens := (first :: rest).length / (batchSeqs (first :: rest)).length
              curSlots := [] } [] (h.of_eq rfl rfl rfl)
          split
          · exact hslots
          · refine finalizeStartForward_traced (hslots.of_eq ?_ ?_ ?_) _ false <;> rfl

theorem startForward_traced {layers : List StateBuffer} {origin : Int → List Tag}
    {c : Recurrent (Option Tag)} (h : Traced layers origin c) (batch : List Token)
    (order : List Int) (reserve : Bool) :
    Traced layers origin (c.startForward batch order reserve).1 := by
  simp only [startForward]
  split
  · exact h.of_eq rfl rfl rfl
  · refine startForwardSlots_traced (h.of_eq ?_ ?_ ?_) batch reserve <;> rfl

/-! ## Copy-on-write, `CopyPrefix` and `Remove` -/

/-- What `detach` does to the slots and the checkpoints. -/
theorem detach_stores {R : Type*} [Inhabited R] {c c' : Recurrent R} {s : Int} {slot new : Nat}
    (hdetach : c.detach s slot = some (new, c')) :
    c.freeSlots = new :: c'.freeSlots ∧ c'.slotForSeq = c.slotForSeq.insert s new ∧
      c'.plan = c.plan ∧
      (∀ j, j ≠ new → c'.storeOf j = c.storeOf j) ∧
      ∀ e ∈ (c'.storeOf new).entries, e ∈ (c.storeOf new).entries ∨
        ∃ e₁ ∈ (c.storeOf slot).entries, ∃ e₂ ∈ (c.storeOf new).entries, e = copyEntry e₁ e₂ := by
  unfold detach allocSlot at hdetach
  cases hfree : c.freeSlots with
  | nil => simp [hfree] at hdetach
  | cons new' rest =>
    simp only [hfree, Option.some.injEq, Prod.mk.injEq] at hdetach
    obtain ⟨rfl, rfl⟩ := hdetach
    have hcore := copyCheckpoints_core (({ c with
      freeSlots := rest
      refCount := (c.refCount.set slot (c.refs slot - 1)).set new' 1
      slotForSeq := c.slotForSeq.insert s new' } : Recurrent R).copyRecurrentState slot new') slot
        new'
    obtain ⟨hothers, hnew⟩ := copyCheckpoints_storeOf (({ c with
      freeSlots := rest
      refCount := (c.refCount.set slot (c.refs slot - 1)).set new' 1
      slotForSeq := c.slotForSeq.insert s new' } : Recurrent R).copyRecurrentState slot new') slot
        new'
    exact ⟨congrArg (List.cons new') (congrArg (fun k => k.pool.free) hcore).symm,
      congrArg (fun k => k.pool.slotOf) hcore, copyCheckpoints_plan _ _ _, hothers, hnew⟩

/-- A copy of the checkpoints comes from the same origin. -/
theorem detach_traced {ids : Finset Int} {layers : List StateBuffer} {origin : Int → List Tag}
    {c c' : Recurrent (Option Tag)} (hacc : c.Accounted ids) (h : Traced layers origin c) {s : Int}
    {slot new : Nat} (hslot : c.slotForSeq.lookup s = some slot)
    (hdetach : c.detach s slot = some (new, c')) : Traced layers origin c' := by
  obtain ⟨hfree, hmap, -, hothers, hnew⟩ := detach_stores hdetach
  have hmem : new ∈ c.freeSlots := by
    rw [hfree]
    exact List.mem_cons_self
  have hnodup : (new :: c'.freeSlots).Nodup := by
    rw [← hfree]
    exact hacc.balanced.nodup
  refine ⟨fun j hj => ?_, fun t j ht => ?_, fun j => ?_⟩
  · have hne : j ≠ new := by
      rintro rfl
      exact (List.nodup_cons.mp hnodup).1 hj
    rw [hothers j hne]
    exact h.clean j (by rw [hfree]; exact List.mem_cons_of_mem _ hj)
  · rw [hmap, GoMap.lookup_insert_ite] at ht
    split at ht
    · injection ht with ht
      rename_i heq
      subst ht heq
      intro e he hlive
      rcases hnew e he with hold | ⟨e₁, he₁, e₂, -, rfl⟩
      · exact absurd (h.clean new hmem e hold) (not_lt.mpr hlive)
      · obtain ⟨tag, htag, hrows⟩ := h.source t slot hslot e₁ he₁ hlive
        refine ⟨tag, htag, fun b hb => ?_⟩
        rw [copyEntry_lookup, hrows b hb]
        rfl
    · have hne : j ≠ new := by
        rintro rfl
        exact hacc.not_owned hmem ht
      rw [hothers j hne]
      exact h.source t j ht
  · by_cases hj : j = new
    · subst hj
      intro e he b row hrow
      rcases hnew e he with hold | ⟨e₁, he₁, e₂, he₂, rfl⟩
      · exact h.saved j e hold b row hrow
      · rw [copyEntry_lookup, Option.or_eq_some_iff] at hrow
        rcases hrow with hrow | ⟨-, hrow⟩
        · exact h.saved slot e₁ he₁ b row hrow
        · exact h.saved j e₂ he₂ b row hrow
    · rw [hothers j hj]
      exact h.saved j

theorem ensureWritableFrom_traced {ids : Finset Int} {layers : List StateBuffer}
    {origin : Int → List Tag} (rest : List Int) :
    ∀ (c : Recurrent (Option Tag)) (i : Nat), c.Accounted ids → Traced layers origin c →
      (c.ensureWritableFrom i rest).1.Accounted ids ∧
        Traced layers origin (c.ensureWritableFrom i rest).1 ∧
        (c.ensureWritableFrom i rest).1.plan = c.plan ∧
        (c.ensureWritableFrom i rest).1.reserveCheckpoints = c.reserveCheckpoints := by
  induction rest with
  | nil => exact fun c i hacc h => ⟨hacc.of_core_eq' rfl rfl rfl rfl, h.of_eq rfl rfl rfl, rfl, rfl⟩
  | cons seq rest ih =>
    intro c i hacc h
    cases hslot : c.slotForSeq.lookup seq with
    | none =>
      simp only [ensureWritableFrom, hslot]
      exact ih c (i + 1) hacc h
    | some slot =>
      by_cases hle : c.refs slot ≤ 1
      · simp only [ensureWritableFrom, hslot, hle, decide_true, Bool.or_true, if_true]
        exact ih c (i + 1) hacc h
      · obtain ⟨new, c', hdetach, -, hacc', -, -, -, hcore⟩ := detach_spec hacc hslot (by omega)
        obtain ⟨-, -, hplan, -⟩ := detach_stores hdetach
        have h' := detach_traced hacc h hslot hdetach
        have hres : c'.reserveCheckpoints = c.reserveCheckpoints :=
          congrArg Core.reserveCheckpoints hcore
        simp only [ensureWritableFrom, hslot, hacc.valid hslot, hle, hdetach, decide_false,
          Bool.not_true, Bool.or_false, Bool.false_eq_true, if_false]
        rw [← hplan, ← hres]
        exact ih { c' with curSlots := c'.curSlots.set i new } (i + 1)
          (hacc'.of_core_eq' rfl rfl rfl rfl) (h'.of_eq rfl rfl rfl)

theorem ensureWritableOnce_traced {ids : Finset Int} {layers : List StateBuffer}
    {origin : Int → List Tag} {c : Recurrent (Option Tag)} (hacc : c.Accounted ids)
    (h : Traced layers origin c) :
    c.ensureWritableOnce.Accounted ids ∧ Traced layers origin c.ensureWritableOnce ∧
      c.ensureWritableOnce.plan = c.plan ∧
      c.ensureWritableOnce.reserveCheckpoints = c.reserveCheckpoints := by
  obtain ⟨hacc', h', hplan, hres⟩ := ensureWritableFrom_traced c.curSeqs c 0 hacc h
  unfold ensureWritableOnce
  split
  · exact ⟨hacc, h, rfl, rfl⟩
  · simp only
    split
    · unfold ensureWritableAll
      split <;> exact ⟨hacc'.of_core_eq' rfl rfl rfl rfl, h'.of_eq rfl rfl rfl, hplan, hres⟩
    · exact ⟨hacc.of_core_eq' rfl rfl rfl rfl, h.of_eq rfl rfl rfl, rfl, rfl⟩

/-- `CopyPrefix` of a destination on a slot of its own frees a slot, which then
must have no live checkpoints. -/
def FreesClean {R : Type*} [Inhabited R] (c : Recurrent R) (dstSeq : Int) : Prop :=
  ∀ slot ∈ c.slotForSeq.lookup dstSeq, c.refs slot ≤ 1 → Dead (c.storeOf slot)

theorem dropSlot_traced {layers : List StateBuffer} {origin origin' : Int → List Tag}
    {c : Recurrent (Option Tag)} (h : Traced layers origin c) {dstSeq : Int}
    (hclean : c.FreesClean dstSeq) (horigin : ∀ s, s ≠ dstSeq → origin' s = origin s)
    (hbound : ∀ s slot, c.slotForSeq.lookup s = some slot → c.validSlot slot = true) :
    Traced layers origin' (c.dropSlot dstSeq) := by
  have hkeep : ∀ s slot, s ≠ dstSeq → c.slotForSeq.lookup s = some slot →
      (c.slotForSeq.lookup s = some slot ∧ ∀ tag ∈ origin s, tag ∈ origin' s) ∨
        slot ∈ c.freeSlots :=
    fun s slot hs hslot => .inl ⟨hslot, by rw [horigin s hs]; exact fun _ ht => ht⟩
  unfold dropSlot
  split
  · rename_i hnone
    refine h.follow (fun _ => Fades.refl _) (fun s slot hslot => hkeep s slot ?_ hslot)
      (fun _ hj => .inl hj)
    rintro rfl
    rw [hnone] at hslot
    cases hslot
  · rename_i dstSlot hdst
    have hmap : ∀ s slot, (c.slotForSeq.erase dstSeq).lookup s = some slot →
        (c.slotForSeq.lookup s = some slot ∧ ∀ tag ∈ origin s, tag ∈ origin' s) ∨
          slot ∈ c.freeSlots := by
      intro s slot hslot
      rw [GoMap.lookup_erase_ite] at hslot
      split at hslot
      · cases hslot
      · rename_i hne
        exact hkeep s slot hne hslot
    simp only [hbound dstSeq dstSlot hdst, if_true]
    split
    · rename_i hz
      unfold freeSlot
      split
      · refine h.follow (fun _ => Fades.refl _) hmap fun j hj => ?_
        rcases List.mem_cons.mp hj with rfl | hj
        · exact .inr (hclean j hdst (by omega))
        · exact .inl hj
      · exact h.follow (fun _ => Fades.refl _) hmap fun _ hj => .inl hj
    · exact h.follow (fun _ => Fades.refl _) hmap fun _ hj => .inl hj

/-- The destination takes over the source's slot and with it its origin. -/
theorem copyPrefix_traced {ids : Finset Int} {layers : List StateBuffer}
    {origin : Int → List Tag} {c : Recurrent (Option Tag)} (hacc : c.Accounted ids)
    (h : Traced layers origin c) {srcSeq dstSeq : Int} (hne : srcSeq ≠ dstSeq)
    (hclean : c.FreesClean dstSeq) (len : Int) :
    Traced layers (Function.update origin dstSeq (origin srcSeq))
      (c.copyPrefix srcSeq dstSeq len) := by
  have hdrop : Traced layers (Function.update origin dstSeq (origin srcSeq))
      (({ c with kv := c.kv.copyPrefix srcSeq dstSeq len } : Recurrent (Option Tag)).dropSlot
        dstSeq) := by
    have hkv : Traced layers origin
        ({ c with kv := c.kv.copyPrefix srcSeq dstSeq len } : Recurrent (Option Tag)) :=
      h.of_eq rfl rfl rfl
    exact dropSlot_traced hkv hclean (fun s hs => Function.update_of_ne hs _ _)
      fun s slot hslot => hacc.valid hslot
  unfold copyPrefix
  simp only
  split
  · exact hdrop
  · rename_i srcSlot hsrc
    split
    · refine ⟨hdrop.clean, fun t j ht => ?_, hdrop.saved⟩
      rw [GoMap.lookup_insert_ite] at ht
      split at ht
      · injection ht with ht
        rename_i heq
        subst ht heq
        have hfrom := hdrop.source srcSeq _ hsrc
        rw [Function.update_of_ne hne] at hfrom
        rw [Function.update_self]
        exact hfrom
      · exact hdrop.source t j ht
    · exact hdrop

theorem shiftCheckpoints_traced {layers : List StateBuffer} {origin : Int → List Tag}
    {c : Recurrent (Option Tag)} (h : Traced layers origin c) (slot : Nat) (b e : Int) :
    Traced layers origin (c.shiftCheckpoints slot b e) :=
  h.of_fades (updateStore_slotForSeq _ _ _) (updateStore_freeSlots _ _ _)
    (updateStore_fades c slot fun store => shiftRange_fades store b e)

theorem removeMiddle_traced {ids : Finset Int} {layers : List StateBuffer}
    {origin : Int → List Tag} {c : Recurrent (Option Tag)} (hacc : c.Accounted ids)
    (h : Traced layers origin c) (seq b e : Int) (backend : Option KvError) :
    Traced layers origin (c.removeMiddle seq b e backend).1 := by
  have hkv : Traced layers origin
      ({ c with
        kv := (c.kv.remove seq b e backend).1
        pendingRestore := c.pendingRestore.erase seq } : Recurrent (Option Tag)) :=
    h.of_eq rfl rfl rfl
  simp only [removeMiddle]
  split
  · exact h.of_eq rfl rfl rfl
  · split
    · exact hkv
    · rename_i slot hslot
      split
      · exact hkv
      · split
        · split
          · exact hkv
          · rename_i new c' hdetach
            have hacc' : ({ c with
                kv := (c.kv.remove seq b e backend).1
                pendingRestore := c.pendingRestore.erase seq } :
                  Recurrent (Option Tag)).Accounted ids :=
              hacc.of_core_eq' rfl rfl rfl rfl
            exact shiftCheckpoints_traced (detach_traced hacc' hkv hslot hdetach) new b e
        · exact shiftCheckpoints_traced hkv slot b e

theorem detachRestore_traced {ids : Finset Int} {layers : List StateBuffer}
    {origin : Int → List Tag} {c : Recurrent (Option Tag)} (hacc : c.Accounted ids)
    (h : Traced layers origin c) (seq : Int) (restore : CheckpointRestore) :
    Traced layers origin (c.detachRestore seq restore).1 := by
  unfold detachRestore
  split
  · exact h
  · rename_i slot hslot
    split
    · split
      · exact h
      · rename_i new c' hdetach
        exact (detach_traced hacc h hslot hdetach).of_eq rfl rfl rfl
    · exact h

theorem ensureBuffer_traced {layers : List StateBuffer} {origin : Int → List Tag}
    {c : Recurrent (Option Tag)} (h : Traced layers origin c) (b : StateBuffer) :
    Traced layers origin (c.ensureBuffer b) := by
  unfold ensureBuffer
  split
  · exact h
  · exact h.of_eq rfl rfl rfl

/-- Restoring writes rows and drops the checkpoints behind the restored one. -/
theorem applyCheckpointRestore_traced {layers : List StateBuffer} {origin : Int → List Tag}
    {c : Recurrent (Option Tag)} (h : Traced layers origin c) (restore : CheckpointRestore) :
    Traced layers origin (c.applyCheckpointRestore restore).1 := by
  have hfold : ∀ (es : List ((_ : StateBuffer) × Option Tag)) (c : Recurrent (Option Tag)),
      Traced layers origin c → Traced layers origin
        (es.foldl (fun c e => (c.ensureBuffer e.1).setRow e.1 restore.slot e.2) c) := by
    intro es
    induction es with
    | nil => exact fun _ h => h
    | cons e rest ih =>
      intro c h
      exact ih _ ((ensureBuffer_traced h e.1).of_eq rfl rfl rfl)
  unfold applyCheckpointRestore
  split
  · exact h
  · exact (hfold _ c h).of_fades (updateStore_slotForSeq _ _ _) (updateStore_freeSlots _ _ _)
      (updateStore_fades _ _ fun store => pruneAfter_fades store restore.pos)

theorem removeTail_traced {ids : Finset Int} {layers : List StateBuffer}
    {origin : Int → List Tag} {c : Recurrent (Option Tag)} (hacc : c.Accounted ids)
    (h : Traced layers origin c) (seq b e : Int) (backend : Option KvError) :
    Traced layers origin (c.removeTail seq b e backend).1 := by
  unfold removeTail
  split
  · exact h
  · rename_i restore _
    have hdetached := detachRestore_traced hacc h seq restore
    split
    · exact h
    · split
      · exact h
      · simp only
        split
        · exact hdetached
        · split
          · exact hdetached.of_eq rfl rfl rfl
          · refine applyCheckpointRestore_traced (hdetached.of_eq ?_ ?_ ?_) _ <;> rfl

/-- A slot that `Remove` gives up has its checkpoints cleared. -/
theorem releaseSlot_traced {layers : List StateBuffer} {origin origin' : Int → List Tag}
    {c : Recurrent (Option Tag)} (h : Traced layers origin c) {seq : Int}
    (horigin : ∀ s, s ≠ seq → origin' s = origin s) (slot : Nat) :
    Traced layers origin' (c.releaseSlot seq slot) := by
  have hmap : ∀ s j, (c.slotForSeq.erase seq).lookup s = some j →
      (c.slotForSeq.lookup s = some j ∧ ∀ tag ∈ origin s, tag ∈ origin' s) ∨ j ∈ c.freeSlots := by
    intro s j hj
    rw [GoMap.lookup_erase_ite] at hj
    split at hj
    · cases hj
    · rename_i hne
      exact .inl ⟨hj, by rw [horigin s hne]; exact fun _ ht => ht⟩
  unfold releaseSlot
  simp only
  split
  · let dropped : Recurrent (Option Tag) :=
      { c with refCount := c.refCount.set slot (c.refs slot - 1) }
    have hfade : ∀ j, Fades (c.storeOf j) ((dropped.clearCheckpoints slot).storeOf j) :=
      updateStore_fades dropped slot reset_fades
    have hdead := clearCheckpoints_dead dropped slot
    have hslots : (dropped.clearCheckpoints slot).slotForSeq = c.slotForSeq :=
      updateStore_slotForSeq _ _ _
    have hfree : (dropped.clearCheckpoints slot).freeSlots = c.freeSlots :=
      updateStore_freeSlots _ _ _
    unfold freeSlot
    split
    · refine h.follow hfade (fun s j hj => hmap s j (hslots ▸ hj)) fun j hj => ?_
      rcases List.mem_cons.mp hj with rfl | hj
      · exact .inr hdead
      · exact .inl (hfree ▸ hj)
    · exact h.follow hfade (fun s j hj => hmap s j (hslots ▸ hj)) fun j hj => .inl (hfree ▸ hj)
  · exact h.follow (fun _ => Fades.refl _) hmap fun _ hj => .inl hj

theorem removeAll_traced {ids : Finset Int} {layers : List StateBuffer} {origin : Int → List Tag}
    {c : Recurrent (Option Tag)} (hacc : c.Accounted ids) (h : Traced layers origin c)
    (seq b e : Int) (backend : Option KvError) :
    Traced layers
      (if (c.removeAll seq b e backend).2 = none then Function.update origin seq [] else origin)
      (c.removeAll seq b e backend).1 := by
  simp only [removeAll]
  split
  · exact h.of_eq rfl rfl rfl
  · split
    · rename_i hnone
      refine h.follow (fun _ => Fades.refl _) (fun s slot hslot => .inl ⟨hslot, ?_⟩)
        fun _ hj => .inl hj
      have hne : s ≠ seq := by
        rintro rfl
        rw [hnone] at hslot
        cases hslot
      simp [Function.update_of_ne hne]
    · rename_i slot hslot
      have hvalid : c.validSlot slot = true := hacc.valid hslot
      have hvalid' : ({ c with
          kv := (c.kv.remove seq b e backend).1
          pendingRestore := c.pendingRestore.erase seq } : Recurrent (Option Tag)).validSlot slot =
          true := hvalid
      simp only [hvalid', Bool.not_true, Bool.false_eq_true, if_false, if_true]
      have hkv : Traced layers origin
          ({ c with
            kv := (c.kv.remove seq b e backend).1
            pendingRestore := c.pendingRestore.erase seq } : Recurrent (Option Tag)) :=
        h.of_eq rfl rfl rfl
      exact releaseSlot_traced hkv (fun s hs => Function.update_of_ne hs _ _) slot

end Recurrent

end Prismalama.Kvcache
