import Prismalama.Kvcache.Recurrent
import Prismalama.Lib.SlotPool
import Prismalama.Lib.TSys

/-!
# Slots of the recurrent cache

The slot bookkeeping of `Recurrent` is a `SlotPool`, and each function that
touches it is one of the pool's moves. `stateOf` is what a sequence reads of a
buffer: the row of its slot. Each operation gets a lemma that says which rows
it may change; because a slot that is written has one owner, these are rows no
other sequence reads.
-/

namespace Prismalama.Kvcache

open Prismalama.Lib

namespace Recurrent

variable {R : Type*} [Inhabited R]

/-! ## Views -/

/-- The slot bookkeeping. -/
def pool (c : Recurrent R) : SlotPool Int := ⟨c.slotForSeq, c.refCount, c.freeSlots⟩

/-- What a sequence reads of a buffer, if it has a slot. -/
def stateOf (c : Recurrent R) (seq : Int) (b : StateBuffer) : Option R :=
  (c.slotForSeq.lookup seq).map (c.rows b)

/-- The cache without its causal part and its checkpoints. -/
structure Core (R : Type*) where
  pool : SlotPool Int
  maxSequences : Nat
  buffers : List StateBuffer
  rows : StateBuffer → Nat → R
  curSeqs : List Int
  curSlots : List Nat
  curSlotsInput : List Nat
  reserveCheckpoints : Bool
  writableEnsured : Bool
  writableError : Option KvError

def core (c : Recurrent R) : Core R :=
  ⟨c.pool, c.maxSequences, c.buffers, c.rows, c.curSeqs, c.curSlots, c.curSlotsInput,
    c.reserveCheckpoints, c.writableEnsured, c.writableError⟩

/-! ## Checkpoint functions leave the core alone -/

omit [Inhabited R] in
@[simp] theorem setStore_core (c : Recurrent R) (slot : Nat) (store : SlotCheckpointStore R) :
    (c.setStore slot store).core = c.core := rfl

omit [Inhabited R] in
@[simp] theorem checkpointStore_core (c : Recurrent R) (slot : Nat) :
    (c.checkpointStore slot).core = c.core := rfl

omit [Inhabited R] in
@[simp] theorem updateStore_core (c : Recurrent R) (slot : Nat)
    (f : SlotCheckpointStore R → SlotCheckpointStore R) : (c.updateStore slot f).core = c.core := by
  unfold updateStore
  split <;> rfl

omit [Inhabited R] in
@[simp] theorem copyCheckpoints_core (c : Recurrent R) (srcSlot dstSlot : Nat) :
    (c.copyCheckpoints srcSlot dstSlot).core = c.core := by
  unfold copyCheckpoints
  split
  · rfl
  · split
    · rfl
    · split <;> rfl

omit [Inhabited R] in
theorem planCheckpoint_foldl_core (batch : List Token) (xs : List (Int × Nat))
    (out : Recurrent R × List Int) :
    (xs.foldl (planCheckpoint batch) out).1.core = out.1.core := by
  induction xs generalizing out with
  | nil => rfl
  | cons x rest ih =>
    rw [List.foldl_cons, ih]
    unfold planCheckpoint
    split
    · rfl
    · split <;> rfl

omit [Inhabited R] in
@[simp] theorem planCheckpoints_core (c : Recurrent R) (batch : List Token) :
    (c.planCheckpoints batch).core = c.core := by
  unfold planCheckpoints
  split
  · rfl
  · exact planCheckpoint_foldl_core batch _ (c, [])

omit [Inhabited R] in
theorem checkpointIndexForSlot_core (c : Recurrent R) (slot : Nat) (pos : Int) :
    (c.checkpointIndexForSlot slot pos).1.core = c.core := by
  unfold checkpointIndexForSlot
  split
  · rfl
  · split
    · rfl
    · simp only
      split <;> rfl

theorem captureRow_core (b : StateBuffer) (src : List R) (c : Recurrent R) (x : Int × Nat) :
    (captureRow b src c x).core = c.core := by
  unfold captureRow
  split
  · rfl
  · simp only
    split
    · exact checkpointIndexForSlot_core _ _ _
    · unfold saveRow
      rw [updateStore_core]
      exact checkpointIndexForSlot_core _ _ _

omit [Inhabited R] in
theorem foldl_core {α : Type*} {f : Recurrent R → α → Recurrent R}
    (hf : ∀ c x, (f c x).core = c.core) (xs : List α) (c : Recurrent R) :
    (xs.foldl f c).core = c.core := by
  induction xs generalizing c with
  | nil => rfl
  | cons x rest ih => rw [List.foldl_cons, ih, hf]

theorem reserveCheckpoint_core (c : Recurrent R) (b : StateBuffer) :
    (c.reserveCheckpoint b).core = c.core := by
  unfold reserveCheckpoint
  split
  · rfl
  · change ((List.range c.maxSequences).foldl
      (fun c slot => c.setStore slot (reserveStore b (c.storeOf slot))) c).core = c.core
    exact foldl_core (fun _ _ => setStore_core _ _ _) _ c

@[simp] theorem captureCheckpoint_core (c : Recurrent R) (b : StateBuffer) (src : List R) :
    (c.captureCheckpoint b src).core = c.core := by
  unfold captureCheckpoint
  split
  · rfl
  · split
    · exact reserveCheckpoint_core c b
    · exact foldl_core (captureRow_core b src) _ c

/-! ## The bookkeeping is sound -/

/-- Counts, stack and assignment agree, over the sequences `ids`; a buffer not
allocated reads as zeros. -/
structure Accounted (ids : Finset Int) (c : Recurrent R) : Prop where
  balanced : c.pool.Balanced
  slots : c.refCount.length = c.maxSequences
  card : ids.card ≤ c.maxSequences
  ids : ∀ s slot, c.slotForSeq.lookup s = some slot → s ∈ ids
  zero : ∀ b, b ∉ c.buffers → ∀ j, c.rows b j = default

theorem Accounted.of_core {ids : Finset Int} {c c' : Recurrent R} (h : c.Accounted ids)
    (hpool : c'.pool = c.pool) (hmax : c'.maxSequences = c.maxSequences)
    (hzero : ∀ b, b ∉ c'.buffers → ∀ j, c'.rows b j = default) : c'.Accounted ids where
  balanced := by rw [hpool]; exact h.balanced
  slots := by
    have hrefs : c'.refCount = c.refCount := congrArg SlotPool.refs hpool
    rw [hrefs, hmax]
    exact h.slots
  card := by rw [hmax]; exact h.card
  ids := by
    have hmap : c'.slotForSeq = c.slotForSeq := congrArg SlotPool.slotOf hpool
    rw [hmap]
    exact h.ids
  zero := hzero

/-- `Accounted` looks at four parts of the core. -/
theorem Accounted.of_core_eq' {ids : Finset Int} {c c' : Recurrent R} (h : c.Accounted ids)
    (hpool : c'.pool = c.pool) (hmax : c'.maxSequences = c.maxSequences)
    (hbuf : c'.buffers = c.buffers) (hrows : c'.rows = c.rows) : c'.Accounted ids :=
  h.of_core hpool hmax (by rw [hbuf, hrows]; exact h.zero)

theorem Accounted.of_core_eq {ids : Finset Int} {c c' : Recurrent R} (h : c.Accounted ids)
    (hcore : c'.core = c.core) : c'.Accounted ids :=
  h.of_core_eq' (congrArg Core.pool hcore) (congrArg Core.maxSequences hcore)
    (congrArg Core.buffers hcore) (congrArg Core.rows hcore)

omit [Inhabited R] in
theorem stateOf_of_core {c c' : Recurrent R} (hcore : c'.core = c.core) :
    c'.stateOf = c.stateOf := by
  have hmap : c'.slotForSeq = c.slotForSeq := congrArg (fun k => k.pool.slotOf) hcore
  have hrows : c'.rows = c.rows := congrArg Core.rows hcore
  unfold stateOf
  rw [hmap, hrows]

/-- A slot on the free stack is nobody's. -/
theorem Accounted.not_owned {ids : Finset Int} {c : Recurrent R} (h : c.Accounted ids) {slot : Nat}
    (hfree : slot ∈ c.freeSlots) {s : Int} : c.slotForSeq.lookup s ≠ some slot :=
  h.balanced.not_owned (p := c.pool) hfree s

theorem Accounted.valid {ids : Finset Int} {c : Recurrent R} (h : c.Accounted ids) {s : Int}
    {slot : Nat} (hs : c.slotForSeq.lookup s = some slot) : c.validSlot slot = true := by
  have hlt : slot < c.refCount.length := h.balanced.slot_lt (p := c.pool) s slot hs
  simpa [validSlot] using hlt

theorem Accounted.refs_eq {ids : Finset Int} {c : Recurrent R} (h : c.Accounted ids) {slot : Nat}
    (hlt : slot < c.maxSequences) : c.refs slot = (c.pool.owners slot).card :=
  h.balanced.getD_eq (by rw [← h.slots] at hlt; exact hlt)

/-- The sequences that share a slot with `s` are `s` alone. -/
def Private (c : Recurrent R) (s : Int) : Prop :=
  ∀ t slot, c.slotForSeq.lookup s = some slot → c.slotForSeq.lookup t = some slot → t = s

theorem Accounted.private_iff {ids : Finset Int} {c : Recurrent R} (h : c.Accounted ids) {s : Int}
    {slot : Nat} (hs : c.slotForSeq.lookup s = some slot) : c.Private s ↔ c.refs slot ≤ 1 := by
  have hlt : slot < c.maxSequences := by
    rw [← h.slots]
    exact h.balanced.slot_lt (p := c.pool) s slot hs
  rw [h.refs_eq hlt, Finset.card_le_one]
  simp only [SlotPool.mem_owners]
  constructor
  · intro hpriv a ha b hb
    rw [hpriv a slot hs ha, hpriv b slot hs hb]
  · intro hall t slot' hs' ht
    rw [hs] at hs'
    injection hs' with hs'
    subst hs'
    exact hall t ht s hs

/-! ## Taking and leaving slots -/

/-- A sequence without a slot gets one that was free. -/
theorem takeSlot_spec {ids : Finset Int} {c : Recurrent R} (h : c.Accounted ids) {s : Int}
    (hs : s ∈ ids) (hnone : c.slotForSeq.lookup s = none) :
    ∃ slot c', c.takeSlot s = some (slot, c') ∧ slot ∈ c.freeSlots ∧ c'.Accounted ids ∧
      c' = { c with
        slotForSeq := c.slotForSeq.insert s slot
        refCount := c'.refCount
        freeSlots := c'.freeSlots } ∧
      ∀ j ∈ c'.freeSlots, j ∈ c.freeSlots := by
  have hcard : ids.card ≤ c.pool.refs.length := by
    change _ ≤ c.refCount.length
    rw [h.slots]
    exact h.card
  obtain ⟨slot, rest, hfree⟩ := h.balanced.exists_free_of_none hcard h.ids hs hnone
  have hfree' : c.freeSlots = slot :: rest := hfree
  let c' : Recurrent R :=
    { c with
      slotForSeq := c.slotForSeq.insert s slot
      refCount := c.refCount.set slot 1
      freeSlots := rest }
  refine ⟨slot, c', by simp [takeSlot, allocSlot, hfree', c'], by simp [hfree'], ?_, rfl, ?_⟩
  · refine ⟨h.balanced.acquire hnone hfree, by simpa [c'] using h.slots, h.card, ?_, h.zero⟩
    intro t j ht
    simp only [c', GoMap.lookup_insert_ite] at ht
    split at ht
    · rename_i heq
      rw [heq]
      exact hs
    · exact h.ids t j ht
  · intro j hj
    rw [hfree']
    exact List.mem_cons_of_mem _ hj

/-- A sequence of a shared slot moves to a copy; nobody reads anything else. -/
theorem detach_spec {ids : Finset Int} {c : Recurrent R} (h : c.Accounted ids) {s : Int}
    {slot : Nat} (hs : c.slotForSeq.lookup s = some slot) (hshared : 1 < c.refs slot) :
    ∃ new c', c.detach s slot = some (new, c') ∧ new ∈ c.freeSlots ∧ c'.Accounted ids ∧
      c'.stateOf = c.stateOf ∧ c'.Private s ∧
      c'.slotForSeq = c.slotForSeq.insert s new ∧
      c'.core = { c.core with pool := c'.pool, rows := c'.rows } := by
  have hlt : slot < c.maxSequences := by
    rw [← h.slots]
    exact h.balanced.slot_lt (p := c.pool) s slot hs
  have hshared' := hshared
  rw [h.refs_eq hlt] at hshared'
  have hcard : ids.card ≤ c.pool.refs.length := by
    change _ ≤ c.refCount.length
    rw [h.slots]
    exact h.card
  obtain ⟨new, rest, hfree⟩ := h.balanced.exists_free_of_shared hcard h.ids hs hshared'
  have hfree' : c.freeSlots = new :: rest := hfree
  have hnew : new ∈ c.freeSlots := by simp [hfree']
  let moved : Recurrent R :=
    { c with
      freeSlots := rest
      refCount := (c.refCount.set slot (c.refs slot - 1)).set new 1
      slotForSeq := c.slotForSeq.insert s new }
  let c' := (moved.copyRecurrentState slot new).copyCheckpoints slot new
  have hcore : c'.core = (moved.copyRecurrentState slot new).core := copyCheckpoints_core _ _ _
  have hmap : c'.slotForSeq = c.slotForSeq.insert s new :=
    congrArg (fun k => k.pool.slotOf) hcore
  have hpool : c'.pool = c.pool.detach s slot new rest := congrArg Core.pool hcore
  have hrows : c'.rows = (moved.copyRecurrentState slot new).rows := congrArg Core.rows hcore
  have hbal : c'.pool.Balanced := by
    rw [hpool]
    exact h.balanced.detach hs hfree hshared'
  refine ⟨new, c', by simp [detach, allocSlot, hfree', c', moved, refs], hnew, ?_, ?_, ?_, hmap, ?_⟩
  · refine ⟨hbal, ?_, ?_, ?_, ?_⟩
    · have hrefs : c'.refCount = (c.refCount.set slot (c.refs slot - 1)).set new 1 :=
        congrArg (fun k => k.pool.refs) hcore
      have hmax : c'.maxSequences = c.maxSequences := congrArg Core.maxSequences hcore
      rw [hrefs, hmax]
      simpa using h.slots
    · have hmax : c'.maxSequences = c.maxSequences := congrArg Core.maxSequences hcore
      rw [hmax]
      exact h.card
    · intro t j ht
      rw [hmap, GoMap.lookup_insert_ite] at ht
      split at ht
      · rename_i heq
        rw [heq]
        exact h.ids s slot hs
      · exact h.ids t j ht
    · have hbuf : c'.buffers = c.buffers := congrArg Core.buffers hcore
      rw [hbuf, hrows]
      intro b hb j
      simp [copyRecurrentState, moved, hb, h.zero b hb]
  · -- the copy reads as the original, the new slot was nobody's
    funext t b
    unfold stateOf
    rw [hmap, hrows, GoMap.lookup_insert_ite]
    by_cases ht : t = s
    · subst ht
      rw [if_pos rfl, hs]
      by_cases hb : b ∈ c.buffers
      · simp [copyRecurrentState, moved, hb]
      · simp [copyRecurrentState, moved, hb, h.zero b hb]
    · rw [if_neg ht]
      cases htl : c.slotForSeq.lookup t with
      | none => rfl
      | some j =>
        have hj : j ≠ new := by
          rintro rfl
          exact h.not_owned hnew htl
        simp [copyRecurrentState, moved, hj]
  · intro t j hsj htj
    rw [hmap, GoMap.lookup_insert_ite] at hsj htj
    rw [if_pos rfl] at hsj
    injection hsj with hsj
    subst hsj
    by_contra ht
    rw [if_neg ht] at htj
    exact h.not_owned hnew htj
  · rw [hcore]
    simp only [core, hrows, hpool]
    rfl

/-! ## `StartForward` -/

/-- A pass whose graph is computed: each sequence has its slot, and once the
pass made them writable, no other sequence has. -/
structure Pass (c : Recurrent R) : Prop where
  nodup : c.curSeqs.Nodup
  slots : c.curSlots.map some = c.curSeqs.map fun s => c.slotForSeq.lookup s
  input : c.curSlotsInput = c.curSlots
  writable : c.writableEnsured = true → ∀ s ∈ c.curSeqs, c.Private s
  noError : c.writableError = none
  computed : c.reserveCheckpoints = false

omit [Inhabited R] in
theorem Pass.of_core {c c' : Recurrent R} (h : c.Pass) (hcore : c'.core = c.core) : c'.Pass := by
  have hseqs : c'.curSeqs = c.curSeqs := congrArg Core.curSeqs hcore
  have hslots : c'.curSlots = c.curSlots := congrArg Core.curSlots hcore
  have hinput : c'.curSlotsInput = c.curSlotsInput := congrArg Core.curSlotsInput hcore
  have hmap : c'.slotForSeq = c.slotForSeq := congrArg (fun k => k.pool.slotOf) hcore
  have hens : c'.writableEnsured = c.writableEnsured := congrArg Core.writableEnsured hcore
  have herr : c'.writableError = c.writableError := congrArg Core.writableError hcore
  have hres : c'.reserveCheckpoints = c.reserveCheckpoints := congrArg Core.reserveCheckpoints hcore
  refine ⟨?_, ?_, ?_, ?_, ?_, ?_⟩
  · rw [hseqs]
    exact h.nodup
  · rw [hslots, hseqs, hmap]
    exact h.slots
  · rw [hinput, hslots]
    exact h.input
  · unfold Private
    rw [hens, hseqs, hmap]
    exact h.writable
  · rw [herr]
    exact h.noError
  · rw [hres]
    exact h.computed

theorem batchSeqs_foldl (batch : List Token) (seqs : List Int) (hnd : seqs.Nodup) :
    (batch.foldl (fun seqs t => if t.seq ∈ seqs then seqs else seqs ++ [t.seq]) seqs).Nodup ∧
      ∀ s ∈ batch.foldl (fun seqs t => if t.seq ∈ seqs then seqs else seqs ++ [t.seq]) seqs,
        s ∈ seqs ∨ ∃ t ∈ batch, t.seq = s := by
  induction batch generalizing seqs with
  | nil => exact ⟨hnd, fun s hs => .inl hs⟩
  | cons t rest ih =>
    rw [List.foldl_cons]
    by_cases ht : t.seq ∈ seqs
    · rw [if_pos ht]
      obtain ⟨hnd', hmem⟩ := ih seqs hnd
      refine ⟨hnd', fun s hs => (hmem s hs).imp id ?_⟩
      rintro ⟨u, hu, rfl⟩
      exact ⟨u, List.mem_cons_of_mem _ hu, rfl⟩
    · rw [if_neg ht]
      have hsnoc : (seqs ++ [t.seq]).Nodup := by
        refine List.nodup_append.mpr ⟨hnd, by simp, ?_⟩
        rintro a ha b hb rfl
        rw [List.mem_singleton.mp hb] at ha
        exact ht ha
      obtain ⟨hnd', hmem⟩ := ih (seqs ++ [t.seq]) hsnoc
      refine ⟨hnd', fun s hs => ?_⟩
      rcases hmem s hs with h | ⟨u, hu, rfl⟩
      · rcases List.mem_append.mp h with h | h
        · exact .inl h
        · exact .inr ⟨t, List.mem_cons_self, (List.mem_singleton.mp h).symm⟩
      · exact .inr ⟨u, List.mem_cons_of_mem _ hu, rfl⟩

theorem batchSeqs_nodup (batch : List Token) : (batchSeqs batch).Nodup :=
  (batchSeqs_foldl batch [] List.nodup_nil).1

theorem mem_of_mem_batchSeqs {batch : List Token} {s : Int} (hs : s ∈ batchSeqs batch) :
    ∃ t ∈ batch, t.seq = s :=
  ((batchSeqs_foldl batch [] List.nodup_nil).2 s hs).resolve_left (by simp)

/-- The loop finds a slot for each sequence, leaves the assigned ones alone and
hands out only slots that were free. -/
theorem ensureSlots_spec {ids : Finset Int} (seqs : List Int) :
    ∀ (c : Recurrent R) (newSlots : List Nat), c.Accounted ids → (∀ s ∈ seqs, s ∈ ids) →
      ∃ c' extra, ensureSlots c seqs newSlots = (c', some (newSlots ++ extra)) ∧
        c'.Accounted ids ∧
        c' = { c with
          slotForSeq := c'.slotForSeq
          refCount := c'.refCount
          freeSlots := c'.freeSlots
          curSlots := c'.curSlots } ∧
        (∀ t slot, c.slotForSeq.lookup t = some slot → c'.slotForSeq.lookup t = some slot) ∧
        (∀ t, t ∉ seqs → c'.slotForSeq.lookup t = c.slotForSeq.lookup t) ∧
        (∀ j ∈ extra, j ∈ c.freeSlots) ∧
        c'.curSlots.map some = c.curSlots.map some ++ seqs.map fun s => c'.slotForSeq.lookup s := by
  induction seqs with
  | nil =>
    intro c newSlots h _
    exact ⟨c, [], by simp [ensureSlots], h, rfl, fun _ _ ht => ht, fun _ _ => rfl, by simp, by simp⟩
  | cons seq rest ih =>
    intro c newSlots h hids
    have hrest : ∀ s ∈ rest, s ∈ ids := fun s hs => hids s (List.mem_cons_of_mem _ hs)
    cases hs : c.slotForSeq.lookup seq with
    | some slot =>
      obtain ⟨c', extra, heq, hacc, hform, hkeep, hothers, hextra, hslots⟩ :=
        ih { c with curSlots := c.curSlots ++ [slot] } newSlots (h.of_core_eq' rfl rfl rfl rfl) hrest
      refine ⟨c', extra, by simp only [ensureSlots, hs, heq], hacc, hform, hkeep,
        fun t ht => hothers t fun hmem => ht (List.mem_cons_of_mem _ hmem), hextra, ?_⟩
      rw [hslots, List.map_cons, hkeep seq slot hs]
      simp
    | none =>
      obtain ⟨slot, c1, htake, hfree, hacc1, hform1, hsub⟩ :=
        takeSlot_spec h (hids seq List.mem_cons_self) hs
      have hmap1 : c1.slotForSeq = c.slotForSeq.insert seq slot := by rw [hform1]
      have hcur1 : c1.curSlots = c.curSlots := by rw [hform1]
      obtain ⟨c', extra, heq, hacc, hform, hkeep, hothers, hextra, hslots⟩ :=
        ih { c1 with curSlots := c1.curSlots ++ [slot] } (newSlots ++ [slot])
          (hacc1.of_core_eq' rfl rfl rfl rfl) hrest
      have hkeep' : ∀ t j, c1.slotForSeq.lookup t = some j → c'.slotForSeq.lookup t = some j := hkeep
      refine ⟨c', slot :: extra, ?_, hacc, ?_, ?_, ?_, ?_, ?_⟩
      · simp only [ensureSlots, hs, htake, heq]
        simp
      · rw [hform, hform1]
      · intro t j ht
        refine hkeep' t j ?_
        rw [hmap1, GoMap.lookup_insert_ite, if_neg]
        · exact ht
        · rintro rfl
          rw [hs] at ht
          cases ht
      · intro t ht
        rw [List.mem_cons, not_or] at ht
        refine (hothers t ht.2).trans ?_
        change c1.slotForSeq.lookup t = _
        rw [hmap1, GoMap.lookup_insert_ite, if_neg ht.1]
      · intro j hj
        rcases List.mem_cons.mp hj with rfl | hj
        · exact hfree
        · exact hsub j (hextra j hj)
      · rw [hslots, List.map_cons, hkeep' seq slot (by rw [hmap1, GoMap.lookup_insert_ite, if_pos rfl])]
        simp [hcur1]

/-- A pass that `StartForward` opened on a batch: sequences that had a slot and
sequences outside the batch read what they read before. -/
structure Started (ids : Finset Int) (batch : List Token) (c c' : Recurrent R) : Prop where
  accounted : c'.Accounted ids
  mapped : ∀ t slot, c.slotForSeq.lookup t = some slot → c'.slotForSeq.lookup t = some slot
  others : ∀ t, (∀ u ∈ batch, u.seq ≠ t) → c'.slotForSeq.lookup t = c.slotForSeq.lookup t
  reads : ∀ t, c.slotForSeq.lookup t ≠ none ∨ (∀ u ∈ batch, u.seq ≠ t) →
    ∀ b, c'.stateOf t b = c.stateOf t b

omit [Inhabited R] in
theorem finalizeStartForward_core (c : Recurrent R) (batch : List Token) (reserve : Bool) :
    (c.finalizeStartForward batch reserve).core =
      { c.core with
        curSlotsInput := c.curSlots
        reserveCheckpoints := reserve
        writableEnsured := false
        writableError := none } := by
  unfold finalizeStartForward
  rw [planCheckpoints_core]
  rfl

omit [Inhabited R] in
/-- Closing `StartForward` on sequences and slots that fit opens a pass. -/
theorem finalizeStartForward_pass {c : Recurrent R} (hnd : c.curSeqs.Nodup)
    (hslots : c.curSlots.map some = c.curSeqs.map fun s => c.slotForSeq.lookup s)
    (batch : List Token) : (c.finalizeStartForward batch false).Pass := by
  have hcore := finalizeStartForward_core c batch false
  have hopen : ({ c.setCurSlotsInput with
      writableEnsured := false, writableError := none, reserveCheckpoints := false } :
        Recurrent R).Pass :=
    ⟨hnd, hslots, rfl, by simp, rfl, rfl⟩
  exact hopen.of_core (hcore.trans rfl)

/-- Slots handed out from the stack can be zeroed: nobody reads them. -/
theorem zeroSlots_started {ids : Finset Int} {batch : List Token} {c c' : Recurrent R}
    (h : c.Accounted ids) (h' : c'.Accounted ids) (hrows : c'.rows = c.rows)
    (hkeep : ∀ t slot, c.slotForSeq.lookup t = some slot → c'.slotForSeq.lookup t = some slot)
    (hothers : ∀ t, (∀ u ∈ batch, u.seq ≠ t) → c'.slotForSeq.lookup t = c.slotForSeq.lookup t)
    {slots : List Nat} (hfree : ∀ j ∈ slots, j ∈ c.freeSlots) :
    Started ids batch c (c'.zeroSlots slots) where
  accounted := by
    refine h'.of_core rfl rfl ?_
    intro b hb j
    have hb' : b ∉ c'.buffers := hb
    simp [zeroSlots, hb', h'.zero b hb']
  mapped := hkeep
  others := hothers
  reads := by
    intro t ht b
    have hmap : (c'.zeroSlots slots).slotForSeq.lookup t = c.slotForSeq.lookup t := by
      rcases ht with ht | ht
      · obtain ⟨slot, hslot⟩ := Option.ne_none_iff_exists'.mp ht
        exact (hkeep t slot hslot).trans hslot.symm
      · exact hothers t ht
    unfold stateOf
    rw [hmap]
    cases hslot : c.slotForSeq.lookup t with
    | none => rfl
    | some slot =>
      have hnot : slot ∉ slots := fun hmem => h.not_owned (hfree slot hmem) hslot
      simp [zeroSlots, hnot, hrows]

theorem Started.of_core {ids : Finset Int} {batch : List Token} {c c' c'' : Recurrent R}
    (h : Started ids batch c c') (hpool : c''.pool = c'.pool) (hmax : c''.maxSequences = c'.maxSequences)
    (hbuf : c''.buffers = c'.buffers) (hrows : c''.rows = c'.rows) : Started ids batch c c'' where
  accounted := h.accounted.of_core_eq' hpool hmax hbuf hrows
  mapped := by
    have hmap : c''.slotForSeq = c'.slotForSeq := congrArg SlotPool.slotOf hpool
    rw [hmap]
    exact h.mapped
  others := by
    have hmap : c''.slotForSeq = c'.slotForSeq := congrArg SlotPool.slotOf hpool
    rw [hmap]
    exact h.others
  reads := by
    have hmap : c''.slotForSeq = c'.slotForSeq := congrArg SlotPool.slotOf hpool
    intro t ht b
    rw [← h.reads t ht b]
    unfold stateOf
    rw [hmap, hrows]

theorem Started.refl {ids : Finset Int} {batch : List Token} {c c' : Recurrent R}
    (h : c.Accounted ids) (hpool : c'.pool = c.pool) (hmax : c'.maxSequences = c.maxSequences)
    (hbuf : c'.buffers = c.buffers) (hrows : c'.rows = c.rows) : Started ids batch c c' :=
  Started.of_core ⟨h, fun _ _ ht => ht, fun _ _ => rfl, fun _ _ _ => rfl⟩ hpool hmax hbuf hrows

theorem Started.finalize {ids : Finset Int} {batch : List Token} {c c' : Recurrent R}
    (h : Started ids batch c c') (reserve : Bool) :
    Started ids batch c (c'.finalizeStartForward batch reserve) :=
  h.of_core (congrArg Core.pool (finalizeStartForward_core c' batch reserve))
    (congrArg Core.maxSequences (finalizeStartForward_core c' batch reserve))
    (congrArg Core.buffers (finalizeStartForward_core c' batch reserve))
    (congrArg Core.rows (finalizeStartForward_core c' batch reserve))

/-- A pass whose graph is only measured. -/
def Reserving (c : Recurrent R) : Prop := c.reserveCheckpoints = true ∧ c.writableError = none

omit [Inhabited R] in
theorem finalizeStartForward_reserving (c : Recurrent R) (batch : List Token) :
    (c.finalizeStartForward batch true).Reserving :=
  ⟨congrArg Core.reserveCheckpoints (finalizeStartForward_core c batch true),
    congrArg Core.writableError (finalizeStartForward_core c batch true)⟩

/-- What `StartForward` returns once the causal cache has taken the batch. -/
structure StartResult (ids : Finset Int) (batch : List Token) (c : Recurrent R) (reserve : Bool)
    (out : Recurrent R × Option KvError) : Prop where
  started : Started ids batch c out.1
  error : out.2 ≠ some .errKvCacheFull
  pass : out.2 = none → reserve = false → out.1.Pass
  reserved : out.2 = none → reserve = true → out.1.Pass ∨ out.1.Reserving

theorem startForwardSingleSeq_result {ids : Finset Int} {c : Recurrent R} (h : c.Accounted ids)
    {seq : Int} (hseq : seq ∈ ids) {batch : List Token} (hmem : ∃ u ∈ batch, u.seq = seq)
    (reserve : Bool) :
    StartResult ids batch c reserve (c.startForwardSingleSeq seq batch reserve) := by
  unfold startForwardSingleSeq
  cases reserve with
  | true =>
    refine ⟨(Started.refl h ?_ ?_ ?_ ?_).finalize true, by simp, by simp, ?_⟩ <;> try rfl
    exact fun _ _ => .inr (finalizeStartForward_reserving _ _)
  | false =>
    simp only [Bool.false_eq_true, if_false]
    cases hs : c.slotForSeq.lookup seq with
    | some slot =>
      refine ⟨(Started.refl h ?_ ?_ ?_ ?_).finalize false, by simp, fun _ _ => ?_, by simp⟩ <;>
        try rfl
      refine finalizeStartForward_pass (by simp) ?_ batch
      simp [hs]
    | none =>
      obtain ⟨slot, c', htake, hfree, hacc, hform, -⟩ := takeSlot_spec
        (c := { c with curSeqs := [seq], curSeqTokens := batch.length })
        (h.of_core_eq' rfl rfl rfl rfl) hseq hs
      simp only [htake]
      have hmap : c'.slotForSeq = c.slotForSeq.insert seq slot := by rw [hform]
      have hrows : c'.rows = c.rows := by rw [hform]
      have hseqs : c'.curSeqs = [seq] := by rw [hform]
      have hkeep : ∀ t j, c.slotForSeq.lookup t = some j → c'.slotForSeq.lookup t = some j := by
        intro t j ht
        rw [hmap, GoMap.lookup_insert_ite, if_neg]
        · exact ht
        · rintro rfl
          rw [hs] at ht
          cases ht
      have hothers : ∀ t, (∀ u ∈ batch, u.seq ≠ t) →
          c'.slotForSeq.lookup t = c.slotForSeq.lookup t := by
        intro t ht
        obtain ⟨u, hu, hus⟩ := hmem
        rw [hmap, GoMap.lookup_insert_ite, if_neg]
        exact fun heq => ht u hu (hus.trans heq.symm)
      have hzero : Started ids batch c (c'.zeroSlots [slot]) :=
        zeroSlots_started h hacc hrows hkeep hothers (by simpa using hfree)
      refine ⟨(hzero.of_core ?_ ?_ ?_ ?_).finalize false, by simp, fun _ _ => ?_, by simp⟩ <;>
        try rfl
      have hcur : (c'.zeroSlots [slot]).curSeqs = [seq] := hseqs
      have hlook : (c'.zeroSlots [slot]).slotForSeq.lookup seq = some slot := by
        change c'.slotForSeq.lookup seq = some slot
        rw [hmap, GoMap.lookup_insert_ite, if_pos rfl]
      refine finalizeStartForward_pass ?_ ?_ batch
      · simp [hcur]
      · simp [hcur, hlook]

theorem startForwardSlots_result {ids : Finset Int} {c : Recurrent R} (h : c.Accounted ids)
    {batch : List Token} (hids : ∀ t ∈ batch, t.seq ∈ ids) (reserve : Bool) :
    StartResult ids batch c reserve (c.startForwardSlots batch reserve) := by
  cases batch with
  | nil =>
    have hpass : (c.startForwardSlots [] reserve).1.Pass :=
      ⟨List.nodup_nil, rfl, rfl, by simp [startForwardSlots], rfl, rfl⟩
    exact ⟨Started.refl h rfl rfl rfl rfl, by simp [startForwardSlots], fun _ _ => hpass,
      fun _ _ => .inl hpass⟩
  | cons first rest =>
    simp only [startForwardSlots]
    split
    · exact startForwardSingleSeq_result h (hids first List.mem_cons_self)
        ⟨first, List.mem_cons_self, rfl⟩ reserve
    · split
      · exact ⟨Started.refl h rfl rfl rfl rfl, by simp, by simp, by simp⟩
      · cases reserve with
        | true =>
          refine ⟨(Started.refl h ?_ ?_ ?_ ?_).finalize true, by simp, by simp, ?_⟩ <;> try rfl
          exact fun _ _ => .inr (finalizeStartForward_reserving _ _)
        | false =>
          have hmem : ∀ s ∈ batchSeqs (first :: rest), s ∈ ids := by
            intro s hs
            obtain ⟨t, ht, rfl⟩ := mem_of_mem_batchSeqs hs
            exact hids t ht
          obtain ⟨c', extra, heq, hacc, hform, hkeep, hothers, hextra, hslots⟩ :=
            ensureSlots_spec (batchSeqs (first :: rest))
              { c with
                curSeqs := batchSeqs (first :: rest)
                curSeqTokens := (first :: rest).length / (batchSeqs (first :: rest)).length
                curSlots := [] } [] (h.of_core_eq' rfl rfl rfl rfl) hmem
          simp only [Bool.false_eq_true, if_false, heq, List.nil_append]
          have hrows : c'.rows = c.rows := by rw [hform]
          have hseqs : c'.curSeqs = batchSeqs (first :: rest) := by rw [hform]
          have hout : ∀ t, (∀ u ∈ first :: rest, u.seq ≠ t) →
              c'.slotForSeq.lookup t = c.slotForSeq.lookup t := by
            intro t ht
            refine hothers t fun hs => ?_
            obtain ⟨u, hu, hus⟩ := mem_of_mem_batchSeqs hs
            exact ht u hu hus
          have hzero := zeroSlots_started h hacc hrows hkeep hout hextra
          refine ⟨hzero.finalize false, by simp, fun _ _ => ?_, by simp⟩
          refine finalizeStartForward_pass ?_ ?_ _
          · change c'.curSeqs.Nodup
            rw [hseqs]
            exact batchSeqs_nodup _
          · change c'.curSlots.map some = c'.curSeqs.map fun s => c'.slotForSeq.lookup s
            rw [hseqs]
            simpa using hslots

theorem kv_startForward_error (kv : Causal) (batch : List Token) (order : List Int)
    (reserve : Bool) : (kv.startForward batch order reserve).2 ≠ some .errKvCacheFull := by
  simp only [Causal.startForward]
  split
  · simp
  · split <;> simp

theorem startForward_result {ids : Finset Int} {c : Recurrent R} (h : c.Accounted ids)
    {batch : List Token} (hids : ∀ t ∈ batch, t.seq ∈ ids) (order : List Int) (reserve : Bool) :
    StartResult ids batch c reserve (c.startForward batch order reserve) := by
  have hkv := kv_startForward_error c.kv batch order reserve
  simp only [startForward]
  split
  · rename_i err herr
    refine ⟨Started.refl h rfl rfl rfl rfl, ?_, by simp, by simp⟩
    rw [herr] at hkv
    exact hkv
  · obtain ⟨hstarted, herror, hpass, hreserved⟩ := startForwardSlots_result
      (c := { c with kv := (c.kv.startForward batch order reserve).1 })
      (h.of_core_eq' rfl rfl rfl rfl) hids reserve
    exact ⟨⟨hstarted.accounted, hstarted.mapped, hstarted.others, hstarted.reads⟩, herror, hpass,
      hreserved⟩

omit [Inhabited R] in
theorem finalizeStartForward_map (c : Recurrent R) (batch : List Token) (reserve : Bool) :
    (c.finalizeStartForward batch reserve).slotForSeq = c.slotForSeq :=
  congrArg (fun k => k.pool.slotOf) (finalizeStartForward_core c batch reserve)

/-- Reserving memory assigns no slot. -/
theorem startForward_reserve_map (c : Recurrent R) (batch : List Token) (order : List Int) :
    (c.startForward batch order true).1.slotForSeq = c.slotForSeq := by
  simp only [startForward]
  split
  · rfl
  · unfold startForwardSlots
    split
    · rfl
    · split
      · exact finalizeStartForward_map _ _ _
      · simp only
        split
        · rfl
        · exact finalizeStartForward_map _ _ _

/-! ## Copy-on-write -/

theorem Private.of_detach {ids : Finset Int} {c c' : Recurrent R} (h : c.Accounted ids)
    {s seq : Int} {new : Nat} (hnew : new ∈ c.freeSlots)
    (hmap : c'.slotForSeq = c.slotForSeq.insert seq new) (hs : s ≠ seq) (hpriv : c.Private s) :
    c'.Private s := by
  intro t slot hsl htl
  rw [hmap, GoMap.lookup_insert_ite] at hsl htl
  rw [if_neg hs] at hsl
  split at htl
  · injection htl with htl
    rw [htl] at hnew
    exact absurd hsl (h.not_owned hnew)
  · exact hpriv t slot hsl htl

/-- The loop over the sequences from index `i` makes them private, those before
it stay so, and what anyone reads is unchanged. -/
theorem ensureWritableFrom_spec {ids : Finset Int} (rest : List Int) :
    ∀ (c : Recurrent R) (i : Nat), c.Accounted ids → c.curSeqs.Nodup → c.curSeqs.drop i = rest →
      (c.curSlots.map some = c.curSeqs.map fun s => c.slotForSeq.lookup s) →
      (∀ s ∈ c.curSeqs.take i, c.Private s) →
      ∃ c', c.ensureWritableFrom i rest = (c', none) ∧ c'.Accounted ids ∧
        c'.stateOf = c.stateOf ∧
        (c'.curSlots.map some = c'.curSeqs.map fun s => c'.slotForSeq.lookup s) ∧
        (∀ s ∈ c'.curSeqs, c'.Private s) ∧
        c'.core = { c.core with
          pool := c'.pool, rows := c'.rows, curSlots := c'.curSlots, curSlotsInput := c'.curSlots } := by
  induction rest with
  | nil =>
    intro c i h _ hdrop hslots hpriv
    refine ⟨c.setCurSlotsInput, rfl, h.of_core_eq' rfl rfl rfl rfl, rfl, hslots, ?_, rfl⟩
    have hall : c.curSeqs.take i = c.curSeqs := by
      rw [List.take_eq_self_iff]
      exact List.drop_eq_nil_iff.mp hdrop
    rw [hall] at hpriv
    exact hpriv
  | cons seq rest ih =>
    intro c i h hnd hdrop hslots hpriv
    have hi : i < c.curSeqs.length := by
      by_contra hge
      rw [List.drop_eq_nil_of_le (not_lt.mp hge)] at hdrop
      cases hdrop
    have hget : c.curSeqs[i]? = some seq := by
      rw [← List.head?_drop, hdrop]
      rfl
    have hdrop' : c.curSeqs.drop (i + 1) = rest := by
      rw [← List.drop_drop, hdrop]
      rfl
    have htake : c.curSeqs.take (i + 1) = c.curSeqs.take i ++ [seq] := by
      rw [List.take_add_one, hget]
      rfl
    -- the sequence has a slot, the `i`-th of the pass
    obtain ⟨slot, hslot, hcur⟩ : ∃ slot, c.slotForSeq.lookup seq = some slot ∧
        c.curSlots[i]? = some slot := by
      have hi' := congrArg (fun l => l[i]?) hslots
      simp only [List.getElem?_map, hget, Option.map_some] at hi'
      cases hc : c.curSlots[i]? with
      | none =>
        rw [hc] at hi'
        cases hi'
      | some slot =>
        rw [hc] at hi'
        injection hi' with hi'
        exact ⟨slot, hi'.symm, rfl⟩
    have hvalid := h.valid hslot
    by_cases hle : c.refs slot ≤ 1
    · obtain ⟨c', heq, hrest⟩ := ih c (i + 1) h hnd hdrop' hslots (by
        intro s hs
        rw [htake] at hs
        rcases List.mem_append.mp hs with hs | hs
        · exact hpriv s hs
        · rw [List.mem_singleton.mp hs]
          exact (h.private_iff hslot).mpr hle)
      refine ⟨c', ?_, hrest⟩
      simp [ensureWritableFrom, hslot, hle, heq]
    · obtain ⟨new, c1, hdetach, hnew, hacc1, hstate1, hpriv1, hmap1, hcore1⟩ :=
        detach_spec h hslot (by omega)
      have hseqs1 : c1.curSeqs = c.curSeqs := congrArg Core.curSeqs hcore1
      have hcur1 : c1.curSlots = c.curSlots := congrArg Core.curSlots hcore1
      -- the other sequences of the pass keep their slots
      have hslots1 : (c1.curSlots.set i new).map some =
          c1.curSeqs.map fun s => c1.slotForSeq.lookup s := by
        rw [hcur1, hseqs1, hmap1]
        refine List.ext_getElem? fun k => ?_
        have hk := congrArg (fun l => l[k]?) hslots
        simp only [List.getElem?_map] at hk ⊢
        by_cases hki : k = i
        · subst hki
          have hlt : k < c.curSlots.length := (List.getElem?_eq_some_iff.mp hcur).1
          rw [List.getElem?_set_self hlt, hget]
          simp [GoMap.lookup_insert_ite]
        · rw [List.getElem?_set_ne (Ne.symm hki), hk]
          cases hs : c.curSeqs[k]? with
          | none => rfl
          | some s =>
            have hne : s ≠ seq := by
              rintro rfl
              exact hki ((List.getElem?_inj (List.getElem?_eq_some_iff.mp hs).1 hnd).mp
                (hs.trans hget.symm))
            simp [GoMap.lookup_insert_ite, hne]
      obtain ⟨c', heq, hacc', hstate', hslots', hpriv', hcore'⟩ :=
        ih { c1 with curSlots := c1.curSlots.set i new } (i + 1) (hacc1.of_core_eq' rfl rfl rfl rfl)
          (by rw [hseqs1]; exact hnd) (by rw [hseqs1]; exact hdrop') hslots1 (by
            intro s hs
            have hs' : s ∈ c.curSeqs.take i ++ [seq] := by
              rw [← htake, ← hseqs1]
              exact hs
            change c1.Private s
            rcases List.mem_append.mp hs' with hold | hseq
            · have hne : s ≠ seq := by
                rintro rfl
                have hdisj := List.disjoint_take_drop hnd (le_refl i)
                exact hdisj hold (by rw [hdrop]; exact List.mem_cons_self)
              exact (hpriv s hold).of_detach h hnew hmap1 hne
            · rw [List.mem_singleton.mp hseq]
              exact hpriv1)
      refine ⟨c', ?_, hacc', ?_, hslots', hpriv', ?_⟩
      · simp [ensureWritableFrom, hslot, hle, hvalid, hdetach, heq]
      · rw [hstate']
        exact hstate1
      · rw [hcore']
        simp only [core, Core.mk.injEq] at hcore1 ⊢
        simp [hcore1]

/-- A state read opens the pass for writing; what anyone reads is unchanged. -/
theorem ensureWritableOnce_spec {ids : Finset Int} {c : Recurrent R} (h : c.Accounted ids)
    (hpass : c.Pass) :
    c.ensureWritableOnce.Accounted ids ∧ c.ensureWritableOnce.Pass ∧
      c.ensureWritableOnce.stateOf = c.stateOf ∧
      c.ensureWritableOnce.writableEnsured = true ∧
      c.ensureWritableOnce.curSeqs = c.curSeqs := by
  unfold ensureWritableOnce
  split
  · rename_i hens
    exact ⟨h, hpass, rfl, hens, rfl⟩
  · simp only
    split
    · obtain ⟨c', heq, hacc, hstate, hslots, hpriv, hcore⟩ :=
        ensureWritableFrom_spec c.curSeqs c 0 h hpass.nodup rfl hpass.slots (by simp)
      have hseqs : c'.curSeqs = c.curSeqs := congrArg Core.curSeqs hcore
      have hinput : c'.curSlotsInput = c'.curSlots := congrArg Core.curSlotsInput hcore
      have herr : c'.writableError = c.writableError := congrArg Core.writableError hcore
      have hres : c'.reserveCheckpoints = c.reserveCheckpoints :=
        congrArg Core.reserveCheckpoints hcore
      simp only [ensureWritableAll, heq]
      refine ⟨hacc.of_core_eq' rfl rfl rfl rfl, ?_, hstate, trivial, hseqs⟩
      refine ⟨?_, hslots, hinput, fun _ => hpriv, ?_, ?_⟩
      · change c'.curSeqs.Nodup
        rw [hseqs]
        exact hpass.nodup
      · exact herr.trans hpass.noError
      · exact hres.trans hpass.computed
    · rename_i hnone
      refine ⟨h.of_core_eq' rfl rfl rfl rfl, ?_, rfl, rfl, rfl⟩
      refine ⟨hpass.nodup, hpass.slots, hpass.input, fun _ s hs => ?_, hpass.noError,
        hpass.computed⟩
      -- no sequence of the pass has a shared slot
      intro t slot hsl htl
      have hle : c.refs slot ≤ 1 := by
        by_contra hgt
        refine hnone ?_
        rw [List.any_eq_true]
        refine ⟨s, hs, ?_⟩
        have hsl' : c.slotForSeq.lookup s = some slot := hsl
        simp only [hsl', h.valid hsl', Bool.true_and, decide_eq_true_eq]
        omega
      exact (h.private_iff hsl).mpr hle t slot hsl htl

/-- Allocating a buffer changes no row. -/
theorem ensureBuffer_rows {ids : Finset Int} {c : Recurrent R} (h : c.Accounted ids)
    (b : StateBuffer) : (c.ensureBuffer b).rows = c.rows := by
  unfold ensureBuffer
  split
  · rfl
  · rename_i hb
    funext b' j
    simp only
    split
    · rename_i heq
      rw [heq, h.zero b hb j]
    · rfl

theorem ensureBuffer_core {ids : Finset Int} {c : Recurrent R} (h : c.Accounted ids)
    (b : StateBuffer) :
    (c.ensureBuffer b).core = { c.core with buffers := (c.ensureBuffer b).buffers } ∧
      b ∈ (c.ensureBuffer b).buffers ∧ ∀ b' ∈ c.buffers, b' ∈ (c.ensureBuffer b).buffers := by
  have hrows := ensureBuffer_rows h b
  unfold core
  rw [hrows]
  unfold ensureBuffer
  split
  · rename_i hb
    exact ⟨rfl, hb, fun _ h => h⟩
  · exact ⟨rfl, by simp, fun b' hb' => by simp [hb']⟩

theorem Accounted.ensureBuffer {ids : Finset Int} {c : Recurrent R} (h : c.Accounted ids)
    (b : StateBuffer) : (c.ensureBuffer b).Accounted ids := by
  obtain ⟨hcore, -, hsub⟩ := ensureBuffer_core h b
  refine h.of_core (congrArg Core.pool hcore) (congrArg Core.maxSequences hcore) ?_
  rw [ensureBuffer_rows h b]
  exact fun b' hb' => h.zero b' (fun hmem => hb' (hsub b' hmem))

end Recurrent

end Prismalama.Kvcache
