import Prismalama.Kvcache.RecurrentSlots

/-!
# Copy-on-write in the recurrent cache

What a pass reads and writes, what `CopyPrefix` and `Remove` do to the slots,
and from these the runs of the cache (`sessionSys`). The bookkeeping is sound
in every run. That an operation on one sequence leaves the state of the others
alone needs one condition: a `Remove` that goes back to a checkpoint writes the
slot noted by `PrepareRestore`, and nothing keeps that note up to date when the
sequence is moved to another slot in between (`stale_restore_overwrites`).
-/

namespace Prismalama.Kvcache

open Prismalama.Lib

namespace Recurrent

variable {R : Type*} [Inhabited R]

/-! ## The rows of a pass -/

omit [Inhabited R] in
theorem Pass.length {c : Recurrent R} (h : c.Pass) : c.curSlots.length = c.curSeqs.length := by
  simpa using congrArg List.length h.slots

omit [Inhabited R] in
/-- The `i`-th sequence of a pass has the `i`-th slot. -/
theorem Pass.slot {c : Recurrent R} (h : c.Pass) {i : Nat} {s : Int}
    (hs : c.curSeqs[i]? = some s) :
    ∃ slot, c.curSlots[i]? = some slot ∧ c.slotForSeq.lookup s = some slot := by
  have hi := congrArg (fun l => l[i]?) h.slots
  simp only [List.getElem?_map, hs, Option.map_some] at hi
  cases hc : c.curSlots[i]? with
  | none =>
    rw [hc] at hi
    cases hi
  | some slot =>
    rw [hc] at hi
    injection hi with hi
    exact ⟨slot, rfl, hi.symm⟩

omit [Inhabited R] in
theorem Pass.seq {c : Recurrent R} (h : c.Pass) {i slot : Nat}
    (hslot : c.curSlots[i]? = some slot) :
    ∃ s, c.curSeqs[i]? = some s ∧ c.slotForSeq.lookup s = some slot := by
  have hi := congrArg (fun l => l[i]?) h.slots
  simp only [List.getElem?_map, hslot, Option.map_some] at hi
  cases hc : c.curSeqs[i]? with
  | none =>
    rw [hc] at hi
    cases hi
  | some s =>
    rw [hc] at hi
    injection hi with hi
    exact ⟨s, rfl, hi.symm⟩

omit [Inhabited R] in
/-- Once a pass may write, its slots are distinct. -/
theorem Pass.slots_nodup {c : Recurrent R} (h : c.Pass) (hens : c.writableEnsured = true) :
    c.curSlots.Nodup := by
  rw [List.nodup_iff_getElem?_ne_getElem?]
  intro i k hik hk heq
  obtain ⟨slot, hslot⟩ : ∃ slot, c.curSlots[k]? = some slot := ⟨_, List.getElem?_eq_getElem hk⟩
  obtain ⟨s, hs, hsl⟩ := h.seq hslot
  obtain ⟨t, ht, htl⟩ := h.seq (heq.trans hslot)
  have hst : t = s := h.writable hens s (List.mem_of_getElem? hs) t slot hsl htl
  subst hst
  have := (List.getElem?_inj (List.getElem?_eq_some_iff.mp ht).1 h.nodup).mp (ht.trans hs.symm)
  omega

omit [Inhabited R] in
theorem contiguousSlots_eq {c : Recurrent R} {start : Nat} (h : c.contiguousSlots = some start) :
    c.curSlots = List.range' start c.curSlots.length := by
  unfold contiguousSlots at h
  split at h
  · cases h
  · rename_i s rest heq
    split at h
    · rename_i hrange
      injection h with h
      subst h
      exact hrange
    · cases h

omit [Inhabited R] in
/-- View or lookup, a pass reads the rows of its slots. -/
theorem currentSlotRows_eq {c : Recurrent R} (h : c.Pass) (b : StateBuffer) :
    c.currentSlotRows b = c.curSlots.map (c.rows b) := by
  unfold currentSlotRows
  split
  · rename_i start hstart
    rw [← h.length, ← contiguousSlots_eq hstart]
  · rw [h.input]

omit [Inhabited R] in
theorem setRow_foldl (b : StateBuffer) (xs : List (Nat × R)) (c : Recurrent R)
    (hnd : (xs.map Prod.fst).Nodup) :
    let c' := xs.foldl (fun c x => c.setRow b x.1 x.2) c
    c' = { c with rows := c'.rows } ∧ (∀ x ∈ xs, c'.rows b x.1 = x.2) ∧
      ∀ b' j, b' ≠ b ∨ j ∉ xs.map Prod.fst → c'.rows b' j = c.rows b' j := by
  induction xs generalizing c with
  | nil => simp
  | cons x rest ih =>
    simp only [List.map_cons, List.nodup_cons, List.foldl_cons] at hnd ⊢
    obtain ⟨hform, hin, hout⟩ := ih (c.setRow b x.1 x.2) hnd.2
    refine ⟨hform, ?_, ?_⟩
    · intro y hy
      rcases List.mem_cons.mp hy with rfl | hy
      · rw [hout b y.1 (.inr hnd.1)]
        simp [setRow]
      · exact hin y hy
    · intro b' j hj
      rw [hout b' j (hj.imp id fun hmem h => hmem (List.mem_cons_of_mem _ h))]
      rcases hj with hb | hj
      · simp [setRow, hb]
      · have hne : j ≠ x.1 := fun heq => hj (heq ▸ List.mem_cons_self)
        simp [setRow, hne]

/-- View or scatter, a write puts the `i`-th new row in the `i`-th slot. -/
theorem writeCurrentSlotRows_spec {c : Recurrent R} (h : c.Pass)
    (hens : c.writableEnsured = true) (b : StateBuffer) {src : List R}
    (hlen : src.length = c.curSeqs.length) :
    c.writeCurrentSlotRows b src = { c with rows := (c.writeCurrentSlotRows b src).rows } ∧
      (∀ (i slot : Nat), c.curSlots[i]? = some slot →
        (c.writeCurrentSlotRows b src).rows b slot = src.getD i default) ∧
      ∀ b' j, b' ≠ b ∨ j ∉ c.curSlots →
        (c.writeCurrentSlotRows b src).rows b' j = c.rows b' j := by
  have hlen' : src.length = c.curSlots.length := hlen.trans h.length.symm
  cases hstart : c.contiguousSlots with
  | some start =>
    have hrange := contiguousSlots_eq hstart
    simp only [writeCurrentSlotRows, hstart]
    refine ⟨trivial, ?_, ?_⟩
    · intro i slot hslot
      have hi := (List.getElem?_eq_some_iff.mp hslot).1
      rw [hrange, List.getElem?_range' hi, Option.some.injEq] at hslot
      subst hslot
      have hlt := h.length
      rw [if_pos ⟨trivial, by omega, by omega⟩]
      congr 1
      omega
    · intro b' j hj
      have hnot : ¬(b' = b ∧ start ≤ j ∧ j < start + c.curSeqs.length) := by
        rintro ⟨hb, hle, hlt⟩
        rcases hj with hj | hj
        · exact hj hb
        · rw [hrange, List.mem_range'_1, h.length] at hj
          exact hj ⟨hle, hlt⟩
      rw [if_neg hnot]
  | none =>
    have hfst : (c.curSlotsInput.zip src).map Prod.fst = c.curSlots := by
      rw [h.input, List.map_fst_zip]
      omega
    obtain ⟨hform, hin, hout⟩ := setRow_foldl b (c.curSlotsInput.zip src) c (by
      rw [hfst]
      exact h.slots_nodup hens)
    simp only [writeCurrentSlotRows, hstart]
    refine ⟨hform, ?_, ?_⟩
    · intro i slot hslot
      obtain ⟨row, hrow⟩ : ∃ row, src[i]? = some row :=
        ⟨_, List.getElem?_eq_getElem (by rw [hlen']; exact (List.getElem?_eq_some_iff.mp hslot).1)⟩
      have hmem : (slot, row) ∈ c.curSlotsInput.zip src := by
        refine List.mem_of_getElem? (i := i) ?_
        rw [List.getElem?_zip_eq_some, h.input]
        exact ⟨hslot, hrow⟩
      rw [hin _ hmem, List.getD_eq_getElem?_getD, hrow]
      rfl
    · intro b' j hj
      rw [hfst] at hout
      exact hout b' j hj

/-- A write changes rows only. -/
theorem Pass.written {c : Recurrent R} (h : c.Pass) (hens : c.writableEnsured = true)
    (b : StateBuffer) {src : List R} (hlen : src.length = c.curSeqs.length) :
    (c.writeCurrentSlotRows b src).Pass := by
  rw [(writeCurrentSlotRows_spec h hens b hlen).1]
  exact ⟨h.nodup, h.slots, h.input, h.writable, h.noError, h.computed⟩

theorem Accounted.written {ids : Finset Int} {c : Recurrent R} (hacc : c.Accounted ids)
    (h : c.Pass) (hens : c.writableEnsured = true) {b : StateBuffer} (hb : b ∈ c.buffers)
    {src : List R} (hlen : src.length = c.curSeqs.length) :
    (c.writeCurrentSlotRows b src).Accounted ids := by
  obtain ⟨hform, -, hout⟩ := writeCurrentSlotRows_spec h hens b hlen
  refine hacc.of_core (by rw [hform]; rfl) (by rw [hform]) ?_
  intro b' hb' j
  have hb'' : b' ∉ c.buffers := by
    rw [hform] at hb'
    exact hb'
  have hne : b' ≠ b := fun heq => hb'' (heq ▸ hb)
  rw [hout b' j (.inl hne)]
  exact hacc.zero b' hb'' j

theorem Pass.of_buffers {ids : Finset Int} {c : Recurrent R} (hacc : c.Accounted ids)
    (h : c.Pass) (b : StateBuffer) : (c.ensureBuffer b).Pass := by
  obtain ⟨hcore, -, -⟩ := ensureBuffer_core hacc b
  have hseqs : (c.ensureBuffer b).curSeqs = c.curSeqs := congrArg Core.curSeqs hcore
  have hslots : (c.ensureBuffer b).curSlots = c.curSlots := congrArg Core.curSlots hcore
  have hinput : (c.ensureBuffer b).curSlotsInput = c.curSlotsInput :=
    congrArg Core.curSlotsInput hcore
  have hmap : (c.ensureBuffer b).slotForSeq = c.slotForSeq :=
    congrArg (fun k => k.pool.slotOf) hcore
  refine ⟨?_, ?_, ?_, ?_, (congrArg Core.writableError hcore).trans h.noError,
    (congrArg Core.reserveCheckpoints hcore).trans h.computed⟩
  · rw [hseqs]
    exact h.nodup
  · rw [hslots, hseqs, hmap]
    exact h.slots
  · rw [hinput, hslots]
    exact h.input
  · have hens : (c.ensureBuffer b).writableEnsured = c.writableEnsured :=
      congrArg Core.writableEnsured hcore
    unfold Private
    rw [hens, hseqs, hmap]
    exact h.writable

theorem ensureBuffer_stateOf {ids : Finset Int} {c : Recurrent R} (h : c.Accounted ids)
    (b : StateBuffer) : (c.ensureBuffer b).stateOf = c.stateOf := by
  have hmap : (c.ensureBuffer b).slotForSeq = c.slotForSeq :=
    congrArg (fun k => k.pool.slotOf) (ensureBuffer_core h b).1
  unfold stateOf
  rw [hmap, ensureBuffer_rows h b]

/-- A state read: it returns what each sequence of the pass reads and changes
nothing that anyone reads. -/
structure ReadResult (ids : Finset Int) (c : Recurrent R) (b : StateBuffer)
    (out : Recurrent R × Except KvError (List R)) : Prop where
  accounted : out.1.Accounted ids
  pass : out.1.Pass
  reads : out.1.stateOf = c.stateOf
  ensured : out.1.writableEnsured = true
  curSeqs : out.1.curSeqs = c.curSeqs
  rows : ∀ rows, out.2 = .ok rows → rows.map some = c.curSeqs.map fun s => c.stateOf s b
  error : ∀ err, out.2 = .error err → err = .invalidRecurrentShape

theorem readState_result {ids : Finset Int} {c : Recurrent R} (h : c.Accounted ids)
    (hpass : c.Pass) (b : StateBuffer) (dims : Option (List Int)) :
    ReadResult ids c b (c.readState b dims) := by
  obtain ⟨hacc, hpass', hstate, hens, hseqs⟩ := ensureWritableOnce_spec h hpass
  unfold readState
  simp only [hpass'.noError]
  split
  · have hbpass := hpass'.of_buffers hacc b
    have hbstate := ensureBuffer_stateOf hacc b
    have hcore := (ensureBuffer_core hacc b).1
    refine ⟨hacc.ensureBuffer b, hbpass, hbstate.trans hstate,
      (congrArg Core.writableEnsured hcore).trans hens, (congrArg Core.curSeqs hcore).trans hseqs,
      ?_, by simp⟩
    intro rows hrows
    injection hrows with hrows
    have hslots := congrArg (List.map fun slot : Option Nat =>
      slot.map ((c.ensureWritableOnce.ensureBuffer b).rows b)) hbpass.slots
    have hbseqs : (c.ensureWritableOnce.ensureBuffer b).curSeqs = c.ensureWritableOnce.curSeqs :=
      congrArg Core.curSeqs hcore
    rw [← hrows, currentSlotRows_eq hbpass, ← hstate, ← hbstate, ← hseqs, ← hbseqs]
    simpa [List.map_map, Function.comp_def, stateOf] using hslots
  · refine ⟨hacc, hpass', hstate, hens, hseqs, by simp, ?_⟩
    intro err herr
    injection herr with herr
    exact herr.symm

/-- A state write: each sequence of the pass reads its own new row of the
buffer, and nothing else changes. -/
theorem updateState_spec {ids : Finset Int} {c : Recurrent R} (h : c.Accounted ids)
    (hpass : c.Pass) (hens : c.writableEnsured = true) (b : StateBuffer) {newState : List R}
    (hlen : newState.length = c.curSeqs.length) :
    (c.updateState b newState).Accounted ids ∧ (c.updateState b newState).Pass ∧
      (∀ (i : Nat) (s : Int), c.curSeqs[i]? = some s →
        (c.updateState b newState).stateOf s b = some (newState.getD i default)) ∧
      ∀ t b', b' ≠ b ∨ t ∉ c.curSeqs →
        (c.updateState b newState).stateOf t b' = c.stateOf t b' := by
  have hcore := (ensureBuffer_core h b).1
  have hbuf := (ensureBuffer_core h b).2.1
  have hacc' := h.ensureBuffer b
  have hpass' := hpass.of_buffers h b
  have hseqs : (c.ensureBuffer b).curSeqs = c.curSeqs := congrArg Core.curSeqs hcore
  have hens' : (c.ensureBuffer b).writableEnsured = true :=
    (congrArg Core.writableEnsured hcore).trans hens
  have hlen' : newState.length = (c.ensureBuffer b).curSeqs.length := by
    rw [hseqs]
    exact hlen
  obtain ⟨hform, hin, hout⟩ := writeCurrentSlotRows_spec hpass' hens' b hlen'
  let written := (c.ensureBuffer b).writeCurrentSlotRows b newState
  have hwritten : (c.updateState b newState).core = written.core := by
    unfold updateState
    simp only [hpass'.computed, Bool.false_eq_true, if_false]
    exact captureCheckpoint_core _ _ _
  have hmap : written.slotForSeq = (c.ensureBuffer b).slotForSeq := by
    change ((c.ensureBuffer b).writeCurrentSlotRows b newState).slotForSeq = _
    rw [hform]
  have hwpass : written.Pass := hpass'.written hens' b hlen'
  have hwacc : written.Accounted ids := hacc'.written hpass' hens' hbuf hlen'
  refine ⟨hwacc.of_core_eq hwritten, hwpass.of_core hwritten, ?_, ?_⟩
  · intro i s hs
    rw [stateOf_of_core hwritten]
    obtain ⟨slot, hslot, hlook⟩ := hpass'.slot (i := i) (s := s) (by rw [hseqs]; exact hs)
    unfold stateOf
    rw [hmap, hlook, Option.map_some]
    exact congrArg some (hin i slot hslot)
  · intro t b' ht
    rw [stateOf_of_core hwritten, ← ensureBuffer_stateOf h b]
    unfold stateOf
    rw [hmap]
    cases hlook : (c.ensureBuffer b).slotForSeq.lookup t with
    | none => rfl
    | some slot =>
      refine congrArg some (hout b' slot ?_)
      -- a slot of the pass is not the slot of a sequence outside it
      refine ht.imp id fun hnot hmem => ?_
      obtain ⟨i, hi⟩ := List.getElem?_of_mem hmem
      obtain ⟨s, hs, hsl⟩ := hpass'.seq hi
      have hts := hpass'.writable hens' s (List.mem_of_getElem? hs) t slot hsl hlook
      rw [hseqs] at hs
      exact hnot (hts ▸ List.mem_of_getElem? hs)

/-! ## `CopyPrefix` and `Remove` -/

omit [Inhabited R] in
/-- The pool after its owner gave up a slot. -/
theorem release_pool (c : Recurrent R) (seq : Int) (slot : Nat) :
    c.pool.release seq slot =
      ⟨c.slotForSeq.erase seq, c.refCount.set slot (c.refs slot - 1),
        if c.refs slot - 1 = 0 then slot :: c.freeSlots else c.freeSlots⟩ := rfl

/-- A cache whose pool is the one after a release. -/
theorem Accounted.of_release {ids : Finset Int} {c c' : Recurrent R} (h : c.Accounted ids)
    {seq : Int} {slot : Nat} (hslot : c.slotForSeq.lookup seq = some slot)
    (hpool : c'.pool = c.pool.release seq slot) (hmax : c'.maxSequences = c.maxSequences)
    (hbuf : c'.buffers = c.buffers) (hrows : c'.rows = c.rows) : c'.Accounted ids := by
  have hmap : c'.slotForSeq = c.slotForSeq.erase seq := congrArg SlotPool.slotOf hpool
  have hrefs : c'.refCount = c.refCount.set slot (c.refs slot - 1) := congrArg SlotPool.refs hpool
  refine ⟨?_, ?_, ?_, ?_, ?_⟩
  · rw [hpool]
    exact h.balanced.release hslot
  · rw [hrefs, hmax, List.length_set]
    exact h.slots
  · rw [hmax]
    exact h.card
  · intro s j hs
    rw [hmap, GoMap.lookup_erase_ite] at hs
    split at hs
    · cases hs
    · exact h.ids s j hs
  · rw [hbuf, hrows]
    exact h.zero

theorem Accounted.slot_lt {ids : Finset Int} {c : Recurrent R} (h : c.Accounted ids) {s : Int}
    {slot : Nat} (hs : c.slotForSeq.lookup s = some slot) : slot < c.maxSequences := by
  rw [← h.slots]
  exact h.balanced.slot_lt (p := c.pool) s slot hs

theorem dropSlot_spec {ids : Finset Int} {c : Recurrent R} (h : c.Accounted ids) (dstSeq : Int) :
    (c.dropSlot dstSeq).Accounted ids ∧
      (∀ t, (c.dropSlot dstSeq).slotForSeq.lookup t =
        if t = dstSeq then none else c.slotForSeq.lookup t) ∧
      (c.dropSlot dstSeq).rows = c.rows := by
  unfold dropSlot
  split
  · rename_i hnone
    refine ⟨h, fun t => ?_, rfl⟩
    split
    · rename_i heq
      rw [heq, hnone]
    · rfl
  · rename_i slot hslot
    simp only [h.valid hslot, if_true]
    split
    · rename_i hz
      unfold freeSlot
      rw [if_pos (h.slot_lt hslot)]
      refine ⟨h.of_release hslot ?_ rfl rfl rfl, GoMap.lookup_erase_ite c.slotForSeq dstSeq, rfl⟩
      rw [release_pool, if_pos hz]
      rfl
    · rename_i hz
      refine ⟨h.of_release hslot ?_ rfl rfl rfl, GoMap.lookup_erase_ite c.slotForSeq dstSeq, rfl⟩
      rw [release_pool, if_neg hz]
      rfl

/-- `CopyPrefix` changes what its destination reads, and nothing else. -/
theorem copyPrefix_spec {ids : Finset Int} {c : Recurrent R} (h : c.Accounted ids)
    {srcSeq dstSeq : Int} (hne : srcSeq ≠ dstSeq) (hdst : dstSeq ∈ ids) (len : Int) :
    (c.copyPrefix srcSeq dstSeq len).Accounted ids ∧
      (c.copyPrefix srcSeq dstSeq len).slotForSeq.lookup dstSeq = c.slotForSeq.lookup srcSeq ∧
      (∀ t, t ≠ dstSeq →
        (c.copyPrefix srcSeq dstSeq len).slotForSeq.lookup t = c.slotForSeq.lookup t) ∧
      (c.copyPrefix srcSeq dstSeq len).rows = c.rows := by
  obtain ⟨hacc, hmap, hrows⟩ := dropSlot_spec
    (c := { c with kv := c.kv.copyPrefix srcSeq dstSeq len }) (h.of_core_eq' rfl rfl rfl rfl) dstSeq
  have hsrc := hmap srcSeq
  have hdstNone := hmap dstSeq
  rw [if_neg hne] at hsrc
  rw [if_pos rfl] at hdstNone
  unfold copyPrefix
  simp only [hsrc]
  split
  · rename_i hnone
    refine ⟨hacc, hdstNone.trans hnone.symm, ?_, hrows⟩
    intro t ht
    rw [hmap t, if_neg ht]
  · rename_i slot hslot
    have hlook := hsrc.trans hslot
    rw [if_pos (hacc.valid hlook)]
    have hbal := hacc.balanced.share hdstNone ⟨srcSeq, hlook⟩
    refine ⟨⟨hbal, ?_, hacc.card, ?_, hacc.zero⟩, ?_, ?_, hrows⟩
    · rw [List.length_set]
      exact hacc.slots
    · intro t j ht
      rw [GoMap.lookup_insert_ite] at ht
      split at ht
      · rename_i heq
        rw [heq]
        exact hdst
      · exact hacc.ids t j ht
    · rw [GoMap.lookup_insert_ite, if_pos rfl, hslot]
    · intro t ht
      rw [GoMap.lookup_insert_ite, if_neg ht, hmap t, if_neg ht]

theorem kv_remove_error (kv : Causal) (seq b e : Int) {backend : Option KvError}
    (hbackend : backend ≠ some .errKvCacheFull) :
    (kv.remove seq b e backend).2 ≠ some .errKvCacheFull := by
  simp only [Causal.remove]
  split
  · simp
  · simp only [Causal.resetRange, Causal.shift]
    split
    · simp
    · split
      · split
        · exact hbackend
        · simp
      · simp

/-- What `Remove` does to the slots and, if a restore is the sequence's `own`,
to what the other sequences read. -/
structure RemoveResult (ids : Finset Int) (c : Recurrent R) (seq : Int) (own : Prop)
    (out : Recurrent R × Option KvError) : Prop where
  accounted : out.1.Accounted ids
  error : out.2 ≠ some .errKvCacheFull
  reads : own → ∀ t, t ≠ seq → ∀ b, out.1.stateOf t b = c.stateOf t b
  mapped : ∀ t, t ≠ seq → out.1.slotForSeq.lookup t = c.slotForSeq.lookup t
  kept : c.slotForSeq.lookup seq = none → out.1.slotForSeq.lookup seq = none

theorem RemoveResult.refl {ids : Finset Int} {c : Recurrent R} (h : c.Accounted ids) (seq : Int)
    {own : Prop} {out : Recurrent R × Option KvError} (herr : out.2 ≠ some .errKvCacheFull)
    (hcore : out.1.core = c.core) : RemoveResult ids c seq own out := by
  have hmap : out.1.slotForSeq = c.slotForSeq := congrArg (fun k => k.pool.slotOf) hcore
  refine ⟨h.of_core_eq hcore, herr, fun _ t _ b => ?_, fun t _ => ?_, fun hnone => ?_⟩
  · rw [stateOf_of_core hcore]
  · rw [hmap]
  · rw [hmap]
    exact hnone

theorem RemoveResult.trans_core {ids : Finset Int} {c : Recurrent R} {seq : Int} {own : Prop}
    {out out' : Recurrent R × Option KvError} (h : RemoveResult ids c seq own out)
    (herr : out'.2 ≠ some .errKvCacheFull) (hcore : out'.1.core = out.1.core) :
    RemoveResult ids c seq own out' := by
  have h' : RemoveResult ids out.1 seq own out' := RemoveResult.refl h.accounted seq herr hcore
  refine ⟨h'.accounted, herr, fun hown t ht b => ?_, fun t ht => ?_, fun hnone => ?_⟩
  · exact (h'.reads hown t ht b).trans (h.reads hown t ht b)
  · exact (h'.mapped t ht).trans (h.mapped t ht)
  · exact h'.kept (h.kept hnone)

/-- Leaving a shared slot is no news to the other sequences. -/
theorem detach_result {ids : Finset Int} {c : Recurrent R} (h : c.Accounted ids) {seq : Int}
    {slot : Nat} (hslot : c.slotForSeq.lookup seq = some slot) (hshared : 1 < c.refs slot)
    (own : Prop) :
    ∃ new c', c.detach seq slot = some (new, c') ∧ RemoveResult ids c seq own (c', none) ∧
      c'.slotForSeq.lookup seq = some new ∧ c'.Private seq := by
  obtain ⟨new, c', heq, -, hacc, hstate, hpriv, hmap, -⟩ := detach_spec h hslot hshared
  refine ⟨new, c', heq, ⟨hacc, by simp, fun _ t _ b => by rw [hstate], fun t ht => ?_, ?_⟩, ?_, hpriv⟩
  · rw [hmap, GoMap.lookup_insert_ite, if_neg ht]
  · intro hnone
    rw [hslot] at hnone
    cases hnone
  · rw [hmap, GoMap.lookup_insert_ite, if_pos rfl]

theorem removeMiddle_result {ids : Finset Int} {c : Recurrent R} (h : c.Accounted ids)
    (seq b e : Int) {backend : Option KvError} (hbackend : backend ≠ some .errKvCacheFull)
    (own : Prop) : RemoveResult ids c seq own (c.removeMiddle seq b e backend) := by
  have hkv := kv_remove_error c.kv seq b e hbackend
  simp only [removeMiddle]
  split
  · rename_i err herr
    rw [herr] at hkv
    exact RemoveResult.refl h seq hkv rfl
  · split
    · exact RemoveResult.refl h seq (by simp) rfl
    · rename_i slot hslot
      split
      · exact RemoveResult.refl h seq (by simp) rfl
      · split
        · rename_i hshared
          obtain ⟨new, c', heq, hres, -, -⟩ := detach_result
            (c := { c with
              kv := (c.kv.remove seq b e backend).1
              pendingRestore := c.pendingRestore.erase seq }) (h.of_core_eq' rfl rfl rfl rfl)
            hslot hshared own
          simp only [heq]
          have hres' : RemoveResult ids c seq own (c', none) :=
            ⟨hres.accounted, hres.error, hres.reads, hres.mapped, hres.kept⟩
          exact hres'.trans_core (by simp) (updateStore_core _ _ _)
        · exact RemoveResult.refl h seq (by simp) (updateStore_core _ _ _)

omit [Inhabited R] in
theorem releaseSlot_core {c : Recurrent R} {slot : Nat} (hlt : slot < c.maxSequences) (seq : Int) :
    (c.releaseSlot seq slot).core = { c.core with pool := c.pool.release seq slot } := by
  rw [release_pool]
  unfold releaseSlot clearCheckpoints updateStore
  by_cases hz : c.refs slot - 1 = 0
  · simp only [hz, if_true]
    cases c.checkpoints.lookup slot <;> simp [freeSlot, setStore, hlt, core, pool]
  · simp only [hz, if_false]
    rfl

theorem releaseSlot_result {ids : Finset Int} {c : Recurrent R} (h : c.Accounted ids) {seq : Int}
    {slot : Nat} (hslot : c.slotForSeq.lookup seq = some slot) (own : Prop) :
    RemoveResult ids c seq own (c.releaseSlot seq slot, none) := by
  have hcore := releaseSlot_core (h.slot_lt hslot) seq
  have hpool : (c.releaseSlot seq slot).pool = c.pool.release seq slot := congrArg Core.pool hcore
  have hmap : (c.releaseSlot seq slot).slotForSeq = c.slotForSeq.erase seq :=
    congrArg SlotPool.slotOf hpool
  have hrows : (c.releaseSlot seq slot).rows = c.rows := congrArg Core.rows hcore
  refine ⟨h.of_release hslot hpool (congrArg Core.maxSequences hcore) (congrArg Core.buffers hcore)
    hrows, by simp, fun _ t ht b => ?_, fun t ht => ?_, fun _ => ?_⟩
  · unfold stateOf
    rw [hmap, hrows, GoMap.lookup_erase_ite, if_neg ht]
  · rw [hmap, GoMap.lookup_erase_ite, if_neg ht]
  · rw [hmap, GoMap.lookup_erase_ite, if_pos rfl]

theorem removeAll_result {ids : Finset Int} {c : Recurrent R} (h : c.Accounted ids)
    (seq b e : Int) {backend : Option KvError} (hbackend : backend ≠ some .errKvCacheFull)
    (own : Prop) : RemoveResult ids c seq own (c.removeAll seq b e backend) := by
  have hkv := kv_remove_error c.kv seq b e hbackend
  simp only [removeAll]
  split
  · rename_i err herr
    rw [herr] at hkv
    exact RemoveResult.refl h seq hkv rfl
  · split
    · exact RemoveResult.refl h seq (by simp) rfl
    · rename_i slot hslot
      have h' : ({ c with
          kv := (c.kv.remove seq b e backend).1
          pendingRestore := c.pendingRestore.erase seq } : Recurrent R).Accounted ids :=
        h.of_core_eq' rfl rfl rfl rfl
      have hres := releaseSlot_result h' hslot own
      simp only [h'.valid hslot, Bool.not_true, Bool.false_eq_true, if_false]
      exact ⟨hres.accounted, hres.error, hres.reads, hres.mapped, hres.kept⟩

/-! ## Going back to a checkpoint -/

/-- Restoring writes the rows of one slot. -/
theorem applyCheckpointRestore_spec {ids : Finset Int} {c : Recurrent R} (h : c.Accounted ids)
    (restore : CheckpointRestore) :
    (c.applyCheckpointRestore restore).1.Accounted ids ∧
      (c.applyCheckpointRestore restore).1.slotForSeq = c.slotForSeq ∧
      (∀ b j, j ≠ restore.slot → (c.applyCheckpointRestore restore).1.rows b j = c.rows b j) ∧
      (c.applyCheckpointRestore restore).2 ≠ some .errKvCacheFull := by
  have hfold : ∀ (es : List ((_ : StateBuffer) × R)) (c : Recurrent R), c.Accounted ids →
      let c' := es.foldl (fun c e => (c.ensureBuffer e.1).setRow e.1 restore.slot e.2) c
      c'.Accounted ids ∧ c'.slotForSeq = c.slotForSeq ∧
        ∀ b j, j ≠ restore.slot → c'.rows b j = c.rows b j := by
    intro es
    induction es with
    | nil => exact fun c h => ⟨h, rfl, fun _ _ _ => rfl⟩
    | cons e rest ih =>
      intro c h
      obtain ⟨hcore, hmem, -⟩ := ensureBuffer_core h e.1
      have hacc := h.ensureBuffer e.1
      have hset : ((c.ensureBuffer e.1).setRow e.1 restore.slot e.2).Accounted ids := by
        refine hacc.of_core rfl rfl ?_
        intro b hb j
        have hne : b ≠ e.1 := by
          rintro rfl
          exact hb hmem
        simp [setRow, hne, hacc.zero b hb]
      obtain ⟨hacc', hmap, hrows⟩ := ih _ hset
      refine ⟨hacc', hmap.trans (congrArg (fun k => k.pool.slotOf) hcore), fun b j hj => ?_⟩
      rw [List.foldl_cons, hrows b j hj, ← ensureBuffer_rows h e.1]
      simp [setRow, hj]
  unfold applyCheckpointRestore
  split
  · exact ⟨h, rfl, fun _ _ _ => rfl, by simp⟩
  · rename_i entry _
    obtain ⟨hacc, hmap, hrows⟩ := hfold entry.saved.entries c h
    have hcore := updateStore_core (entry.saved.entries.foldl
      (fun c e => (c.ensureBuffer e.1).setRow e.1 restore.slot e.2) c) restore.slot
      (fun store => store.pruneAfter restore.pos)
    refine ⟨hacc.of_core_eq hcore, (congrArg (fun k => k.pool.slotOf) hcore).trans hmap, ?_, by simp⟩
    intro b j hj
    have hrows' := congrArg Core.rows hcore
    exact (congrFun (congrFun hrows' b) j).trans (hrows b j hj)

/-- The restore that a `Remove` makes is the sequence's own: no other sequence has
the slot that `PrepareRestore` noted, or the sequence is about to move to a copy.
A restore of another position, or one that is not complete, is refused. -/
def RestoresOwn (c : Recurrent R) (seq beginIndex endIndex : Int) : Prop :=
  0 < beginIndex → endIndex = maxInt32 → ∀ restore ∈ c.pendingRestore.lookup seq,
    i32 (restore.pos + 1) = beginIndex → c.restoreComplete restore = true →
      (∃ slot, c.slotForSeq.lookup seq = some slot ∧ 1 < c.refs slot) ∨
        ∀ t slot, c.slotForSeq.lookup t = some slot → t = seq ∨ slot ≠ restore.slot

theorem detachRestore_result {ids : Finset Int} {c : Recurrent R} (h : c.Accounted ids) {seq : Int}
    {restore : CheckpointRestore} (hpending : c.pendingRestore.lookup seq = some restore)
    (own : Prop) :
    ∃ c' restore', c.detachRestore seq restore = (c', none) ∧ RemoveResult ids c seq own (c', none) ∧
      c'.pendingRestore.lookup seq = some restore' ∧
      ((∃ slot, c.slotForSeq.lookup seq = some slot ∧ 1 < c.refs slot) ∨
        (∀ t slot, c.slotForSeq.lookup t = some slot → t = seq ∨ slot ≠ restore.slot) →
        ∀ t slot, c'.slotForSeq.lookup t = some slot → t = seq ∨ slot ≠ restore'.slot) := by
  by_cases hshared : ∃ slot, c.slotForSeq.lookup seq = some slot ∧ 1 < c.refs slot
  · obtain ⟨slot, hslot, hrefs⟩ := hshared
    obtain ⟨new, c', heq, hres, hnew, hpriv⟩ := detach_result h hslot hrefs own
    refine ⟨{ c' with pendingRestore :=
        c'.pendingRestore.insert seq { restore with slot := new } }, { restore with slot := new },
      ?_, ⟨hres.accounted.of_core_eq' rfl rfl rfl rfl, hres.error, hres.reads, hres.mapped,
        hres.kept⟩, ?_, ?_⟩
    · simp [detachRestore, hslot, h.valid hslot, hrefs, heq]
    · simp
    · intro _ t j ht
      by_cases hj : j = new
      · subst hj
        exact .inl (hpriv t j hnew ht)
      · exact .inr hj
  · refine ⟨c, restore, ?_, RemoveResult.refl h seq (by simp) rfl, hpending,
      fun hown => hown.resolve_left hshared⟩
    unfold detachRestore
    split
    · rfl
    · rename_i slot hslot
      have hle : ¬1 < c.refs slot := fun hlt => hshared ⟨slot, hslot, hlt⟩
      simp [hle]

theorem removeTail_result {ids : Finset Int} {c : Recurrent R} (h : c.Accounted ids)
    {seq b : Int} (hb : 0 < b) {backend : Option KvError}
    (hbackend : backend ≠ some .errKvCacheFull) :
    RemoveResult ids c seq (c.RestoresOwn seq b maxInt32)
      (c.removeTail seq b maxInt32 backend) := by
  unfold removeTail
  split
  · exact RemoveResult.refl h seq (by simp) rfl
  · rename_i restore hpending
    split
    · exact RemoveResult.refl h seq (by simp) rfl
    · rename_i hpos
      split
      · exact RemoveResult.refl h seq (by simp) rfl
      · rename_i hcomplete
        have hmade : c.restoreComplete restore = true := by simpa using hcomplete
        obtain ⟨c', restore', heq, hres, hpending', hfree⟩ :=
          detachRestore_result h hpending (c.RestoresOwn seq b maxInt32)
        have hkv := kv_remove_error c'.kv seq b maxInt32 hbackend
        simp only [heq]
        split
        · rename_i err herr
          rw [herr] at hkv
          exact hres.trans_core hkv rfl
        · obtain ⟨hacc, hmap, hrows, herr⟩ := applyCheckpointRestore_spec
            (c := { c' with
              kv := (c'.kv.remove seq b maxInt32 backend).1
              pendingRestore := c'.pendingRestore.erase seq })
            (hres.accounted.of_core_eq' rfl rfl rfl rfl) restore'
          simp only [hpending', Option.getD_some]
          refine ⟨hacc, herr, fun hown t ht b' => ?_, fun t ht => ?_, fun hnone => ?_⟩
          · have hfree' := hfree (hown hb rfl restore hpending (not_not.mp hpos) hmade)
            rw [← hres.reads hown t ht b']
            unfold stateOf
            rw [hmap]
            cases hlook : c'.slotForSeq.lookup t with
            | none => rfl
            | some slot =>
              exact congrArg some (hrows b' slot ((hfree' t slot hlook).resolve_left ht))
          · rw [hmap]
            exact hres.mapped t ht
          · rw [hmap]
            exact hres.kept hnone

theorem remove_result {ids : Finset Int} {c : Recurrent R} (h : c.Accounted ids) (seq b e : Int)
    {backend : Option KvError} (hbackend : backend ≠ some .errKvCacheFull) :
    RemoveResult ids c seq (c.RestoresOwn seq b e) (c.remove seq b e backend) := by
  unfold remove
  split
  · exact removeMiddle_result h seq b e hbackend _
  · rename_i hmid
    split
    · rename_i hb
      have he : e = maxInt32 := by
        by_contra hne
        exact hmid ⟨hb, hne⟩
      subst he
      exact removeTail_result h hb hbackend
    · exact removeAll_result h seq b e hbackend _

/-! ## Runs -/

/-- A cache and whether a pass is open: between a successful `StartForward` and
the next `CopyPrefix` or `Remove`. -/
structure Session (R : Type*) where
  cache : Recurrent R
  inPass : Bool

inductive SessionOp (R : Type*)
  | startForward (batch : List Token) (order : List Int) (reserve : Bool)
  | read (b : StateBuffer) (dims : Option (List Int))
  | update (b : StateBuffer) (newState : List R)
  | copyPrefix (srcSeq dstSeq prefixLen : Int)
  | prepareRestore (seq targetPos : Int)
  | remove (seq beginIndex endIndex : Int) (backend : Option KvError)

namespace Session

def apply (s : Session R) : SessionOp R → Session R
  | .startForward batch order reserve =>
    let out := s.cache.startForward batch order reserve
    ⟨out.1, out.2.isNone && !batch.isEmpty⟩
  | .read b dims => ⟨(s.cache.readState b dims).1, s.inPass⟩
  | .update b newState => ⟨s.cache.updateState b newState, s.inPass⟩
  | .copyPrefix srcSeq dstSeq prefixLen => ⟨s.cache.copyPrefix srcSeq dstSeq prefixLen, false⟩
  | .prepareRestore seq targetPos => ⟨(s.cache.prepareRestore seq targetPos).1, s.inPass⟩
  | .remove seq b e backend => ⟨(s.cache.remove seq b e backend).1, false⟩

/-- The calls of a run over the sequences `ids`: state is read in a pass and
written after a read in that pass, one row for each sequence; memory is
reserved before any sequence has a slot. -/
def Guard (ids : Finset Int) (s : Session R) : SessionOp R → Prop
  | .startForward batch _ reserve =>
    (∀ t ∈ batch, t.seq ∈ ids) ∧ (reserve = true → s.cache.slotForSeq.keys = [])
  | .read _ _ => s.inPass = true
  | .update _ newState =>
    s.inPass = true ∧ s.cache.writableEnsured = true ∧
      newState.length = s.cache.curSeqs.length
  | .copyPrefix srcSeq dstSeq _ => srcSeq ≠ dstSeq ∧ srcSeq ∈ ids ∧ dstSeq ∈ ids
  | .prepareRestore seq _ => seq ∈ ids
  | .remove seq _ _ backend => seq ∈ ids ∧ (backend = none ∨ backend = some .shiftFailed)

instance (ids : Finset Int) (s : Session R) : (op : SessionOp R) → Decidable (s.Guard ids op)
  | .startForward batch _ reserve => inferInstanceAs (Decidable ((∀ t ∈ batch, t.seq ∈ ids) ∧
      (reserve = true → s.cache.slotForSeq.keys = [])))
  | .read _ _ => inferInstanceAs (Decidable (s.inPass = true))
  | .update _ newState => inferInstanceAs (Decidable (s.inPass = true ∧
      s.cache.writableEnsured = true ∧ newState.length = s.cache.curSeqs.length))
  | .copyPrefix srcSeq dstSeq _ =>
    inferInstanceAs (Decidable (srcSeq ≠ dstSeq ∧ srcSeq ∈ ids ∧ dstSeq ∈ ids))
  | .prepareRestore seq _ => inferInstanceAs (Decidable (seq ∈ ids))
  | .remove seq _ _ backend =>
    inferInstanceAs (Decidable (seq ∈ ids ∧ (backend = none ∨ backend = some .shiftFailed)))

end Session

/-- The recurrent cache from `Init` on, over any causal cache. -/
def sessionSys (R : Type*) [Inhabited R] (ids : Finset Int) (maxSequences : Nat) :
    TSys (Session R) (SessionOp R) :=
  TSys.ofFn
    (fun s => (∃ kv size, s.cache = newRecurrentCache kv size maxSequences) ∧ s.inPass = false)
    (Session.Guard ids) Session.apply

/-! ## The invariant -/

theorem newRecurrentCache_accounted {ids : Finset Int} {maxSequences : Nat}
    (hcard : ids.card ≤ maxSequences) (kv : Causal) (size : Nat) :
    (newRecurrentCache kv size maxSequences : Recurrent R).Accounted ids := by
  have howners : ∀ slot, (newRecurrentCache kv size maxSequences : Recurrent R).pool.owners slot = ∅ := by
    intro slot
    refine Finset.eq_empty_of_forall_notMem fun s hs => ?_
    rw [SlotPool.mem_owners] at hs
    simp [pool, newRecurrentCache] at hs
  refine ⟨⟨?_, ?_, List.nodup_range, ?_⟩, by simp [newRecurrentCache], hcard, ?_, fun _ _ _ => rfl⟩
  · intro slot n hn
    rw [howners]
    simp only [pool, newRecurrentCache, List.getElem?_replicate] at hn
    split at hn
    · injection hn with hn
      exact hn.symm
    · cases hn
  · intro s slot hs
    simp [pool, newRecurrentCache] at hs
  · intro slot
    rw [howners]
    simp [pool, newRecurrentCache]
  · intro s slot hs
    simp [newRecurrentCache] at hs

structure Session.Inv (ids : Finset Int) (s : Session R) : Prop where
  accounted : s.cache.Accounted ids
  pass : s.inPass = true →
    s.cache.Pass ∨ s.cache.Reserving ∧ s.cache.slotForSeq.keys = []

omit [Inhabited R] in
theorem lookup_of_keys_nil {c : Recurrent R} (h : c.slotForSeq.keys = []) (t : Int) :
    c.slotForSeq.lookup t = none := by
  by_contra hne
  obtain ⟨slot, hslot⟩ := Option.ne_none_iff_exists'.mp hne
  have hmem := (GoMap.mem_keys_iff _ _).mpr ⟨slot, hslot⟩
  rw [h] at hmem
  cases hmem

omit [Inhabited R] in
theorem stateOf_of_keys_nil {c : Recurrent R} (h : c.slotForSeq.keys = []) (t : Int)
    (b : StateBuffer) : c.stateOf t b = none := by
  unfold stateOf
  rw [lookup_of_keys_nil h]
  rfl

omit [Inhabited R] in
/-- A pass that only reserves memory has no slots to make writable. -/
theorem ensureWritableOnce_reserving {c : Recurrent R} (hkeys : c.slotForSeq.keys = []) :
    c.ensureWritableOnce = { c with writableEnsured := true } := by
  unfold ensureWritableOnce
  split
  · rename_i hens
    rw [← hens]
  · rw [if_neg]
    simp [lookup_of_keys_nil hkeys]

/-- It stays one, whatever it reads and writes. -/
structure ReserveResult (ids : Finset Int) (c : Recurrent R) : Prop where
  accounted : c.Accounted ids
  reserving : c.Reserving
  keys : c.slotForSeq.keys = []

theorem ReserveResult.ensureBuffer {ids : Finset Int} {c : Recurrent R}
    (h : ReserveResult ids c) (b : StateBuffer) : ReserveResult ids (c.ensureBuffer b) := by
  obtain ⟨hcore, -, -⟩ := ensureBuffer_core h.accounted b
  have hmap : (c.ensureBuffer b).slotForSeq = c.slotForSeq :=
    congrArg (fun k => k.pool.slotOf) hcore
  exact ⟨h.accounted.ensureBuffer b, ⟨(congrArg Core.reserveCheckpoints hcore).trans h.reserving.1,
    (congrArg Core.writableError hcore).trans h.reserving.2⟩, by rw [hmap]; exact h.keys⟩

theorem ReserveResult.of_core {ids : Finset Int} {c c' : Recurrent R} (h : ReserveResult ids c)
    (hcore : c'.core = c.core) : ReserveResult ids c' := by
  have hmap : c'.slotForSeq = c.slotForSeq := congrArg (fun k => k.pool.slotOf) hcore
  exact ⟨h.accounted.of_core_eq hcore,
    ⟨(congrArg Core.reserveCheckpoints hcore).trans h.reserving.1,
      (congrArg Core.writableError hcore).trans h.reserving.2⟩, by rw [hmap]; exact h.keys⟩

theorem readState_reserving {ids : Finset Int} {c : Recurrent R} (h : ReserveResult ids c)
    (b : StateBuffer) (dims : Option (List Int)) :
    ReserveResult ids (c.readState b dims).1 ∧
      ∀ err, (c.readState b dims).2 = .error err → err = .invalidRecurrentShape := by
  have hens : ReserveResult ids c.ensureWritableOnce := by
    rw [ensureWritableOnce_reserving h.keys]
    exact ⟨h.accounted.of_core_eq' rfl rfl rfl rfl, h.reserving, h.keys⟩
  unfold readState
  simp only [hens.reserving.2]
  split
  · exact ⟨hens.ensureBuffer b, by simp⟩
  · refine ⟨hens, fun err herr => ?_⟩
    injection herr with herr
    exact herr.symm

theorem updateState_reserving {ids : Finset Int} {c : Recurrent R} (h : ReserveResult ids c)
    (b : StateBuffer) (newState : List R) : ReserveResult ids (c.updateState b newState) := by
  have hbuf := h.ensureBuffer b
  unfold updateState
  simp only [hbuf.reserving.1, if_true]
  exact hbuf.of_core (captureCheckpoint_core _ _ _)

omit [Inhabited R] in
theorem prepareRestore_core (c : Recurrent R) (seq targetPos : Int) :
    (c.prepareRestore seq targetPos).1.core = c.core := by
  unfold prepareRestore
  split
  · rfl
  · split
    · rfl
    · split
      · rfl
      · split <;> rfl

theorem Session.apply_inv {ids : Finset Int} {s : Session R} (hinv : s.Inv ids)
    {op : SessionOp R} (hop : s.Guard ids op) : (s.apply op).Inv ids := by
  obtain ⟨h, hpass⟩ := hinv
  cases op with
  | startForward batch order reserve =>
    obtain ⟨hids, hreserve⟩ := hop
    have hres := startForward_result h hids order reserve
    refine ⟨hres.started.accounted, fun hopen => ?_⟩
    simp only [Session.apply, Bool.and_eq_true, Option.isNone_iff_eq_none] at hopen
    cases reserve with
    | false => exact .inl (hres.pass hopen.1 rfl)
    | true =>
      refine (hres.reserved hopen.1 rfl).imp id fun hr => ⟨hr, ?_⟩
      change (s.cache.startForward batch order true).1.slotForSeq.keys = []
      rw [startForward_reserve_map]
      exact hreserve rfl
  | read b dims =>
    rcases hpass hop with hp | ⟨hr, hkeys⟩
    · have hres := readState_result h hp b dims
      exact ⟨hres.accounted, fun _ => .inl hres.pass⟩
    · obtain ⟨hres, -⟩ := readState_reserving ⟨h, hr, hkeys⟩ b dims
      exact ⟨hres.accounted, fun _ => .inr ⟨hres.reserving, hres.keys⟩⟩
  | update b newState =>
    obtain ⟨hin, hens, hlen⟩ := hop
    rcases hpass hin with hp | ⟨hr, hkeys⟩
    · obtain ⟨hacc, hp', -⟩ := updateState_spec h hp hens b hlen
      exact ⟨hacc, fun _ => .inl hp'⟩
    · have hres := updateState_reserving ⟨h, hr, hkeys⟩ b newState
      exact ⟨hres.accounted, fun _ => .inr ⟨hres.reserving, hres.keys⟩⟩
  | copyPrefix srcSeq dstSeq len =>
    exact ⟨(copyPrefix_spec h hop.1 hop.2.2 len).1, by simp [Session.apply]⟩
  | prepareRestore seq targetPos =>
    have hcore := prepareRestore_core s.cache seq targetPos
    refine ⟨h.of_core_eq hcore, fun hin => (hpass hin).imp (fun hp => hp.of_core hcore) ?_⟩
    rintro ⟨hr, hkeys⟩
    have hres := ReserveResult.of_core ⟨h, hr, hkeys⟩ hcore
    exact ⟨hres.reserving, hres.keys⟩
  | remove seq b e backend =>
    have hbackend : backend ≠ some .errKvCacheFull := by
      rcases hop.2 with rfl | rfl <;> simp
    exact ⟨(remove_result h seq b e hbackend).accounted, by simp [Session.apply]⟩

theorem session_invariant {ids : Finset Int} {maxSequences : Nat}
    (hcard : ids.card ≤ maxSequences) :
    (sessionSys R ids maxSequences).Invariant (Session.Inv ids) := by
  refine TSys.Inductive.invariant { init := ?_, step := ?_ }
  · rintro ⟨c, inPass⟩ ⟨⟨kv, size, rfl⟩, rfl⟩
    exact ⟨newRecurrentCache_accounted hcard kv size, by simp⟩
  · rintro s op _ hinv ⟨hop, rfl⟩
    exact Session.apply_inv hinv hop

/-! ## What holds in every run -/

/-- The bookkeeping of the slots: `refCount` counts the sequences of a slot, and
`freeSlots` lists the slots without one, each once. -/
structure SlotsSound (c : Recurrent R) : Prop where
  refCount : ∀ slot < c.maxSequences, c.refs slot = (c.pool.owners slot).card
  nodup : c.freeSlots.Nodup
  free : ∀ slot, slot ∈ c.freeSlots ↔ slot < c.maxSequences ∧ c.refs slot = 0

theorem Accounted.slotsSound {ids : Finset Int} {c : Recurrent R} (h : c.Accounted ids) :
    c.SlotsSound where
  refCount := fun slot hlt => h.refs_eq hlt
  nodup := h.balanced.nodup
  free := by
    intro slot
    rw [show slot ∈ c.freeSlots ↔ _ from h.balanced.free_iff slot]
    change slot < c.refCount.length ∧ _ ↔ _
    rw [h.slots]
    refine and_congr_right fun hlt => ?_
    rw [h.refs_eq hlt, Finset.card_eq_zero]

/-- The call runs out of slots. -/
def AllocFails (c : Recurrent R) : SessionOp R → Prop
  | .startForward batch order reserve =>
    (c.startForward batch order reserve).2 = some .errKvCacheFull
  | .read b dims => (c.readState b dims).2 = .error .errKvCacheFull
  | .remove seq b e backend => (c.remove seq b e backend).2 = some .errKvCacheFull
  | _ => False

/-- The call is not about the state of sequence `t` in buffer `b`. -/
def Untouched (c : Recurrent R) : SessionOp R → Int → StateBuffer → Prop
  | .startForward batch _ _, t, _ => c.slotForSeq.lookup t ≠ none ∨ ∀ u ∈ batch, u.seq ≠ t
  | .update b' _, t, b => b ≠ b' ∨ t ∉ c.curSeqs
  | .copyPrefix _ dstSeq _, t, _ => t ≠ dstSeq
  | .remove seq _ _ _, t, _ => t ≠ seq
  | .read _ _, _, _ | .prepareRestore _ _, _, _ => True

/-- A call that goes back to a checkpoint does so in a slot of its own. -/
def RestoreInPlace (c : Recurrent R) : SessionOp R → Prop
  | .remove seq b e _ => c.RestoresOwn seq b e
  | _ => True

theorem Session.Inv.frame {ids : Finset Int} {s : Session R} (hinv : s.Inv ids) {op : SessionOp R}
    (hop : s.Guard ids op) (hrestore : s.cache.RestoreInPlace op) {t : Int} {b : StateBuffer}
    (ht : s.cache.Untouched op t b) : (s.apply op).cache.stateOf t b = s.cache.stateOf t b := by
  obtain ⟨h, hpass⟩ := hinv
  cases op with
  | startForward batch order reserve =>
    exact (startForward_result h hop.1 order reserve).started.reads t ht b
  | read b' dims =>
    rcases hpass hop with hp | ⟨hr, hkeys⟩
    · exact congrFun (congrFun (readState_result h hp b' dims).reads t) b
    · have hres := (readState_reserving ⟨h, hr, hkeys⟩ b' dims).1
      exact (stateOf_of_keys_nil hres.keys t b).trans (stateOf_of_keys_nil hkeys t b).symm
  | update b' newState =>
    obtain ⟨hin, hens, hlen⟩ := hop
    rcases hpass hin with hp | ⟨hr, hkeys⟩
    · exact (updateState_spec h hp hens b' hlen).2.2.2 t b ht
    · have hres := updateState_reserving ⟨h, hr, hkeys⟩ b' newState
      exact (stateOf_of_keys_nil hres.keys t b).trans (stateOf_of_keys_nil hkeys t b).symm
  | copyPrefix srcSeq dstSeq len =>
    obtain ⟨-, -, hmap, hrows⟩ := copyPrefix_spec h hop.1 hop.2.2 len
    change (s.cache.copyPrefix srcSeq dstSeq len).stateOf t b = _
    unfold stateOf
    rw [hmap t ht, hrows]
  | prepareRestore seq targetPos =>
    exact congrFun (congrFun (stateOf_of_core (prepareRestore_core s.cache seq targetPos)) t) b
  | remove seq b' e backend =>
    have hbackend : backend ≠ some .errKvCacheFull := by
      rcases hop.2 with rfl | rfl <;> simp
    exact (remove_result h seq b' e hbackend).reads hrestore t ht b

theorem Session.Inv.alloc {ids : Finset Int} {s : Session R} (hinv : s.Inv ids) {op : SessionOp R}
    (hop : s.Guard ids op) : ¬s.cache.AllocFails op := by
  obtain ⟨h, hpass⟩ := hinv
  cases op with
  | startForward batch order reserve => exact (startForward_result h hop.1 order reserve).error
  | read b dims =>
    intro hfail
    rcases hpass hop with hp | ⟨hr, hkeys⟩
    · cases (readState_result h hp b dims).error _ hfail
    · cases (readState_reserving ⟨h, hr, hkeys⟩ b dims).2 _ hfail
  | remove seq b e backend =>
    have hbackend : backend ≠ some .errKvCacheFull := by
      rcases hop.2 with rfl | rfl <;> simp
    exact (remove_result h seq b e hbackend).error
  | update b newState => exact id
  | copyPrefix srcSeq dstSeq len => exact id
  | prepareRestore seq targetPos => exact id

/-- In every reachable state the slots are accounted for, and of any next call:
it finds a slot if it needs one; a write gives each sequence of the pass its own
row; and, unless it goes back to a checkpoint in another sequence's slot, it
leaves alone what the others read. -/
theorem copy_on_write {ids : Finset Int} {maxSequences : Nat} (hcard : ids.card ≤ maxSequences)
    {s : Session R} (hreach : (sessionSys R ids maxSequences).Reachable s) :
    s.cache.SlotsSound ∧ ∀ op, s.Guard ids op →
      ¬s.cache.AllocFails op ∧
      (∀ b newState, op = .update b newState → s.cache.reserveCheckpoints = false →
        ∀ (i : Nat) (t : Int), s.cache.curSeqs[i]? = some t →
          (s.apply op).cache.stateOf t b = some (newState.getD i default)) ∧
      (s.cache.RestoreInPlace op → ∀ t b, s.cache.Untouched op t b →
        (s.apply op).cache.stateOf t b = s.cache.stateOf t b) := by
  have hinv := session_invariant hcard s hreach
  refine ⟨hinv.accounted.slotsSound, fun op hop => ⟨hinv.alloc hop, ?_, ?_⟩⟩
  · rintro b newState rfl hcomputed i t ht
    obtain ⟨hin, hens, hlen⟩ := hop
    rcases hinv.pass hin with hp | ⟨hr, -⟩
    · exact (updateState_spec hinv.accounted hp hens b hlen).2.2.1 i t ht
    · rw [hr.1] at hcomputed
      cases hcomputed
  · exact fun hrestore t b ht => hinv.frame hop hrestore ht

/-- Seventeen tokens, so that the pass leaves a checkpoint at position 16. -/
def promptBatch (seq : Int) : List Token := (List.range 17).map fun p => ⟨seq, p⟩

def convState : StateBuffer := ⟨.conv, 0⟩

/-- One pass over a batch: a read, then a write of the same row for everyone. -/
def passOps (batch : List Token) (order : List Int) (row : Nat) : List (SessionOp Nat) :=
  [.startForward batch order false, .read convState none, .update convState [row]]

/-- Sequence 2 forks off sequence 1 and then writes its state. -/
theorem copy_on_write_fork :
    let kv := ((newCausalCache 0 true).init 2 40 32).get rfl
    let ops := passOps (promptBatch 1) [1] 7 ++ [.copyPrefix 1 2 17,
      .startForward [⟨2, 17⟩] [1, 2] false, .read convState none]
    let s := ops.foldl Session.apply ⟨newRecurrentCache kv 1 2, false⟩
    (s.apply (.update convState [9])).cache.stateOf 1 convState = s.cache.stateOf 1 convState := by
  intro kv ops s
  have hinit : (sessionSys Nat {1, 2} 2).Reachable ⟨newRecurrentCache kv 1 2, false⟩ :=
    .init ⟨⟨kv, 1, rfl⟩, rfl⟩
  have hreach := TSys.Reachable.run hinit ops (by decide)
  exact ((copy_on_write (by decide) hreach).2 (.update convState [9])
    (by decide)).2.2 trivial 1 convState (.inr (by decide))

/-- `PrepareRestore` notes the slot that sequence 1 shares with its fork. Both
write, so that sequence 1 moves to a copy and sequence 2 keeps the slot; going
back to the checkpoint then puts the state of sequence 1 into it. -/
theorem stale_restore_overwrites :
    ∃ s : Session Nat, (sessionSys Nat {1, 2} 2).Reachable s ∧
      s.Guard {1, 2} (.remove 1 17 maxInt32 none) ∧
      s.cache.Untouched (.remove 1 17 maxInt32 none) 2 convState ∧
      s.cache.stateOf 2 convState = some 9 ∧
      (s.apply (.remove 1 17 maxInt32 none)).cache.stateOf 2 convState = some 7 := by
  let kv := ((newCausalCache 0 true).init 2 40 32).get rfl
  let ops := passOps (promptBatch 1) [1] 7 ++ [.copyPrefix 1 2 17, .prepareRestore 1 17] ++
    passOps [⟨1, 17⟩] [1, 2] 8 ++ passOps [⟨2, 17⟩] [1, 2] 9
  have hinit : (sessionSys Nat {1, 2} 2).Reachable ⟨newRecurrentCache kv 1 2, false⟩ :=
    .init ⟨⟨kv, 1, rfl⟩, rfl⟩
  refine ⟨_, TSys.Reachable.run hinit ops (by decide), ?_, ?_, ?_, ?_⟩
  · decide
  · simp [Untouched]
  · decide +kernel
  · decide +kernel

end Recurrent

end Prismalama.Kvcache
