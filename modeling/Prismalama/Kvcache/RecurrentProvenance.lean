import Prismalama.Kvcache.RecurrentCapture

/-!
# Provenance of checkpoints over runs

The checkpoints of a sequence come from its origin as long as a slot that goes
back to the free stack has no live checkpoints. `Remove` clears them;
`CopyPrefix` frees the slot of its destination without clearing it, and the
next sequence on that slot finds the checkpoints of a stranger
(`freed_slot_offers_stranger`).
-/

namespace Prismalama.Kvcache

open Prismalama.Lib

namespace Recurrent

/-! ## Runs -/

/-- A cache with the number of passes made and the origin of each sequence. -/
structure Trace where
  cache : Recurrent (Option Tag)
  passes : Nat
  origin : Int → List Tag

inductive TraceOp
  | startForward (batch : List Token) (order : List Int) (reserve : Bool)
  | pass (batch : List Token) (order : List Int) (reserve : Bool)
  | ensureWritable
  | copyPrefix (srcSeq dstSeq prefixLen : Int)
  | prepareRestore (seq targetPos : Int)
  | remove (seq beginIndex endIndex : Int) (backend : Option KvError)

namespace Trace

/-- The effect of a call. `startForward` plans a pass that captures nothing,
`pass` runs its graph too. -/
def apply (layers : List StateBuffer) (T : Trace) : TraceOp → Trace
  | .startForward batch order reserve =>
    { T with cache := (T.cache.startForward batch order reserve).1 }
  | .pass batch order reserve =>
    let out := T.cache.startForward batch order reserve
    match out.2 with
    | some _ => { T with cache := out.1 }
    | none =>
      { cache := runLayers T.passes layers out.1
        passes := T.passes + 1
        origin := fun s =>
          if reserve = false ∧ ∃ t ∈ batch, t.seq = s then (s, T.passes) :: T.origin s
          else T.origin s }
  | .ensureWritable => { T with cache := T.cache.ensureWritableAll.1 }
  | .copyPrefix srcSeq dstSeq len =>
    { T with
      cache := T.cache.copyPrefix srcSeq dstSeq len
      origin := Function.update T.origin dstSeq (T.origin srcSeq) }
  | .prepareRestore seq targetPos => { T with cache := (T.cache.prepareRestore seq targetPos).1 }
  | .remove seq b e backend =>
    let out := T.cache.remove seq b e backend
    { T with
      cache := out.1
      origin := if b ≤ 0 ∧ out.2 = none then Function.update T.origin seq [] else T.origin }

/-- The calls of a run over the sequences `ids`. -/
def Guard (ids : Finset Int) : TraceOp → Prop
  | .startForward batch _ _ => ∀ t ∈ batch, t.seq ∈ ids
  | .pass batch _ _ => batch ≠ [] ∧ ∀ t ∈ batch, t.seq ∈ ids
  | .copyPrefix srcSeq dstSeq _ => srcSeq ≠ dstSeq ∧ srcSeq ∈ ids ∧ dstSeq ∈ ids
  | .remove seq _ _ backend => seq ∈ ids ∧ (backend = none ∨ backend = some .shiftFailed)
  | .ensureWritable | .prepareRestore _ _ => True

instance (ids : Finset Int) : (op : TraceOp) → Decidable (Guard ids op)
  | .startForward batch _ _ => inferInstanceAs (Decidable (∀ t ∈ batch, t.seq ∈ ids))
  | .pass batch _ _ => inferInstanceAs (Decidable (batch ≠ [] ∧ ∀ t ∈ batch, t.seq ∈ ids))
  | .copyPrefix srcSeq dstSeq _ =>
    inferInstanceAs (Decidable (srcSeq ≠ dstSeq ∧ srcSeq ∈ ids ∧ dstSeq ∈ ids))
  | .remove seq _ _ backend =>
    inferInstanceAs (Decidable (seq ∈ ids ∧ (backend = none ∨ backend = some .shiftFailed)))
  | .ensureWritable => .isTrue trivial
  | .prepareRestore _ _ => .isTrue trivial

/-- A `CopyPrefix` that frees the slot of its destination finds it without live
checkpoints. -/
def KeepsClean (T : Trace) : TraceOp → Prop
  | .copyPrefix _ dstSeq _ => T.cache.FreesClean dstSeq
  | _ => True

instance (T : Trace) : (op : TraceOp) → Decidable (T.KeepsClean op)
  | .copyPrefix _ dstSeq _ => inferInstanceAs (Decidable (∀ slot ∈ T.cache.slotForSeq.lookup dstSeq,
      T.cache.refs slot ≤ 1 → Dead (T.cache.storeOf slot)))
  | .startForward _ _ _ => .isTrue trivial
  | .pass _ _ _ => .isTrue trivial
  | .ensureWritable => .isTrue trivial
  | .prepareRestore _ _ => .isTrue trivial
  | .remove _ _ _ _ => .isTrue trivial

/-- What is saved in an entry is what one pass of `tags` wrote, in all `layers`. -/
def SavedBy (layers : List StateBuffer) (tags : List Tag) (e : CheckpointEntry (Option Tag)) :
    Prop :=
  ∃ tag ∈ tags, ∀ b row, e.saved.lookup b = some row ↔ b ∈ layers ∧ row = some tag

/-- The live checkpoints in the slot of a sequence come from its origin. -/
def Provenance (layers : List StateBuffer) (T : Trace) : Prop :=
  ∀ seq slot, T.cache.slotForSeq.lookup seq = some slot →
    ∀ e ∈ (T.cache.storeOf slot).entries, 0 ≤ e.pos → SavedBy layers (T.origin seq) e

/-- What `PrepareRestore` offers a sequence comes from its origin. -/
def OffersOwn (layers : List StateBuffer) (T : Trace) : Prop :=
  ∀ seq targetPos kept, (T.cache.prepareRestore seq targetPos).2 = some kept →
    ∃ restore e,
      (T.cache.prepareRestore seq targetPos).1.pendingRestore.lookup seq = some restore ∧
      (T.cache.storeOf restore.slot).entries[restore.idx]? = some e ∧
      e.pos = restore.pos ∧ kept = e.pos + 1 ∧ e.pos < targetPos ∧
      SavedBy layers (T.origin seq) e

end Trace

/-- The recurrent cache from `Init` on, over any causal cache and for a model
with the state buffers `layers`. -/
def traceSys (layers : List StateBuffer) (ids : Finset Int) (maxSequences : Nat) :
    TSys Trace TraceOp :=
  TSys.ofFn
    (fun T => (∃ kv size, T.cache = newRecurrentCache kv size maxSequences) ∧
      T.origin = fun _ => [])
    (fun _ => Trace.Guard ids) (Trace.apply layers)

structure Trace.Inv (ids : Finset Int) (layers : List StateBuffer) (T : Trace) : Prop where
  accounted : T.cache.Accounted ids
  traced : Traced layers T.origin T.cache

theorem newRecurrentCache_traced {layers : List StateBuffer} (kv : Causal) (size n : Nat) :
    Traced layers (fun _ => []) (newRecurrentCache kv size n : Recurrent (Option Tag)) where
  clean := fun _ _ => newSlotCheckpointStore_dead _
  source := by
    intro s slot hs
    simp [newRecurrentCache] at hs
  saved := fun _ => newSlotCheckpointStore_savedIn layers _

theorem Trace.pass_inv {ids : Finset Int} {layers : List StateBuffer} {T : Trace}
    (hinv : T.Inv ids layers) {batch : List Token} (hne : batch ≠ [])
    (hids : ∀ t ∈ batch, t.seq ∈ ids) (order : List Int) (reserve : Bool) :
    (T.apply layers (.pass batch order reserve)).Inv ids layers := by
  obtain ⟨hacc, h⟩ := hinv
  have hres := startForward_result hacc hids order reserve
  have hstarted := startForward_traced h batch order reserve
  simp only [Trace.apply]
  split
  · exact ⟨hres.started.accounted, hstarted⟩
  · rename_i hok
    have hplan := startForward_planned hne hok
    cases reserve with
    | true =>
      obtain ⟨hacc', h'⟩ := runLayers_reserve T.passes layers _ hres.started.accounted hstarted
        hplan.reserve fun _ hb => hb
      exact ⟨hacc', by simpa using h'⟩
    | false =>
      let origin' : Int → List Tag := fun s =>
        if false = false ∧ ∃ t ∈ batch, t.seq = s then (s, T.passes) :: T.origin s else T.origin s
      have hsub : ∀ s, ∀ tag ∈ T.origin s, tag ∈ origin' s := by
        intro s tag htag
        simp only [origin']
        split
        · exact List.mem_cons_of_mem _ htag
        · exact htag
      have hnew : ∀ t ∈ batch, (t.seq, T.passes) ∈ origin' t.seq := by
        intro t ht
        simp only [origin']
        rw [if_pos ⟨trivial, t, ht, rfl⟩]
        exact List.mem_cons_self
      obtain ⟨hacc', h'⟩ := runLayers_traced hres.started.accounted hstarted (hres.pass hok rfl)
        hplan hsub hnew
      exact ⟨hacc', h'⟩

theorem Trace.remove_inv {ids : Finset Int} {layers : List StateBuffer} {T : Trace}
    (hinv : T.Inv ids layers) (seq b e : Int) {backend : Option KvError}
    (hbackend : backend = none ∨ backend = some .shiftFailed) :
    (T.apply layers (.remove seq b e backend)).Inv ids layers := by
  obtain ⟨hacc, h⟩ := hinv
  have hbackend' : backend ≠ some .errKvCacheFull := by
    rcases hbackend with rfl | rfl <;> simp
  refine ⟨(remove_result hacc seq b e hbackend').accounted, ?_⟩
  simp only [Trace.apply, remove]
  split
  · rename_i hmid
    rw [if_neg (by omega)]
    exact removeMiddle_traced hacc h seq b e backend
  · split
    · rw [if_neg (by omega)]
      exact removeTail_traced hacc h seq b e backend
    · rename_i hb
      have hle : b ≤ 0 := by omega
      simpa [hle] using removeAll_traced hacc h seq b e backend

theorem Trace.apply_inv {ids : Finset Int} {layers : List StateBuffer} {T : Trace}
    (hinv : T.Inv ids layers) {op : TraceOp} (hop : Trace.Guard ids op) (hclean : T.KeepsClean op) :
    (T.apply layers op).Inv ids layers := by
  obtain ⟨hacc, h⟩ := hinv
  cases op with
  | startForward batch order reserve =>
    exact ⟨(startForward_result hacc hop order reserve).started.accounted,
      startForward_traced h batch order reserve⟩
  | pass batch order reserve => exact Trace.pass_inv ⟨hacc, h⟩ hop.1 hop.2 order reserve
  | ensureWritable =>
    obtain ⟨hacc', h', -⟩ := ensureWritableFrom_traced T.cache.curSeqs T.cache 0 hacc h
    exact ⟨hacc', h'⟩
  | copyPrefix srcSeq dstSeq len =>
    exact ⟨(copyPrefix_spec hacc hop.1 hop.2.2 len).1, copyPrefix_traced hacc h hop.1 hclean len⟩
  | prepareRestore seq targetPos =>
    have hcore := prepareRestore_core T.cache seq targetPos
    refine ⟨hacc.of_core_eq hcore, h.of_eq (congrArg (fun k => k.pool.slotOf) hcore)
      (congrArg (fun k => k.pool.free) hcore) ?_⟩
    simp only [Trace.apply, prepareRestore]
    split
    · rfl
    · split
      · rfl
      · split
        · rfl
        · split <;> rfl
  | remove seq b e backend => exact Trace.remove_inv ⟨hacc, h⟩ seq b e hop.2

theorem trace_invariant {ids : Finset Int} {maxSequences : Nat} (hcard : ids.card ≤ maxSequences)
    (layers : List StateBuffer) :
    ((traceSys layers ids maxSequences).restrict Trace.KeepsClean).Invariant
      (Trace.Inv ids layers) := by
  refine TSys.Inductive.invariant { init := ?_, step := ?_ }
  · rintro ⟨c, n, origin⟩ ⟨⟨kv, size, rfl⟩, rfl⟩
    exact ⟨newRecurrentCache_accounted hcard kv size, newRecurrentCache_traced kv size _⟩
  · rintro T op _ hinv ⟨hclean, hop, rfl⟩
    exact Trace.apply_inv hinv hop hclean

/-! ## What holds in every run -/

theorem bestIndexFrom_spec {R : Type*} {store : SlotCheckpointStore R} {targetPos : Int}
    (es : List (CheckpointEntry R)) : ∀ (i : Nat) (best : Option (Nat × Int)),
      store.entries.drop i = es →
      (∀ x ∈ best, ∃ e, store.entries[x.1]? = some e ∧ e.pos = x.2 ∧ 0 ≤ e.pos ∧ e.pos < targetPos) →
      ∀ x ∈ SlotCheckpointStore.bestIndexFrom targetPos i es best,
        ∃ e, store.entries[x.1]? = some e ∧ e.pos = x.2 ∧ 0 ≤ e.pos ∧ e.pos < targetPos := by
  induction es with
  | nil => exact fun i best _ hbest => hbest
  | cons entry rest ih =>
    intro i best hdrop hbest
    have hget : store.entries[i]? = some entry := by
      rw [← List.head?_drop, hdrop]
      rfl
    refine ih (i + 1) _ (by rw [← List.drop_drop, hdrop]; rfl) ?_
    split
    · exact hbest
    · rename_i hpos
      split
      · intro x hx
        rw [Option.mem_def, Option.some.injEq] at hx
        subst hx
        exact ⟨entry, hget, rfl, by omega, by omega⟩
      · exact hbest

/-- The best checkpoint is a live entry below the target. -/
theorem bestIndex_spec {R : Type*} {store : SlotCheckpointStore R} {targetPos : Int} {idx : Nat}
    {pos : Int} (h : store.bestIndex targetPos = some (idx, pos)) :
    ∃ e, store.entries[idx]? = some e ∧ e.pos = pos ∧ 0 ≤ e.pos ∧ e.pos < targetPos :=
  bestIndexFrom_spec store.entries 0 none rfl (by simp) (idx, pos) h

theorem Trace.Inv.provenance {ids : Finset Int} {layers : List StateBuffer} {T : Trace}
    (h : T.Inv ids layers) : T.Provenance layers := by
  intro seq slot hslot e he hlive
  obtain ⟨tag, htag, hrows⟩ := h.traced.source seq slot hslot e he hlive
  refine ⟨tag, htag, fun b row => ⟨fun hrow => ?_, ?_⟩⟩
  · have hb := h.traced.saved slot e he b row hrow
    rw [hrows b hb, Option.some.injEq] at hrow
    exact ⟨hb, hrow.symm⟩
  · rintro ⟨hb, rfl⟩
    exact hrows b hb

theorem Trace.Provenance.offersOwn {layers : List StateBuffer} {T : Trace}
    (h : T.Provenance layers) : T.OffersOwn layers := by
  intro seq targetPos kept hkept
  unfold prepareRestore at hkept ⊢
  split at hkept
  · cases hkept
  · rename_i hpos
    rw [if_neg hpos]
    split at hkept
    · cases hkept
    · rename_i slot hslot
      split at hkept
      · cases hkept
      · rename_i store hstore
        split at hkept
        · cases hkept
        · rename_i idx pos hbest
          injection hkept with hkept
          obtain ⟨e, he, hepos, hlive, hlt⟩ := bestIndex_spec hbest
          have hstoreOf : T.cache.storeOf slot = store := by
            unfold storeOf
            rw [hstore]
            rfl
          refine ⟨⟨slot, idx, pos⟩, e, AList.lookup_insert _, ?_, hepos, ?_, hlt, ?_⟩
          · rw [hstoreOf]
            exact he
          · rw [hepos]
            exact hkept.symm
          · exact h seq slot hslot e (by rw [hstoreOf]; exact List.mem_of_getElem? he) hlive

/-- In every run whose `CopyPrefix` calls free only slots without live
checkpoints, the checkpoints in the slot of a sequence, and so those that
`PrepareRestore` offers, were captured by passes of the sequence or of those it
was copied from, since it was last cleared. -/
theorem checkpoint_provenance {ids : Finset Int} {maxSequences : Nat}
    (hcard : ids.card ≤ maxSequences) {layers : List StateBuffer} {T : Trace}
    (hreach : ((traceSys layers ids maxSequences).restrict Trace.KeepsClean).Reachable T) :
    T.Provenance layers ∧ T.OffersOwn layers :=
  have hprov := (trace_invariant hcard layers T hreach).provenance
  ⟨hprov, hprov.offersOwn⟩

/-- A cache with three slots and nothing in it. -/
def emptyTrace : Trace :=
  ⟨newRecurrentCache (((newCausalCache 0 true).init 3 40 32).get rfl) 1 3, 0, fun _ => []⟩

/-- Sequence 2 forks off sequence 1, and both go on. -/
theorem checkpoint_provenance_fork :
    let T := [.pass (promptBatch 1) [1] false, .copyPrefix 1 2 17, .pass [⟨2, 17⟩] [1, 2] false,
      .prepareRestore 1 17].foldl (Trace.apply [convState]) emptyTrace
    T.Provenance [convState] ∧ T.OffersOwn [convState] := by
  intro T
  have hinit : ((traceSys [convState] {1, 2, 3} 3).restrict Trace.KeepsClean).Reachable emptyTrace :=
    .init ⟨⟨_, _, rfl⟩, rfl⟩
  have hreach : ((traceSys [convState] {1, 2, 3} 3).restrict Trace.KeepsClean).Reachable T :=
    TSys.Reachable.run_restrict hinit _ (by decide)
  exact checkpoint_provenance (by decide) hreach

/-- Sequence 1 leaves a checkpoint in slot 0. `CopyPrefix` of sequence 2 over it
frees the slot, sequence 3 takes it and is offered the checkpoint. -/
theorem freed_slot_offers_stranger :
    ∃ T, (traceSys [convState] {1, 2, 3} 3).Reachable T ∧ ¬T.Provenance [convState] ∧
      ¬T.OffersOwn [convState] := by
  let ops : List TraceOp := [.pass (promptBatch 1) [1] false, .pass [⟨2, 0⟩] [1, 2] false,
    .copyPrefix 2 1 1, .pass [⟨3, 0⟩] [1, 2, 3] false]
  let T := ops.foldl (Trace.apply [convState]) emptyTrace
  have hinit : (traceSys [convState] {1, 2, 3} 3).Reachable emptyTrace := .init ⟨⟨_, _, rfl⟩, rfl⟩
  have hstranger : ∀ e, (T.cache.storeOf 0).entries[0]? = some e →
      ¬Trace.SavedBy [convState] (T.origin 3) e := by
    rintro e he ⟨tag, htag, hrows⟩
    have htags : T.origin 3 = [(3, 2)] := by decide +kernel
    have hsaved : (T.cache.storeOf 0).entries[0]?.bind (fun e => e.saved.lookup convState) =
        some (some (1, 0)) := by decide +kernel
    rw [he] at hsaved
    rw [htags, List.mem_singleton] at htag
    have hrow := ((hrows convState (some (1, 0))).mp hsaved).2
    rw [htag] at hrow
    cases hrow
  refine ⟨T, TSys.Reachable.run hinit ops (by decide), fun hprov => ?_, fun hoffers => ?_⟩
  · obtain ⟨e, he, hlive⟩ : ∃ e, (T.cache.storeOf 0).entries[0]? = some e ∧ 0 ≤ e.pos := by
      have hpos : (T.cache.storeOf 0).entries[0]?.map CheckpointEntry.pos = some 16 := by
        decide +kernel
      obtain ⟨e, he, hpos⟩ := Option.map_eq_some_iff.mp hpos
      exact ⟨e, he, by omega⟩
    exact hstranger e he (hprov 3 0 (by decide +kernel) e (List.mem_of_getElem? he) hlive)
  · obtain ⟨restore, e, hpending, he, -, -, -, hsaved⟩ := hoffers 3 17 17 (by decide +kernel)
    have hrestore : (T.cache.prepareRestore 3 17).1.pendingRestore.lookup 3 = some ⟨0, 0, 16⟩ := by
      decide +kernel
    rw [hrestore, Option.some.injEq] at hpending
    subst hpending
    exact hstranger e he hsaved

end Recurrent

end Prismalama.Kvcache
