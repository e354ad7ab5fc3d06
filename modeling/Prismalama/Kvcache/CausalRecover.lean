import Prismalama.Kvcache.CausalShift

/-!
# After a `Remove` that failed (`kvcache/causal.go`)

A failed `Remove` leaves some memberships deleted and some cells moved. The contract of `Cache` has
the caller remove the whole sequence then, which erases it and leaves the others as they were, where
positions are those of tokens and no call removes a range that is none.
-/

namespace Prismalama.Kvcache

open Prismalama.Lib

namespace Causal

/-- A position below `math.MaxInt32`, which stands for the end of a sequence -/
def IsPosition (p : Int) : Prop := 0 ≤ p ∧ p < maxInt32

instance : DecidablePred IsPosition := fun p =>
  inferInstanceAs (Decidable (0 ≤ p ∧ p < maxInt32))

/-- Calls on positions and ranges of positions -/
def OnRanges : Op → Prop
  | .startForward batch order => TokensIn IsPosition (.startForward batch order)
  | .remove _ b e _ => 0 ≤ b ∧ b ≤ e ∧ e ≤ maxInt32
  | .setCausal _ | .copyPrefix .. => True

instance : DecidablePred OnRanges
  | .startForward batch order =>
    inferInstanceAs (Decidable (TokensIn IsPosition (.startForward batch order)))
  | .remove _ b e _ => inferInstanceAs (Decidable (0 ≤ b ∧ b ≤ e ∧ e ≤ maxInt32))
  | .setCausal _ | .copyPrefix .. => .isTrue trivial

def rangesSys (cfg : CausalConfig) (maxSequences capacity maxBatch : Nat) : TSys Causal Op :=
  (causalSys cfg maxSequences capacity maxBatch).restrict fun _ op => OnRanges op

theorem isPosition_moved {b e q : Int} (h0 : 0 ≤ b) (hbe : b ≤ e) (hq : IsPosition q)
    (hge : e ≤ q) : IsPosition (i32 (q + removeOffset b e)) := by
  obtain ⟨hlo, hhi⟩ := hq
  rw [i32_moved h0 hbe (hge.trans_lt hhi) hge hhi.le]
  exact ⟨by omega, by omega⟩

theorem onRanges_invariant (cfg : CausalConfig) (maxSequences capacity maxBatch : Nat) :
    (rangesSys cfg maxSequences capacity maxBatch).Invariant (Positions IsPosition) := by
  refine TSys.Invariant.relative (Q := Wf)
    ((wf_invariant cfg maxSequences capacity maxBatch).restrict _) ?_ ?_
  · exact fun c hinit s p j hst => absurd hst (init_not_stores hinit s p j)
  · rintro c op _ hwf hpos ⟨hranges, hop, rfl⟩
    have htokens : TokensIn IsPosition op := by
      cases op with
      | startForward batch order => exact hranges
      | setCausal | copyPrefix | remove => trivial
    refine apply_positions hwf hpos hop htokens ?_
    rintro seq b e backend rfl q hq hge
    exact isPosition_moved hranges.1 hranges.2.1 hq hge

/-! ## The follow-up call -/

/-- Only a cell beyond the range stops the loop. -/
theorem removeLoop_fails {seq b e offset : Int} {cells : List CacheCell}
    (h : (removeLoop seq b e offset cells).2 = true) :
    ∃ cell ∈ cells, seq ∈ cell.sequences ∧ e ≤ cell.pos := by
  induction cells with
  | nil => cases h
  | cons cell rest ih =>
    have hrest : (removeLoop seq b e offset rest).2 = true →
        ∃ x ∈ cell :: rest, seq ∈ x.sequences ∧ e ≤ x.pos := fun hfail => by
      obtain ⟨x, hx, hseq⟩ := ih hfail
      exact ⟨x, List.mem_cons_of_mem _ hx, hseq⟩
    rw [removeLoop] at h
    split at h
    · next hmem =>
      split at h
      · exact hrest h
      · split at h
        · next hge => exact ⟨cell, List.mem_cons_self, List.contains_iff_mem.mp hmem, hge⟩
        · exact hrest h
    · exact hrest h

section Remove

variable {c : Causal} {seq : Int}

/-- Removing a tail is never stopped. -/
theorem removeFails_tail (hpos : Positions IsPosition c) (b : Int) :
    c.removeFails seq b maxInt32 = false := by
  cases hfail : c.removeFails seq b maxInt32 with
  | false => rfl
  | true =>
    obtain ⟨cell, hcell, hmem, hge⟩ := removeLoop_fails hfail
    obtain ⟨j, hj⟩ := List.mem_iff_getElem?.mp hcell
    have hlt := (hpos seq cell.pos j ⟨cell, hj, hmem, rfl⟩).2
    omega

theorem remove_lookup_ne {b e s : Int} (backend : Option KvError) (hs : s ≠ seq) :
    (c.remove seq b e backend).1.cellRanges.lookup s = c.cellRanges.lookup s := by
  cases hfail : c.removeFails seq b e with
  | true => rw [remove_of_fails backend hfail]
  | false =>
    rw [remove_of_ok backend hfail, resetRange]
    dsimp only
    split
    · rw [GoMap.lookup_erase_ite, if_neg hs]
    · rw [GoMap.lookup_insert_ite, if_neg hs]

/-- A range into which no cell was taken -/
theorem extendFrom_none {p : Nat → CacheCell → Bool} {cells : List CacheCell} (i : Nat)
    (r : CellRange) (h : ∀ k, ∀ cell ∈ cells, p k cell = false) : extendFrom p i cells r = r := by
  induction cells generalizing i with
  | nil => rfl
  | cons cell rest ih =>
    rw [extendFrom, h i cell List.mem_cons_self, if_neg Bool.false_ne_true]
    exact ih (i + 1) fun k x hx => h k x (List.mem_cons_of_mem _ hx)

/-- Removing everything erases the sequence. -/
theorem remove_all (hpos : Positions IsPosition c) (backend : Option KvError) :
    (c.remove seq 0 maxInt32 backend).2 = none ∧
      (∀ p j, ¬(c.remove seq 0 maxInt32 backend).1.Stores seq p j) ∧
      (c.remove seq 0 maxInt32 backend).1.cellRanges.lookup seq = none := by
  have hok := @removeFails_tail c seq hpos 0
  have hgone : ∀ p j, ¬(c.remove seq 0 maxInt32 backend).1.Stores seq p j := by
    intro p j hst
    obtain ⟨q, hold, hout, -⟩ := (remove_stores_of_ok hok).mp hst
    exact hout (hpos seq q j hold)
  have hcells := remove_cells c seq 0 maxInt32 backend
  have hempty : extendWhere newRange (fun _ cell => cell.sequences.contains seq)
      (removeLoop seq 0 maxInt32 (removeOffset 0 maxInt32) c.cells).1 = newRange := by
    refine extendFrom_none 0 newRange fun _ cell hcell => ?_
    obtain ⟨j, hj⟩ := List.mem_iff_getElem?.mp hcell
    rw [← Bool.not_eq_true, List.contains_iff_mem]
    exact fun hmem => hgone cell.pos j ⟨cell, by rw [hcells, hj], hmem, rfl⟩
  have herased : c.remove seq 0 maxInt32 backend =
      ({ c with
        cells := (removeLoop seq 0 maxInt32 (removeOffset 0 maxInt32) c.cells).1
        cellRanges := c.cellRanges.erase seq }, none) := by
    rw [remove_of_ok backend hok]
    exact if_pos hempty
  refine ⟨by rw [herased], hgone, ?_⟩
  rw [herased]
  exact AList.lookup_erase seq c.cellRanges

end Remove

/-- After a failed `Remove`, removing everything succeeds and leaves the state from before with the
sequence erased. -/
theorem remove_recoverable {cfg : CausalConfig} {maxSequences capacity maxBatch : Nat}
    {c c' : Causal} (hreach : (rangesSys cfg maxSequences capacity maxBatch).Reachable c)
    {seq b e : Int} {backend : Option KvError} {err : KvError} (h0 : 0 ≤ b) (hbe : b ≤ e)
    (hfail : c.remove seq b e backend = (c', some err)) (backend' : Option KvError) :
    (c'.remove seq 0 maxInt32 backend').2 = none ∧
    (∀ p j, ¬(c'.remove seq 0 maxInt32 backend').1.Stores seq p j) ∧
    (c'.remove seq 0 maxInt32 backend').1.cellRanges.lookup seq = none ∧
    ∀ s, s ≠ seq →
      (∀ p j, (c'.remove seq 0 maxInt32 backend').1.Stores s p j ↔ c.Stores s p j) ∧
      (c'.remove seq 0 maxInt32 backend').1.cellRanges.lookup s = c.cellRanges.lookup s := by
  have hpos := onRanges_invariant cfg maxSequences capacity maxBatch c hreach
  have hstate : (c.remove seq b e backend).1 = c' := by rw [hfail]
  have hpos' : Positions IsPosition c' := by
    rw [← hstate]
    exact remove_positions hpos fun q hq hge => isPosition_moved h0 hbe hq hge
  obtain ⟨herr, hgone, hrange⟩ := @remove_all c' seq hpos' backend'
  refine ⟨herr, hgone, hrange, fun s hs => ⟨fun p j => ?_, ?_⟩⟩
  · rw [remove_stores_ne hs, ← hstate, remove_stores_ne hs]
  · rw [remove_lookup_ne backend' hs, ← hstate, remove_lookup_ne backend hs]

/-- The second token is shared with a fork, so that the first is gone when `Remove` stops. -/
theorem remove_recoverable_fork :
    let c := ((newCausalCache 0 true).init 2 4 4).get rfl
    let c := [Op.startForward [⟨1, 0⟩, ⟨1, 1⟩, ⟨1, 2⟩, ⟨1, 3⟩] [1], .copyPrefix 1 2 2].foldl apply c
    let c' := (c.remove 1 0 1 none).1
    (c'.remove 1 0 maxInt32 none).2 = none ∧
    (∀ p j, ¬(c'.remove 1 0 maxInt32 none).1.Stores 1 p j) ∧
    (c'.remove 1 0 maxInt32 none).1.cellRanges.lookup 1 = none ∧
    ∀ s, s ≠ 1 →
      (∀ p j, (c'.remove 1 0 maxInt32 none).1.Stores s p j ↔ c.Stores s p j) ∧
      (c'.remove 1 0 maxInt32 none).1.cellRanges.lookup s = c.cellRanges.lookup s := by
  have hinit : (rangesSys (newCausalCache 0 true) 2 4 4).Reachable
      (((newCausalCache 0 true).init 2 4 4).get rfl) := .init (Option.some_get _).symm
  exact remove_recoverable (TSys.Reachable.run_restrict hinit _ (by decide)) (by decide)
    (by decide) (Prod.ext rfl (show _ = some KvError.sharedCells by decide)) none

/-- A begin below zero moves cells to where removing everything does not reach. -/
theorem remove_below_zero :
    let c := ((newCausalCache 0 false).init 1 4 4).get rfl
    let c := [Op.startForward [⟨1, 0⟩, ⟨1, 1⟩, ⟨1, 2⟩] [1]].foldl apply c
    (causalSys (newCausalCache 0 false) 1 4 4).Reachable c ∧
      (c.remove 1 (-3) 1 none).2 = some .notSupported ∧
      1 ∈ (((c.remove 1 (-3) 1 none).1.remove 1 0 maxInt32 none).1.cellAt 1).sequences ∧
      (((c.remove 1 (-3) 1 none).1.remove 1 0 maxInt32 none).1.cellRanges.lookup 1).isSome := by
  have hinit : (causalSys (newCausalCache 0 false) 1 4 4).Reachable
      (((newCausalCache 0 false).init 1 4 4).get rfl) := .init (Option.some_get _).symm
  exact ⟨TSys.Reachable.run hinit _ (by decide), by decide⟩

end Causal

end Prismalama.Kvcache
