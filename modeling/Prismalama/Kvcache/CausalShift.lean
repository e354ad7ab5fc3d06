import Prismalama.Kvcache.CausalMask

/-!
# Removing a range shifts the right keys (`shift` and `Remove` in `kvcache/causal.go`)

`Remove` rewrites the positions in one loop and the keys in another, which goes through the range of
the sequence in chunks of `maxBatch` cells and finds the moved cells again by their new positions.
A call of `shiftFn` is the first cell of its view and an offset for each cell of the view; the calls
are the same for every layer.
-/

namespace Prismalama.Kvcache

open Prismalama.Lib

namespace Causal

/-! ## The loop of `shift` -/

/-- The cells that `shift` takes for moved. -/
def shifts (c : Causal) (seq beginIndex : Int) (j : Nat) : Bool :=
  (c.cellAt j).sequences.contains seq && decide (beginIndex ≤ (c.cellAt j).pos)

/-- The offsets of a chunk with its first and last hit; `batchFirst` is `none` for -1. -/
structure Chunk where
  offsets : List Int
  batchFirst : Option Nat
  batchLast : Nat

/-- Cell `start + i` of a chunk -/
def scanCell (c : Causal) (seq beginIndex offset : Int) (start : Nat) (ch : Chunk) (i : Nat) :
    Chunk :=
  if c.shifts seq beginIndex (start + i) then
    ⟨ch.offsets ++ [offset], some (ch.batchFirst.getD i), i⟩
  else { ch with offsets := ch.offsets ++ [0] }

def scanChunk (c : Causal) (seq beginIndex offset : Int) (start size : Nat) : Chunk :=
  (List.range size).foldl (c.scanCell seq beginIndex offset start) ⟨[], none, 0⟩

/-- The call for a chunk with a hit: `offsets[batchFirst : batchLast+1]` on the cells from
`start+batchFirst` -/
def Chunk.call (ch : Chunk) (start first : Nat) : Nat × List Int :=
  (start + first, (ch.offsets.take (ch.batchLast + 1)).drop first)

/-- The chunks from `start` to the end of the range, `none` when there is no end to them -/
def shiftLoop (c : Causal) (seq beginIndex offset : Int) (last : Nat) :
    Nat → Nat → Option (List (Nat × List Int))
  | 0, _ => none
  | fuel + 1, start =>
    if last < start then some []
    else
      let ch := c.scanChunk seq beginIndex offset start (min (last + 1 - start) c.maxBatch)
      let rest := c.shiftLoop seq beginIndex offset last fuel (start + c.maxBatch)
      match ch.batchFirst with
      | none => rest
      | some first => rest.map (ch.call start first :: ·)

/-- The calls of `shiftFn` in `shift` -/
def shiftCalls (c : Causal) (seq beginIndex offset : Int) (r : CellRange) :
    Option (List (Nat × List Int)) :=
  c.shiftLoop seq beginIndex offset r.max (r.max + 2) r.min

/-- The calls of `shiftFn` in `Remove`, all of which succeed -/
def removeCalls (c : Causal) (seq beginIndex endIndex : Int) : Option (List (Nat × List Int)) :=
  if c.removeFails seq beginIndex endIndex then some []
  else
    let offset := removeOffset beginIndex endIndex
    let c' := (c.remove seq beginIndex endIndex none).1
    match c'.cellRanges.lookup seq with
    | none => some []
    | some r =>
      if endIndex ≠ maxInt32 ∧ c.hasShift then c'.shiftCalls seq (i32 (endIndex + offset)) offset r
      else some []

/-! ## What the calls do to a cell -/

/-- The offset that a call applies to cell `j` -/
def callOffset (call : Nat × List Int) (j : Nat) : List Int :=
  if call.1 ≤ j then (call.2[j - call.1]?).toList else []

/-- All offsets that the keys of cell `j` are shifted by, in turn -/
def applied (calls : List (Nat × List Int)) (j : Nat) : List Int :=
  calls.flatMap (callOffset · j)

theorem applied_cons (call : Nat × List Int) (calls : List (Nat × List Int)) (j : Nat) :
    applied (call :: calls) j = callOffset call j ++ applied calls j := rfl

section Chunks

variable (c : Causal) (seq b offset : Int) (start : Nat)

/-- The offsets of a chunk, and bounds of its hits -/
structure Scanned (size : Nat) (ch : Chunk) : Prop where
  length_eq : ch.offsets.length = size
  offsets_eq : ∀ i < size, ch.offsets[i]? = some (if c.shifts seq b (start + i) then offset else 0)
  first_le : ∀ i < size, c.shifts seq b (start + i) = true →
    ∃ first, ch.batchFirst = some first ∧ first ≤ i ∧ i ≤ ch.batchLast
  first_lt : ∀ first, ch.batchFirst = some first → first < size
  last_lt : ∀ first, ch.batchFirst = some first → ch.batchLast < size

theorem scanChunk_spec (size : Nat) :
    Scanned c seq b offset start size (c.scanChunk seq b offset start size) := by
  induction size with
  | zero => exact ⟨rfl, fun i hi => absurd hi (by omega), fun i hi => absurd hi (by omega),
      fun first h => (by cases h), fun first h => (by cases h)⟩
  | succ size ih =>
    obtain ⟨hlen, hoffsets, hhits, hfirst, hlast⟩ := ih
    rw [scanChunk, List.range_succ, List.foldl_append, ← scanChunk]
    generalize c.scanChunk seq b offset start size = ch at hlen hoffsets hhits hfirst hlast
    rw [List.foldl_cons, List.foldl_nil, scanCell]
    have hnew : ∀ o : Int, (ch.offsets ++ [o]).length = size + 1 := fun o => by
      rw [List.length_append, List.length_singleton, hlen]
    have hget : ∀ o : Int, o = (if c.shifts seq b (start + size) then offset else 0) →
        ∀ i < size + 1, (ch.offsets ++ [o])[i]? =
          some (if c.shifts seq b (start + i) then offset else 0) := by
      rintro o rfl i hi
      by_cases hin : i < size
      · rw [List.getElem?_append_left (by omega), hoffsets i hin]
      · obtain rfl : i = size := by omega
        rw [List.getElem?_append_right (by omega), hlen, Nat.sub_self]
        rfl
    cases hhit : c.shifts seq b (start + size) with
    | true =>
      rw [if_pos rfl]
      have hle : ch.batchFirst.getD size ≤ size := by
        cases hch : ch.batchFirst with
        | none => exact Nat.le_refl size
        | some first => exact (hfirst first hch).le
      refine ⟨hnew _, hget _ (by rw [hhit]; rfl), fun i hi hi' => ?_, ?_,
        fun _ _ => Nat.lt_succ_self _⟩
      · by_cases hin : i < size
        · obtain ⟨first, hch, hfi, -⟩ := hhits i hin hi'
          exact ⟨first, by rw [hch]; rfl, hfi, hin.le⟩
        · obtain rfl : i = size := by omega
          exact ⟨_, rfl, hle, Nat.le_refl i⟩
      · intro first h
        rw [← Option.some.inj h]
        exact Nat.lt_succ_of_le hle
    | false =>
      rw [if_neg Bool.false_ne_true]
      refine ⟨hnew _, hget _ (by rw [hhit]; rfl), fun i hi hi' => ?_,
        fun first h => (hfirst first h).trans (Nat.lt_succ_self _),
        fun first h => (hlast first h).trans (Nat.lt_succ_self _)⟩
      by_cases hin : i < size
      · exact hhits i hin hi'
      · obtain rfl : i = size := by omega
        rw [hhit] at hi'
        cases hi'

variable {c seq b offset start}

theorem callOffset_call (ch : Chunk) (first j : Nat) :
    callOffset (ch.call start first) j =
      if start + first ≤ j ∧ j ≤ start + ch.batchLast then (ch.offsets[j - start]?).toList
      else [] := by
  rw [callOffset, Chunk.call]
  by_cases hfirst : start + first ≤ j
  · rw [if_pos hfirst, List.getElem?_drop, show first + (j - (start + first)) = j - start by omega]
    by_cases hlast : j ≤ start + ch.batchLast
    · rw [if_pos ⟨hfirst, hlast⟩, List.getElem?_take, if_pos (by omega)]
    · rw [if_neg fun h => hlast h.2, List.getElem?_take, if_neg (by omega)]
      rfl
  · rw [if_neg hfirst, if_neg fun h => hfirst h.1]

/-- A chunk's call shifts its hits by the offset, and what else it touches by zero. -/
theorem Scanned.callOffset {size first : Nat} {ch : Chunk}
    (h : Scanned c seq b offset start size ch) (hfirst : ch.batchFirst = some first) (j : Nat) :
    (start ≤ j ∧ j < start + size ∧ c.shifts seq b j = true →
      callOffset (ch.call start first) j = [offset]) ∧
    (c.shifts seq b j = false → ∀ o ∈ Causal.callOffset (ch.call start first) j, o = 0) ∧
    (j < start ∨ start + size ≤ j → Causal.callOffset (ch.call start first) j = []) := by
  have hlast := h.last_lt first hfirst
  rw [callOffset_call]
  refine ⟨fun ⟨hlo, hhi, hhit⟩ => ?_, fun hmiss o ho => ?_, fun hout => if_neg (by omega)⟩
  · have hj : start + (j - start) = j := by omega
    obtain ⟨first', hfirst', hle, hge⟩ := h.first_le (j - start) (by omega) (by rw [hj, hhit])
    obtain rfl : first = first' := Option.some.inj (hfirst.symm.trans hfirst')
    rw [if_pos (by omega), h.offsets_eq (j - start) (by omega), hj, hhit]
    rfl
  · split at ho
    · next hin =>
      have hj : start + (j - start) = j := by omega
      rw [h.offsets_eq (j - start) (by omega), hj, hmiss] at ho
      simpa using ho
    · cases ho

/-- Each hit from `start` to the end is shifted once. -/
theorem shiftLoop_spec {last fuel : Nat} {calls : List (Nat × List Int)}
    (h : c.shiftLoop seq b offset last fuel start = some calls) (j : Nat) :
    (start ≤ j ∧ j ≤ last ∧ c.shifts seq b j = true → applied calls j = [offset]) ∧
    (c.shifts seq b j = false → ∀ o ∈ applied calls j, o = 0) ∧
    (j < start → applied calls j = []) := by
  induction fuel generalizing start calls with
  | zero => cases h
  | succ fuel ih =>
    rw [shiftLoop] at h
    by_cases hend : last < start
    · rw [if_pos hend] at h
      obtain rfl := Option.some.inj h
      exact ⟨fun hj => by omega, fun _ o ho => (by cases ho), fun _ => rfl⟩
    · rw [if_neg hend] at h
      dsimp only at h
      have hscan := scanChunk_spec c seq b offset start (min (last + 1 - start) c.maxBatch)
      cases hfirst : (c.scanChunk seq b offset start
          (min (last + 1 - start) c.maxBatch)).batchFirst with
      | none =>
        rw [hfirst] at h
        obtain ⟨hhit, hmiss, hbefore⟩ := ih h
        refine ⟨fun ⟨hlo, hhi, hj⟩ => hhit ⟨?_, hhi, hj⟩, hmiss, fun hj => hbefore (by omega)⟩
        -- no hit in this chunk
        by_contra hin
        have hij : start + (j - start) = j := by omega
        obtain ⟨first, hsome, -⟩ := hscan.first_le (j - start) (by omega) (by rw [hij, hj])
        rw [hfirst] at hsome
        cases hsome
      | some first =>
        rw [hfirst] at h
        obtain ⟨rest, hrest, rfl⟩ := Option.map_eq_some_iff.mp h
        obtain ⟨hhit, hmiss, hbefore⟩ := ih hrest
        obtain ⟨hcall, hcallmiss, hcallout⟩ := hscan.callOffset hfirst j
        rw [applied_cons]
        refine ⟨fun ⟨hlo, hhi, hj⟩ => ?_, fun hj o ho => ?_, fun hj => ?_⟩
        · by_cases hin : j < start + min (last + 1 - start) c.maxBatch
          · rw [hcall ⟨hlo, hin, hj⟩, hbefore (by omega)]
            rfl
          · rw [hcallout (Or.inr (by omega)), hhit ⟨by omega, hhi, hj⟩]
            rfl
        · rcases List.mem_append.mp ho with ho | ho
          · exact hcallmiss hj o ho
          · exact hmiss hj o ho
        · rw [hcallout (Or.inl hj), hbefore (by omega)]
          rfl

/-- Chunks of at least one cell come to an end. -/
theorem shiftLoop_isSome (hbatch : 0 < c.maxBatch) {last fuel : Nat} (hfuel : 0 < fuel)
    (hend : last + 2 ≤ fuel + start) :
    (c.shiftLoop seq b offset last fuel start).isSome := by
  induction fuel generalizing start with
  | zero => exact absurd hfuel (Nat.lt_irrefl 0)
  | succ fuel ih =>
    rw [shiftLoop]
    by_cases hlast : last < start
    · rw [if_pos hlast]
      rfl
    · rw [if_neg hlast]
      have hrest : (c.shiftLoop seq b offset last fuel (start + c.maxBatch)).isSome :=
        ih (by omega) (by omega)
      dsimp only
      split
      · exact hrest
      · rw [Option.isSome_map]
        exact hrest

end Chunks

/-! ## Positions -/

/-- All positions in the cache satisfy `P`. -/
def Positions (P : Int → Prop) (c : Causal) : Prop := ∀ s p j, c.Stores s p j → P p

/-- So do the positions of a batch. -/
def TokensIn (P : Int → Prop) : Op → Prop
  | .startForward batch _ => ∀ t ∈ batch, P t.pos
  | .setCausal _ | .copyPrefix .. | .remove .. => True

instance (P : Int → Prop) [DecidablePred P] : (op : Op) → Decidable (TokensIn P op)
  | .startForward batch _ => inferInstanceAs (Decidable (∀ t ∈ batch, P t.pos))
  | .setCausal _ | .copyPrefix .. | .remove .. => .isTrue trivial

theorem remove_positions {P : Int → Prop} {c : Causal} (h : Positions P c) {seq b e : Int}
    {backend : Option KvError} (hshift : ∀ q, P q → e ≤ q → P (i32 (q + removeOffset b e))) :
    Positions P (c.remove seq b e backend).1 := by
  intro s p j hst
  by_cases hs : s = seq
  · subst hs
    rcases remove_stores_self hst with hold | ⟨q, hold, hle, rfl⟩
    · exact h s p j hold
    · exact hshift q (h s q j hold) hle
  · exact h s p j ((remove_stores_ne hs).mp hst)

theorem apply_positions {P : Int → Prop} {c : Causal} (hwf : c.Wf) (h : Positions P c) {op : Op}
    (hop : c.Enabled op) (htokens : TokensIn P op)
    (hshift : ∀ seq b e backend, op = .remove seq b e backend →
      ∀ q, P q → e ≤ q → P (i32 (q + removeOffset b e))) : Positions P (c.apply op) := by
  cases op with
  | startForward batch order =>
    intro s p j hst
    rcases startForward_cases hwf.covered hwf.ranges hop with
      ⟨c', heq, hupd, -⟩ | ⟨locs, c', heq, hnew⟩
    · rw [apply, heq] at hst
      exact h s p j ((hupd.stores s p j).mp hst).1
    · rw [apply, heq] at hst
      rcases (hnew.stores s p j).mp hst with hold | hbatch
      · exact h s p j hold.1
      · exact htokens ⟨s, p⟩ (List.of_mem_zip hbatch).1
  | setCausal except =>
    intro s p j hst
    have hcells : (c.setCausal except).cells = c.cells := by
      rw [setCausal]
      split <;> rfl
    exact h s p j ((stores_of_cells_eq hcells s p j).mp hst)
  | copyPrefix srcSeq dstSeq len =>
    intro s p j hst
    have hold := (copyPrefix_stores hop c len s p j).mp hst
    split at hold
    · exact h srcSeq p j hold.1
    · exact h s p j hold
  | remove seq b e backend => exact remove_positions h (hshift seq b e backend rfl)

/-- `int32` values -/
def IsInt32 (p : Int) : Prop := -2147483648 ≤ p ∧ p ≤ maxInt32

instance : DecidablePred IsInt32 := fun p =>
  inferInstanceAs (Decidable (-2147483648 ≤ p ∧ p ≤ maxInt32))

/-- The cache with positions of batches that are `int32` values -/
def int32Sys (cfg : CausalConfig) (maxSequences capacity maxBatch : Nat) : TSys Causal Op :=
  (causalSys cfg maxSequences capacity maxBatch).restrict fun _ op => TokensIn IsInt32 op

theorem int32_invariant (cfg : CausalConfig) (maxSequences capacity maxBatch : Nat) :
    (int32Sys cfg maxSequences capacity maxBatch).Invariant (Positions IsInt32) := by
  refine TSys.Invariant.relative (Q := Wf)
    ((wf_invariant cfg maxSequences capacity maxBatch).restrict _) ?_ ?_
  · exact fun c hinit s p j hst => absurd hst (init_not_stores hinit s p j)
  · rintro c op _ hwf hpos ⟨htokens, hop, rfl⟩
    exact apply_positions hwf hpos hop htokens fun _ _ _ _ _ q _ _ => i32_range _

/-! ## `Remove` with a shift -/

theorem shifts_iff (c : Causal) (seq b : Int) (j : Nat) :
    c.shifts seq b j = true ↔ ∃ p, c.Stores seq p j ∧ b ≤ p := by
  rw [shifts, Bool.and_eq_true, decide_eq_true_eq, List.contains_iff_mem]
  constructor
  · rintro ⟨hmem, hle⟩
    cases hcell : c.cells[j]? with
    | none =>
      rw [cellAt, List.getD_eq_getElem?_getD, hcell] at hmem
      cases hmem
    | some cell =>
      rw [cellAt, List.getD_eq_getElem?_getD, hcell] at hmem hle
      exact ⟨cell.pos, ⟨cell, hcell, hmem, rfl⟩, hle⟩
  · rintro ⟨p, ⟨cell, hcell, hmem, rfl⟩, hle⟩
    rw [cellAt, List.getD_eq_getElem?_getD, hcell]
    exact ⟨hmem, hle⟩

/-- Where no `int32` wraps, cells move by `b - e`. -/
theorem i32_moved {b e q : Int} (h0 : 0 ≤ b) (hbe : b ≤ e) (he : e < maxInt32) (hge : e ≤ q)
    (hq : q ≤ maxInt32) : i32 (q + removeOffset b e) = q - (e - b) := by
  rw [removeOffset, if_pos (by omega), i32_eq (x := b - e) (by unfold maxInt32 at he; omega)
    (by unfold maxInt32; omega), i32_eq (by omega) (by omega)]
  omega

section Remove

variable {c c' : Causal} {seq b e : Int} {backend : Option KvError}

theorem remove_ok (h : c.remove seq b e backend = (c', none)) : c.removeFails seq b e = false := by
  cases hfail : c.removeFails seq b e with
  | false => rfl
  | true =>
    rw [remove_of_fails backend hfail] at h
    cases h

/-- The state after the call does not depend on what the backend reports. -/
theorem remove_state (c : Causal) (seq b e : Int) (backend backend' : Option KvError) :
    (c.remove seq b e backend).1 = (c.remove seq b e backend').1 := by
  cases hfail : c.removeFails seq b e with
  | true => rw [remove_of_fails backend hfail, remove_of_fails backend' hfail]
  | false =>
    rw [remove_of_ok backend hfail, remove_of_ok backend' hfail, resetRange, resetRange]
    split <;> rfl

/-- A call that succeeds on cells that stay has a shift function. -/
theorem remove_hasShift (h : c.remove seq b e backend = (c', none)) (he : e ≠ maxInt32)
    {r : CellRange} (hr : c'.cellRanges.lookup seq = some r) : c.hasShift = true := by
  have hok := remove_ok h
  rw [remove_of_ok backend hok, resetRange] at h
  split at h
  · obtain rfl : _ = c' := congrArg Prod.fst h
    simp only [GoMap.lookup_erase_ite, if_true] at hr
    cases hr
  · have herr := congrArg Prod.snd h
    simp only [shift] at herr
    by_contra hno
    rw [if_neg hno] at herr
    cases herr

/-- The cells that `Remove` moves, found again by their new positions -/
theorem shifts_remove (hpos : Positions IsInt32 c) (h0 : 0 ≤ b) (hbe : b < e) (he : e < maxInt32)
    (h : c.remove seq b e backend = (c', none)) (j : Nat) :
    c'.shifts seq b j = true ↔ ∃ q, c.Stores seq q j ∧ e ≤ q := by
  have hstores := fun p => @remove_stores_of_ok c seq b e p j backend (remove_ok h)
  rw [h] at hstores
  rw [shifts_iff]
  constructor
  · rintro ⟨p, hst, hle⟩
    obtain ⟨q, hold, hout, rfl⟩ := (hstores p).mp hst
    refine ⟨q, hold, ?_⟩
    by_contra hlt
    rw [if_neg hlt] at hle
    omega
  · rintro ⟨q, hold, hge⟩
    have hq := (hpos seq q j hold).2
    refine ⟨_, (hstores _).mpr ⟨q, hold, by omega, rfl⟩, ?_⟩
    rw [if_pos hge, i32_moved h0 hbe.le he hge hq]
    omega

/-- The calls of `shiftFn`, where `Remove` succeeds -/
theorem removeCalls_eq (h0 : 0 ≤ b) (hbe : b < e) (he : e < maxInt32)
    (h : c.remove seq b e backend = (c', none)) :
    c.removeCalls seq b e =
      match c'.cellRanges.lookup seq with
      | none => some []
      | some r => c'.shiftCalls seq b (b - e) r := by
  have hstate : (c.remove seq b e none).1 = c' := by
    rw [remove_state c seq b e none backend, h]
  have hoffset : removeOffset b e = b - e := by
    rw [removeOffset, if_pos (by omega), i32_eq (by unfold maxInt32 at he; omega)
      (by unfold maxInt32; omega)]
  rw [removeCalls, remove_ok h, if_neg Bool.false_ne_true]
  dsimp only
  rw [hstate, hoffset, show e + (b - e) = b by omega, i32_eq (by omega) (by omega)]
  cases hr : c'.cellRanges.lookup seq with
  | none => rfl
  | some r => exact if_pos ⟨by omega, remove_hasShift h (by omega) hr⟩

end Remove

/-- `Remove` deletes `[b, e)` and moves what follows, other sequences stay, and the calls of
`shiftFn` shift the keys of the moved cells once by `b - e` and touch others with offset zero only,
in chunks of any size. -/
theorem remove_shifts {cfg : CausalConfig} {maxSequences capacity maxBatch : Nat} {c c' : Causal}
    (hreach : (int32Sys cfg maxSequences capacity maxBatch).Reachable c) {seq b e : Int}
    {backend : Option KvError} (h0 : 0 ≤ b) (hbe : b < e) (he : e < maxInt32)
    (hremove : c.remove seq b e backend = (c', none)) :
    (∀ p j, c'.Stores seq p j ↔
      ∃ q, c.Stores seq q j ∧ (q < b ∧ p = q ∨ e ≤ q ∧ p = q - (e - b))) ∧
    (∀ s p j, s ≠ seq → (c'.Stores s p j ↔ c.Stores s p j)) ∧
    (0 < c.maxBatch → (c.removeCalls seq b e).isSome) ∧
    ∀ calls, c.removeCalls seq b e = some calls → ∀ j,
      ((∃ q, c.Stores seq q j ∧ e ≤ q) → applied calls j = [b - e]) ∧
      ((¬∃ q, c.Stores seq q j ∧ e ≤ q) → ∀ o ∈ applied calls j, o = 0) := by
  have hwf := wf_invariant cfg maxSequences capacity maxBatch c hreach.of_restrict
  have hpos := int32_invariant cfg maxSequences capacity maxBatch c hreach
  have hframe := remove_frame c seq b e backend
  have hwf' := remove_wf hwf seq b e backend
  have hcalls := removeCalls_eq h0 hbe he hremove
  rw [hremove] at hframe hwf'
  refine ⟨fun p j => ?_, fun s p j hs => ?_, fun hbatch => ?_, fun calls hsome j => ?_⟩
  · have hstores := @remove_stores_of_ok c seq b e p j backend (remove_ok hremove)
    rw [hremove] at hstores
    rw [hstores]
    refine exists_congr fun q => and_congr_right fun hold => ?_
    by_cases hge : e ≤ q
    · rw [if_pos hge, i32_moved h0 hbe.le he hge (hpos seq q j hold).2]
      omega
    · rw [if_neg hge]
      omega
  · have hother := @remove_stores_ne c seq b e s p j backend hs
    rwa [hremove] at hother
  · have hbatch' : c'.maxBatch = c.maxBatch := congrArg (fun f => f.2.2.2.1) hframe
    rw [hcalls]
    split
    · rfl
    · exact shiftLoop_isSome (hbatch' ▸ hbatch) (by omega) (by omega)
  · have hshifts := shifts_remove hpos h0 hbe he hremove j
    rw [hcalls] at hsome
    cases hr : c'.cellRanges.lookup seq with
    | none =>
      -- nothing is left of the sequence
      rw [hr] at hsome
      obtain rfl := Option.some.inj hsome
      refine ⟨fun hmoved => ?_, fun _ o ho => by cases ho⟩
      obtain ⟨p, hst, -⟩ := (shifts_iff _ _ _ _).mp (hshifts.mpr hmoved)
      obtain ⟨r, hlookup, -⟩ := hwf'.covered seq p j hst
      rw [hr] at hlookup
      cases hlookup
    | some r =>
      rw [hr] at hsome
      obtain ⟨hhit, hmiss, -⟩ := shiftLoop_spec hsome j
      refine ⟨fun hmoved => ?_, fun hkept => ?_⟩
      · obtain ⟨p, hst, -⟩ := (shifts_iff _ _ _ _).mp (hshifts.mpr hmoved)
        obtain ⟨r', hlookup, hhas⟩ := hwf'.covered seq p j hst
        obtain rfl : r = r' := Option.some.inj (hr.symm.trans hlookup)
        obtain ⟨hmin, hmax⟩ := (CellRange.has_iff _ _).mp hhas
        exact hhit ⟨hmin, hmax, hshifts.mpr hmoved⟩
      · refine hmiss ?_
        rw [← Bool.not_eq_true]
        exact fun hit => hkept (hshifts.mp hit)

/-- Five tokens less the second and the third, in chunks of two cells -/
theorem remove_shifts_middle :
    let c := ((newCausalCache 0 true).init 1 8 2).get rfl
    let c := [Op.startForward [⟨1, 0⟩, ⟨1, 1⟩, ⟨1, 2⟩, ⟨1, 3⟩, ⟨1, 4⟩] [1]].foldl apply c
    (∀ p j, (c.remove 1 1 3 none).1.Stores 1 p j ↔
      ∃ q, c.Stores 1 q j ∧ (q < 1 ∧ p = q ∨ 3 ≤ q ∧ p = q - (3 - 1))) ∧
    (∀ s p j, s ≠ 1 → ((c.remove 1 1 3 none).1.Stores s p j ↔ c.Stores s p j)) ∧
    (0 < c.maxBatch → (c.removeCalls 1 1 3).isSome) ∧
    ∀ calls, c.removeCalls 1 1 3 = some calls → ∀ j,
      ((∃ q, c.Stores 1 q j ∧ 3 ≤ q) → applied calls j = [1 - 3]) ∧
      ((¬∃ q, c.Stores 1 q j ∧ 3 ≤ q) → ∀ o ∈ applied calls j, o = 0) := by
  have hinit : (int32Sys (newCausalCache 0 true) 1 8 2).Reachable
      (((newCausalCache 0 true).init 1 8 2).get rfl) := .init (Option.some_get _).symm
  exact remove_shifts (TSys.Reachable.run_restrict hinit _ (by decide)) (by decide)
    (by decide) (by decide) (Prod.ext rfl (by decide))

end Causal

end Prismalama.Kvcache
