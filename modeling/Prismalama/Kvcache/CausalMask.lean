import Prismalama.Kvcache.CausalSpec
import Prismalama.Lib.TSys

/-!
# The mask of a causal cache is exact

`causalSys` is the cache as its users drive it from `Init`. `Wf` is what every
run preserves: the ranges cover what is stored and end within the cells, and
the sizes are those `Init` accepts. From it, after a successful `StartForward`
and any calls of `SetCausal` in the same pass, a batch entry attends to exactly
the cells it may see, wherever in the cache they are.
-/

namespace Prismalama.Kvcache

open Prismalama.Lib

namespace Causal

/-! ## Runs of the cache -/

/-- What a user of the cache may call between `Init` and `Close`. `backend` is
the outcome of the key shift, `order` that of the iteration over `lowestPos`. -/
inductive Op
  | startForward (batch : List Token) (order : List Int)
  | setCausal (except : List Nat)
  | copyPrefix (srcSeq dstSeq len : Int)
  | remove (seq beginIndex endIndex : Int) (backend : Option KvError)

/-- One call; one that returns an error leaves the state it got to. -/
def apply (c : Causal) : Op → Causal
  | .startForward batch order => (c.startForward batch order false).1
  | .setCausal except => c.setCausal except
  | .copyPrefix srcSeq dstSeq len => c.copyPrefix srcSeq dstSeq len
  | .remove seq b e backend => (c.remove seq b e backend).1

/-- The calls that can be made: `CopyPrefix` is between distinct sequences. -/
def Enabled (c : Causal) : Op → Prop
  | .startForward batch order => c.IsOrder batch order
  | .copyPrefix srcSeq dstSeq _ => srcSeq ≠ dstSeq
  | .setCausal _ | .remove .. => True

instance (c : Causal) : (op : Op) → Decidable (c.Enabled op)
  | .startForward batch order =>
    inferInstanceAs (Decidable (order.Perm (c.withBatch batch).lowestPos.keys))
  | .copyPrefix srcSeq dstSeq _ => inferInstanceAs (Decidable (srcSeq ≠ dstSeq))
  | .setCausal _ | .remove .. => .isTrue trivial

/-- The cache `cfg` initialised for `maxSequences` sequences of `capacity` tokens. -/
def causalSys (cfg : CausalConfig) (maxSequences capacity maxBatch : Nat) : TSys Causal Op :=
  TSys.ofFn (fun c => cfg.init maxSequences capacity maxBatch = some c) Enabled apply

/-! ## The invariant -/

/-- The sizes that `Init` fixes. -/
structure Sized (c : Causal) : Prop where
  window_nonneg : 0 ≤ c.swaWindowSize
  window_le : c.swaWindowSize ≤ maxInt32
  padding_pos : 0 < c.cachePadding
  padding_dvd : c.cachePadding ∣ c.cells.length
  length_le : c.cells.length ≤ maxInt

structure Wf (c : Causal) : Prop extends Sized c where
  covered : c.Covered
  ranges : c.RangesLe (c.cells.length - 1)

theorem Sized.of_frame {c c' : Causal} (h : c'.frame = c.frame) (hs : c.Sized) : c'.Sized := by
  simp only [frame, Prod.mk.injEq] at h
  obtain ⟨hwin, -, -, -, hpad, -, hlen⟩ := h
  obtain ⟨h0, h1, h2, h3, h4⟩ := hs
  exact ⟨by rw [hwin]; exact h0, by rw [hwin]; exact h1, by rw [hpad]; exact h2,
    by rw [hpad, hlen]; exact h3, by rw [hlen]; exact h4⟩

theorem init_not_stores {cfg : CausalConfig} {maxSequences capacity maxBatch : Nat} {c : Causal}
    (h : cfg.init maxSequences capacity maxBatch = some c) (s p : Int) (j : Nat) :
    ¬c.Stores s p j := by
  unfold CausalConfig.init at h
  simp only [Option.ite_none_left_eq_some, Option.some.injEq] at h
  obtain ⟨-, -, rfl⟩ := h
  rintro ⟨cell, hcell, hs, -⟩
  simp only [List.getElem?_replicate] at hcell
  split at hcell
  · injection hcell with hcell
    rw [← hcell] at hs
    cases hs
  · cases hcell

theorem init_wf {cfg : CausalConfig} {maxSequences capacity maxBatch : Nat} {c : Causal}
    (h : cfg.init maxSequences capacity maxBatch = some c) : c.Wf := by
  have hnone := init_not_stores h
  unfold CausalConfig.init at h
  simp only [Option.ite_none_left_eq_some, not_lt, Option.some.injEq] at h
  obtain ⟨-, hsize, rfl⟩ := h
  have hpad : 0 < cfg.padding := by
    unfold CausalConfig.padding
    split <;> omega
  refine
    { window_nonneg := ?_
      window_le := ?_
      padding_pos := hpad
      padding_dvd := ?_
      length_le := by simpa using hsize
      covered := ?_
      ranges := ?_ }
  · have := cfg.window_nonneg
    simp only [CausalConfig.window]
    split
    · decide
    · exact this
  · have := cfg.window_le
    simp only [CausalConfig.window]
    split
    · exact Int.le_refl _
    · exact this
  · simp only [List.length_replicate]
    exact Dvd.intro_left _ rfl
  · exact fun s p j hst => absurd hst (hnone s p j)
  · intro s r hr
    simp at hr

theorem startForward_wf {c : Causal} (hwf : c.Wf) {batch : List Token} {order : List Int}
    (horder : c.IsOrder batch order) : (c.startForward batch order false).1.Wf := by
  rcases startForward_cases hwf.covered hwf.ranges horder with
    ⟨c', heq, hupd, -⟩ | ⟨locs, c', heq, hst⟩
  · rw [heq]
    have hlen := length_eq_of_frame hupd.frame
    exact { hwf.toSized.of_frame (c := c) hupd.frame with
      covered := hupd.covered
      ranges := by rw [hlen]; exact hupd.ranges }
  · rw [heq]
    have hlen := length_eq_of_frame hst.frame
    exact { hwf.toSized.of_frame (c := c) hst.frame with
      covered := hst.covered
      ranges := by
        change c'.RangesLe (c'.cells.length - 1)
        rw [hlen]
        exact hst.ranges }

theorem setCausal_wf {c : Causal} (hwf : c.Wf) (except : List Nat) : (c.setCausal except).Wf := by
  unfold setCausal
  split
  · exact hwf
  · exact { hwf.toSized.of_frame (c := c) rfl with
      covered := hwf.covered
      ranges := hwf.ranges }

theorem copyPrefix_wf {c : Causal} (hwf : c.Wf) {srcSeq dstSeq : Int} (hne : srcSeq ≠ dstSeq)
    (len : Int) : (c.copyPrefix srcSeq dstSeq len).Wf := by
  have hframe := copyPrefix_frame c srcSeq dstSeq len
  have hlen := length_eq_of_frame hframe
  exact { hwf.toSized.of_frame hframe with
    covered := copyPrefix_covered hwf.covered hne len
    ranges := by
      rw [hlen]
      refine rangesLe_insert rfl ?_ hwf.ranges
      rw [← hlen]
      exact extendWhere_max_le (Nat.zero_le _) }

theorem remove_ranges {c : Causal} (h : c.RangesLe (c.cells.length - 1)) (seq b e : Int)
    (backend : Option KvError) :
    (c.remove seq b e backend).1.RangesLe (c.cells.length - 1) := by
  cases hremove : c.removeFails seq b e with
  | true =>
    rw [remove_of_fails backend hremove]
    exact h
  | false =>
    have hlen := length_eq_of_frame (remove_frame c seq b e backend)
    rw [remove_cells] at hlen
    rw [remove_of_ok backend hremove]
    simp only [resetRange]
    split
    · intro s r hr
      simp only [GoMap.lookup_erase_ite] at hr
      split at hr
      · cases hr
      · exact h s r hr
    · refine rangesLe_insert rfl ?_ h
      rw [← hlen]
      exact extendWhere_max_le (Nat.zero_le _)

theorem remove_wf {c : Causal} (hwf : c.Wf) (seq b e : Int) (backend : Option KvError) :
    (c.remove seq b e backend).1.Wf := by
  have hframe := remove_frame c seq b e backend
  have hlen := length_eq_of_frame hframe
  exact { hwf.toSized.of_frame hframe with
    covered := remove_covered hwf.covered hwf.length_le seq b e backend
    ranges := by rw [hlen]; exact remove_ranges hwf.ranges seq b e backend }

theorem apply_wf {c : Causal} {op : Op} (hwf : c.Wf) (hop : c.Enabled op) : (c.apply op).Wf := by
  cases op with
  | startForward batch order => exact startForward_wf hwf hop
  | setCausal except => exact setCausal_wf hwf except
  | copyPrefix srcSeq dstSeq len => exact copyPrefix_wf hwf hop len
  | remove seq b e backend => exact remove_wf hwf seq b e backend

/-- Every state of every run is well formed. -/
theorem wf_invariant (cfg : CausalConfig) (maxSequences capacity maxBatch : Nat) :
    (causalSys cfg maxSequences capacity maxBatch).Invariant Wf :=
  TSys.Inductive.invariant
    { init := fun _ h => init_wf h
      step := by
        rintro c op _ hwf ⟨hop, rfl⟩
        exact apply_wf hwf hop }

/-! ## Reading the mask -/

/-- The mask leaves cell `j` to batch entry `i`. -/
def Unmasked (c : Causal) (i j : Nat) : Prop :=
  c.curCellRange.has j = true ∧
    ∃ row, c.curMask.rows[i]? = some row ∧ row[j - c.curCellRange.min]? = some .zero

/-- The cells that batch entry `i`, the token `t`, may attend to. -/
def Visible (c : Causal) (i : Nat) (t : Token) (j : Nat) : Prop :=
  ∃ cell, c.cells[j]? = some cell ∧ t.seq ∈ cell.sequences ∧
    (i ∉ c.except → cell.pos ≤ t.pos) ∧
    t.pos - c.swaWindowSize ≤ cell.pos ∧
    (0 < c.chunkSize → t.pos - t.pos % c.chunkSize ≤ cell.pos)

/-- Positions and window are small enough for `buildMask` to compute without wrapping. -/
theorem maskValue_zero_iff {c : Causal} (hs : c.Sized) {t : Token} (h0 : 0 ≤ t.pos)
    (h1 : t.pos ≤ maxInt32) (i : Nat) (cell : CacheCell) :
    c.maskValue i t cell = .zero ↔
      t.seq ∈ cell.sequences ∧ (i ∉ c.except → cell.pos ≤ t.pos) ∧
        t.pos - c.swaWindowSize ≤ cell.pos ∧
        (0 < c.chunkSize → t.pos - t.pos % c.chunkSize ≤ cell.pos) := by
  have hmax : maxInt32 = 2147483647 := rfl
  have hwin : i32 (t.pos - c.swaWindowSize) = t.pos - c.swaWindowSize := by
    have := hs.window_nonneg
    have := hs.window_le
    apply i32_eq <;> omega
  have hchunk : 0 < c.chunkSize →
      i32 (t.pos - t.pos.tmod c.chunkSize) = t.pos - t.pos % c.chunkSize := by
    intro hc
    rw [Int.tmod_eq_emod_of_nonneg h0]
    have hlo := Int.emod_nonneg t.pos (ne_of_gt hc)
    have hquot := Int.mul_nonneg (le_of_lt hc) (Int.ediv_nonneg h0 (le_of_lt hc))
    have hle : t.pos % c.chunkSize ≤ t.pos := by
      linarith [Int.mul_ediv_add_emod t.pos c.chunkSize]
    apply i32_eq <;> omega
  simp only [maskValue]
  rw [hwin]
  split
  · rename_i hmask
    simp only [reduceCtorEq, false_iff]
    rintro ⟨hseq, hcausal, hw, hch⟩
    simp only [Bool.or_eq_true, Bool.and_eq_true, Bool.not_eq_true', decide_eq_true_eq,
      List.contains_eq_mem, decide_eq_false_iff_not] at hmask
    rcases hmask with ((hseq' | ⟨hex, hlt⟩) | ⟨hc, hlt⟩) | hlt
    · exact hseq' hseq
    · have := hcausal hex
      omega
    · rw [hchunk hc] at hlt
      have := hch hc
      omega
    · omega
  · rename_i hmask
    simp only [Bool.or_eq_true, Bool.and_eq_true, Bool.not_eq_true', decide_eq_true_eq,
      List.contains_eq_mem, decide_eq_false_iff_not, not_or, not_and, not_lt, not_not] at hmask
    obtain ⟨⟨⟨hseq, hcausal⟩, hch⟩, hw⟩ := hmask
    simp only [true_iff]
    refine ⟨hseq, hcausal, hw, fun hc => ?_⟩
    rw [← hchunk hc]
    exact hch hc

/-! ## The rounded range -/

theorem roundDown_le (n pad : Nat) : roundDown n pad ≤ n := Nat.div_mul_le_self n pad

theorem le_roundUp {pad : Nat} (hpad : 0 < pad) (n : Nat) : n ≤ roundUp n pad := by
  unfold roundUp
  have h1 := Nat.div_add_mod (n + pad - 1) pad
  have h2 := Nat.mod_lt (n + pad - 1) hpad
  rw [Nat.mul_comm] at h1
  omega

/-- Rounding up stays below a multiple of the padding. -/
theorem roundUp_le {n pad m : Nat} (hpad : 0 < pad) (hn : n ≤ m) (hdvd : pad ∣ m) :
    roundUp n pad ≤ m := by
  obtain ⟨k, rfl⟩ := hdvd
  unfold roundUp
  have hlt : (n + pad - 1) / pad < k + 1 := by
    rw [Nat.div_lt_iff_lt_mul hpad, Nat.mul_comm]
    rw [Nat.mul_add, Nat.mul_one]
    omega
  rw [Nat.mul_comm pad k]
  exact Nat.mul_le_mul_right pad (Nat.lt_succ_iff.mp hlt)

/-- A pass ready for its mask: the current range lies within the cells and
takes in everything that a token of the batch may attend to. -/
structure Ready (c : Causal) : Prop extends Sized c where
  positions : ∀ t ∈ c.curBatch, 0 ≤ t.pos ∧ t.pos ≤ maxInt32
  current : c.curCellRange.max < c.cells.length
  complete : ∀ t ∈ c.curBatch, ∀ p j, c.Stores t.seq p j → t.pos - c.swaWindowSize ≤ p →
    c.curCellRange.has j = true

/-- The mask of `c` has a row for each entry and a column for each cell of the
current range, and is zero exactly where it should be. -/
structure MaskExact (c : Causal) : Prop where
  length : c.curMask.length = c.curCellRange.max + 1 - c.curCellRange.min
  rows : c.curMask.rows.length = c.curBatch.length
  columns : ∀ row ∈ c.curMask.rows, row.length = c.curMask.length
  exact : ∀ i t, c.curBatch[i]? = some t → ∀ j, c.Unmasked i j ↔ c.Visible i t j

theorem Ready.withExcept {c : Causal} (h : c.Ready) (except : List Nat) :
    ({ c with except := except } : Causal).Ready :=
  { h.toSized.of_frame (c := c) rfl with
    positions := h.positions
    current := h.current
    complete := h.complete }

theorem Ready.withLoc {c : Causal} (h : c.Ready) (locs : List Nat) :
    ({ c with curLoc := locs } : Causal).Ready :=
  { h.toSized.of_frame (c := c) rfl with
    positions := h.positions
    current := h.current
    complete := h.complete }

/-- Rounding keeps a ready pass ready. -/
theorem Ready.buildMask {c : Causal} (h : c.Ready) : c.buildMask.Ready where
  toSized := h.toSized.of_frame (c := c) rfl
  positions := h.positions
  current := by
    have := roundUp_le h.padding_pos (Nat.succ_le_of_lt h.current) h.padding_dvd
    rw [Nat.succ_eq_add_one] at this
    have := le_roundUp h.padding_pos (c.curCellRange.max + 1)
    change roundUp (c.curCellRange.max + 1) c.cachePadding - 1 < c.cells.length
    omega
  complete := by
    intro t ht p j hst hp
    have := h.complete t ht p j hst hp
    have := roundDown_le c.curCellRange.min c.cachePadding
    have := le_roundUp h.padding_pos (c.curCellRange.max + 1)
    simp only [CellRange.has_iff, Causal.buildMask] at *
    omega

/-- One row of the mask, read at a cell of the range. -/
theorem buildMask_unmasked {c : Causal} {i : Nat} {t : Token} (ht : c.curBatch[i]? = some t)
    (j : Nat) :
    c.buildMask.Unmasked i j ↔
      c.buildMask.curCellRange.has j = true ∧ c.maskValue i t (c.cellAt j) = .zero := by
  unfold Unmasked
  refine and_congr_right fun hhas => ?_
  have hrow : c.buildMask.curMask.rows[i]? =
      some ((List.range c.buildMask.curMask.length).map
        fun k => c.maskValue i t (c.cellAt (c.buildMask.curCellRange.min + k))) := by
    simp [Causal.buildMask, List.getElem?_mapIdx, ht]
  rw [CellRange.has_iff] at hhas
  have hk : j - c.buildMask.curCellRange.min < c.buildMask.curMask.length := by
    change _ < c.buildMask.curCellRange.max + 1 - c.buildMask.curCellRange.min
    omega
  rw [hrow]
  simp only [Option.some.injEq, exists_eq_left', List.getElem?_map, List.getElem?_range hk,
    Option.map_some]
  rw [Nat.add_sub_cancel' hhas.1]

/-- `buildMask` on a ready pass gives an exact mask. -/
theorem Ready.maskExact {c : Causal} (h : c.Ready) : c.buildMask.MaskExact where
  length := rfl
  rows := by simp [Causal.buildMask]
  columns := by
    intro row hrow
    simp only [Causal.buildMask, List.mem_mapIdx] at hrow
    obtain ⟨i, hi, rfl⟩ := hrow
    simp [Causal.buildMask]
  exact := by
    intro i t ht j
    have ht' : c.curBatch[i]? = some t := ht
    have hmem : t ∈ c.curBatch := List.mem_of_getElem? ht'
    obtain ⟨h0, h1⟩ := h.positions t hmem
    rw [buildMask_unmasked ht', maskValue_zero_iff h.toSized h0 h1]
    have hcurrent := h.buildMask.current
    constructor
    · rintro ⟨hhas, hvis⟩
      rw [CellRange.has_iff] at hhas
      have hj : j < c.cells.length := hhas.2.trans_lt hcurrent
      refine ⟨c.cellAt j, ?_, hvis⟩
      change c.cells[j]? = some (c.cells.getD j ⟨0, []⟩)
      simp [List.getElem?_eq_getElem hj]
    · rintro ⟨cell, hcell, hvis⟩
      have hcell' : c.cells[j]? = some cell := hcell
      have hat : c.cellAt j = cell := by
        unfold cellAt
        rw [List.getD_eq_getElem?_getD, hcell']
        rfl
      rw [hat]
      exact ⟨h.buildMask.complete t hmem cell.pos j ⟨cell, hcell, hvis.1, rfl⟩ hvis.2.2.1, hvis⟩

/-- `SetCausal` keeps a pass ready and its mask exact. -/
theorem setCausal_exact {c : Causal} (hready : c.Ready) (hexact : c.MaskExact)
    (except : List Nat) : (c.setCausal except).Ready ∧ (c.setCausal except).MaskExact := by
  unfold setCausal
  split
  · exact ⟨hready, hexact⟩
  · exact ⟨(hready.withExcept except).buildMask, (hready.withExcept except).maskExact⟩

theorem setCausal_curBatch (c : Causal) (except : List Nat) :
    (c.setCausal except).curBatch = c.curBatch := by
  unfold setCausal
  split <;> rfl

theorem setCausal_foldl_exact (excepts : List (List Nat)) {c : Causal} (hready : c.Ready)
    (hexact : c.MaskExact) :
    (excepts.foldl setCausal c).Ready ∧ (excepts.foldl setCausal c).MaskExact ∧
      (excepts.foldl setCausal c).curBatch = c.curBatch := by
  induction excepts generalizing c with
  | nil => exact ⟨hready, hexact, rfl⟩
  | cons except rest ih =>
    obtain ⟨hready', hexact'⟩ := setCausal_exact hready hexact except
    rw [List.foldl_cons, ← setCausal_curBatch c except]
    exact ih hready' hexact'

/-- A batch that was stored is ready for its mask. -/
theorem Stored.ready {c c' : Causal} {batch : List Token} {locs : List Nat}
    (hwf : c.Wf) (hne : batch ≠ []) (hpos : ∀ t ∈ batch, 0 ≤ t.pos ∧ t.pos ≤ maxInt32)
    (h : Stored c batch locs c') : c'.Ready := by
  have hsized : c'.Sized := hwf.toSized.of_frame h.frame
  have hlen := length_eq_of_frame h.frame
  have hbatch : c'.curBatch = batch := congrArg Prod.fst h.entry
  refine { hsized with positions := ?_, current := ?_, complete := ?_ }
  · rw [hbatch]
    exact hpos
  · -- the batch has at least one location, so there is a cell
    have hlocs := h.length hne
    cases batch with
    | nil => exact absurd rfl hne
    | cons t rest =>
      cases locs with
      | nil => simp at hlocs
      | cons l ls =>
        have hl : l < c.cells.length := (h.free (t, l) List.mem_cons_self).1
        have := h.current
        omega
  · intro t ht p j hst hp
    rw [hbatch] at ht
    refine h.window t ht p j hst fun lowest hl => ?_
    obtain ⟨lowest', hl', hlow⟩ := lowestPos_batch (c.withBatch batch) ht
    rw [hl] at hl'
    injection hl' with hl'
    subst hl'
    obtain ⟨u, hu, -, hpu⟩ := hlow.attained
    have hmax : maxInt32 = 2147483647 := rfl
    have hle := hlow.le t ht rfl
    have hu0 := hpos u hu
    have ht0 := hpos t ht
    have := hwf.window_nonneg
    have := hwf.window_le
    rw [window_eq_of_frame h.frame] at hp
    rw [i32_eq (by omega) (by omega)]
    omega

/-- After a successful `StartForward` in any reachable state, and after every
`SetCausal` that follows it, the mask is exact. -/
theorem mask_exact {cfg : CausalConfig} {maxSequences capacity maxBatch : Nat} {c c' : Causal}
    (hreach : (causalSys cfg maxSequences capacity maxBatch).Reachable c)
    {batch : List Token} {order : List Int} (horder : c.IsOrder batch order)
    (hpos : ∀ t ∈ batch, 0 ≤ t.pos ∧ t.pos ≤ maxInt32)
    (hok : c.startForward batch order false = (c', none)) (excepts : List (List Nat))
    {i : Nat} {t : Token} (ht : batch[i]? = some t) :
    let final := excepts.foldl setCausal c'
    final.curCellRange.max < final.cells.length ∧
      ∀ j, final.Unmasked i j ↔ final.Visible i t j := by
  have hwf := wf_invariant cfg maxSequences capacity maxBatch c hreach
  have hne : batch ≠ [] := by
    rintro rfl
    simp at ht
  rcases startForward_cases hwf.covered hwf.ranges horder with
    ⟨c0, heq, -, -⟩ | ⟨locs, c0, heq, hst⟩
  · rw [heq] at hok
    simp at hok
  · rw [heq] at hok
    simp only [Prod.mk.injEq, and_true] at hok
    subst hok
    have hready := (hst.ready hwf hne hpos).withLoc locs
    obtain ⟨hready', hexact, hbatch⟩ :=
      setCausal_foldl_exact excepts hready.buildMask hready.maskExact
    have hcur : c0.curBatch = batch := congrArg Prod.fst hst.entry
    refine ⟨hready'.current, hexact.exact i t ?_⟩
    rw [hbatch]
    change c0.curBatch[i]? = some t
    rw [hcur]
    exact ht

/-- A window of two tokens, padded to four cells: the second token of the first
batch, once with its own entry excepted from the causal order. -/
theorem mask_exact_window :
    let c := ((newSWACache 2 4 true (by decide) (by decide)).init 1 8 2).get rfl
    let c' := (c.startForward [⟨7, 0⟩, ⟨7, 1⟩] [7] false).1
    let final := [[1]].foldl setCausal c'
    final.curCellRange.max < final.cells.length ∧
      ∀ j, final.Unmasked 1 j ↔ final.Visible 1 ⟨7, 1⟩ j := by
  intro c c'
  have hinit : (causalSys (newSWACache 2 4 true (by decide) (by decide)) 1 8 2).Reachable c :=
    .init rfl
  have horder : c.IsOrder [⟨7, 0⟩, ⟨7, 1⟩] [7] := by
    unfold IsOrder
    decide
  exact mask_exact hinit horder (by decide) rfl [[1]] rfl

end Causal

end Prismalama.Kvcache
