import Prismalama.Lib.CountedWrites
import Prismalama.Ml.Bc4Block

/-!
# Compressed weights (`ml/weightimage/compression.go`)

An image is cut into blocks of four by four cells. In the last block of a row the compressor takes
the weights of the next row for the cells right of the image, and it counts these cells; the
decompressor does not (`blockIdx`). Each value has a bounded error for all weights of a size exactly
where neither this nor the lost indices of a block matter (`decompress_bounded_iff`).
-/

namespace Prismalama.Ml.WeightImage

open Prismalama.Lib

inductive CompressionFormat where
  | F32
  | BC4
  | BC7
  | DCT
  deriving DecidableEq

structure CompressedWeights where
  Format : CompressionFormat
  Width : Nat
  Height : Nat
  BlocksX : Nat
  BlocksY : Nat
  Data : List Nat

/-- The cells of a block in the order of the loops. -/
def cells : List Nat := List.range 16

/-- `blockData` -/
def blockData (weights : List ℚ) (w bx by_ : Nat) : List ℚ :=
  cells.map fun i =>
    let px := bx * 4 + i % 4
    let py := by_ * 4 + i / 4
    let idx := py * w + px
    if idx < weights.length then weights.getD idx 0 else 0

def CompressBC4 (weights : List ℚ) (w h : Nat) : CompressedWeights :=
  let blocksX := (w + 4 - 1) / 4
  let blocksY := (h + 4 - 1) / 4
  { Format := .BC4
    Width := w
    Height := h
    BlocksX := blocksX
    BlocksY := blocksY
    -- the blocks of a row from left to right, row by row
    Data := (List.range (blocksX * blocksY)).flatMap fun b =>
      compressBC4Block (blockData weights w (b % blocksX) (b / blocksX)) }

/-- The bytes of block `b`. -/
def blockOf (cw : CompressedWeights) (b : Nat) : List Nat := (cw.Data.drop (b * 8)).take 8

/-- The column of a cell. -/
def cellX (cw : CompressedWeights) (b i : Nat) : Nat := b % cw.BlocksX * 4 + i % 4

/-- The row of a cell. -/
def cellY (cw : CompressedWeights) (b i : Nat) : Nat := b / cw.BlocksX * 4 + i / 4

/-- The cell is in the image. -/
def inImage (cw : CompressedWeights) (b i : Nat) : Bool :=
  !(decide (cw.Width ≤ cellX cw b i) || decide (cw.Height ≤ cellY cw b i))

/-- The loop over the cells of block `b`, with `blockIdx` for the counter. -/
def decompressBlock (cw : CompressedWeights) (weights : List ℚ) (b : Nat) : List ℚ :=
  (cells.foldl (countedWrite (inImage cw b)
    (fun i => cellY cw b i * cw.Width + cellX cw b i) (cellValue (blockOf cw b))) (0, weights)).2

def DecompressBC4 (cw : CompressedWeights) : Except String (List ℚ) :=
  if cw.Format ≠ .BC4 then .error "not a BC4 compressed block"
  else .ok ((List.range (cw.BlocksX * cw.BlocksY)).foldl (decompressBlock cw)
    (List.replicate (cw.Width * cw.Height) 0))

/-! ## The blocks of an image -/

theorem compressBC4Block_length (pixels : List ℚ) : (compressBC4Block pixels).length = 8 := by
  rw [compressBC4Block, List.length_append, List.length_take, List.length_append,
    List.length_replicate, Nat.min_eq_left (by omega)]
  rfl

theorem blockData_length (weights : List ℚ) (w bx by_ : Nat) :
    (blockData weights w bx by_).length = 16 := by
  rw [blockData, List.length_map, cells, List.length_range]

theorem blockData_getD (weights : List ℚ) (w bx by_ : Nat) {i : Nat} (hi : i < 16) :
    (blockData weights w bx by_).getD i 0 =
      weights.getD ((by_ * 4 + i / 4) * w + (bx * 4 + i % 4)) 0 := by
  rw [blockData, List.getD_eq_getElem?_getD, List.getElem?_map, cells, List.getElem?_range hi,
    Option.map_some, Option.getD_some]
  dsimp only
  split
  · rfl
  · next hge =>
    rw [List.getD_eq_getElem?_getD, List.getElem?_eq_none (not_lt.mp hge), Option.getD_none]

/-- Of blocks of equal length each starts at its number times that length. -/
theorem flatMap_block {f : Nat → List Nat} {n b : Nat} (hlen : ∀ b, (f b).length = 8)
    (hb : b < n) : (((List.range n).flatMap f).drop (b * 8)).take 8 = f b := by
  obtain ⟨k, rfl⟩ := Nat.exists_eq_add_of_lt hb
  have hbefore : ((List.range b).flatMap f).length = b * 8 := by
    rw [List.length_flatMap, List.map_congr_left fun b _ => hlen b, List.map_const',
      List.length_range, List.sum_replicate, smul_eq_mul]
  rw [Nat.add_assoc, List.range_add, List.flatMap_append, List.drop_left' hbefore,
    List.range_succ_eq_map, List.map_cons, List.flatMap_cons, List.take_left' (hlen _), Nat.add_zero]

variable {weights : List ℚ} {w h : Nat}

theorem blockOf_compress {b : Nat}
    (hb : b < (CompressBC4 weights w h).BlocksX * (CompressBC4 weights w h).BlocksY) :
    blockOf (CompressBC4 weights w h) b =
      compressBC4Block (blockData weights w (b % (CompressBC4 weights w h).BlocksX)
        (b / (CompressBC4 weights w h).BlocksX)) :=
  flatMap_block (fun _ => compressBC4Block_length _) hb

/-- The block of a place of the image, and the cell in the block. -/
structure Place (weights : List ℚ) (w h x y b i : Nat) : Prop where
  block : b < (CompressBC4 weights w h).BlocksX * (CompressBC4 weights w h).BlocksY
  col : b % (CompressBC4 weights w h).BlocksX = x / 4
  row : b / (CompressBC4 weights w h).BlocksX = y / 4
  cell : i = y % 4 * 4 + x % 4

theorem exists_place {x y : Nat} (hx : x < w) (hy : y < h) :
    ∃ b, Place weights w h x y b (y % 4 * 4 + x % 4) := by
  have hbx : x / 4 < (CompressBC4 weights w h).BlocksX := by
    show x / 4 < (w + 4 - 1) / 4
    omega
  have hby : y / 4 < (CompressBC4 weights w h).BlocksY := by
    show y / 4 < (h + 4 - 1) / 4
    omega
  refine ⟨x / 4 + y / 4 * (CompressBC4 weights w h).BlocksX, ?_, ?_, ?_, rfl⟩
  · calc x / 4 + y / 4 * (CompressBC4 weights w h).BlocksX
        < (y / 4 + 1) * (CompressBC4 weights w h).BlocksX := by
          rw [Nat.succ_mul]
          omega
      _ ≤ (CompressBC4 weights w h).BlocksY * (CompressBC4 weights w h).BlocksX :=
          Nat.mul_le_mul_right _ hby
      _ = (CompressBC4 weights w h).BlocksX * (CompressBC4 weights w h).BlocksY := Nat.mul_comm _ _
  · rw [Nat.add_mul_mod_self_right, Nat.mod_eq_of_lt hbx]
  · rw [Nat.add_mul_div_right _ _ (Nat.zero_lt_of_lt hbx), Nat.div_eq_of_lt hbx, Nat.zero_add]

theorem inImage_iff {b i : Nat} : inImage (CompressBC4 weights w h) b i = true ↔
    cellX (CompressBC4 weights w h) b i < w ∧ cellY (CompressBC4 weights w h) b i < h := by
  rw [inImage, Bool.not_eq_true', Bool.or_eq_false_iff, decide_eq_false_iff_not,
    decide_eq_false_iff_not, not_le, not_le]
  exact Iff.rfl

namespace Place

variable {x y b i : Nat}

theorem cellX_eq (hp : Place weights w h x y b i) : cellX (CompressBC4 weights w h) b i = x := by
  rw [cellX, hp.col, hp.cell]
  omega

theorem cellY_eq (hp : Place weights w h x y b i) : cellY (CompressBC4 weights w h) b i = y := by
  rw [cellY, hp.row, hp.cell]
  omega

/-- No other cell in the image has the place. -/
theorem unique (hp : Place weights w h x y b i) (hx : x < w) {b' i' : Nat} (hi' : i' < 16)
    (hinside : inImage (CompressBC4 weights w h) b' i' = true)
    (hpos : cellY (CompressBC4 weights w h) b' i' * w + cellX (CompressBC4 weights w h) b' i' =
      y * w + x) : b' = b ∧ i' = i := by
  obtain ⟨hx', -⟩ := inImage_iff.mp hinside
  have hmod := congrArg (· % w) hpos
  have hdiv := congrArg (· / w) hpos
  rw [Nat.add_comm, Nat.add_mul_mod_self_right, Nat.mod_eq_of_lt hx', Nat.add_comm (y * w),
    Nat.add_mul_mod_self_right, Nat.mod_eq_of_lt hx] at hmod
  have hw : 0 < w := Nat.zero_lt_of_lt hx
  rw [Nat.add_comm, Nat.add_mul_div_right _ _ hw, Nat.div_eq_of_lt hx', Nat.add_comm (y * w),
    Nat.add_mul_div_right _ _ hw, Nat.div_eq_of_lt hx, Nat.zero_add, Nat.zero_add] at hdiv
  rw [cellX] at hmod
  rw [cellY] at hdiv
  have hcol : b' % (CompressBC4 weights w h).BlocksX = x / 4 := by omega
  have hrow : b' / (CompressBC4 weights w h).BlocksX = y / 4 := by omega
  refine ⟨?_, by rw [hp.cell]; omega⟩
  rw [← Nat.div_add_mod b' (CompressBC4 weights w h).BlocksX,
    ← Nat.div_add_mod b (CompressBC4 weights w h).BlocksX, hcol, hrow, hp.col, hp.row]

end Place

/-- The counter of the decompressor at a cell of the image: it leaves out the cells right of the
image. -/
def blockIdx (w x y : Nat) : Nat :=
  ((List.range (y % 4 * 4 + x % 4)).filter fun j => decide (x / 4 * 4 + j % 4 < w)).length

theorem blockIdx_lt (w x y : Nat) : blockIdx w x y < 16 := by
  refine (List.length_filter_le _ _).trans_lt ?_
  rw [List.length_range]
  omega

/-- The values that are decompressed. -/
def decompressed (weights : List ℚ) (w h : Nat) : List ℚ :=
  (List.range ((CompressBC4 weights w h).BlocksX * (CompressBC4 weights w h).BlocksY)).foldl
    (decompressBlock (CompressBC4 weights w h)) (List.replicate (w * h) 0)

theorem DecompressBC4_eq (weights : List ℚ) (w h : Nat) :
    DecompressBC4 (CompressBC4 weights w h) = .ok (decompressed weights w h) := rfl

theorem decompressBlock_length (cw : CompressedWeights) (ws : List ℚ) (b : Nat) :
    (decompressBlock cw ws b).length = ws.length := countedWrite_length _ _ _ _ _

theorem decompressed_length (weights : List ℚ) (w h : Nat) :
    (decompressed weights w h).length = w * h := by
  rw [decompressed, foldl_length (decompressBlock_length _), List.length_replicate]

theorem place_lt {w h x y : Nat} (hx : x < w) (hy : y < h) : y * w + x < w * h := by
  calc y * w + x < (y + 1) * w := by
        rw [Nat.succ_mul]
        omega
    _ ≤ h * w := Nat.mul_le_mul_right _ hy
    _ = w * h := Nat.mul_comm h w

theorem cells_split {i : Nat} (hi : i < 16) :
    ∃ after, cells = List.range i ++ i :: after ∧ ∀ j ∈ after, j < 16 ∧ j ≠ i := by
  obtain ⟨k, hk⟩ := Nat.exists_eq_add_of_lt hi
  refine ⟨(List.range k).map (i + ·.succ), ?_, fun j hj => ?_⟩
  · rw [cells, hk, Nat.add_assoc, List.range_add, List.range_succ_eq_map, List.map_cons,
      List.map_map, Nat.add_zero]
    rfl
  · obtain ⟨l, hl, rfl⟩ := List.mem_map.mp hj
    have hlt := List.mem_range.mp hl
    omega

namespace Place

variable {x y b i : Nat}

theorem pos_eq (hp : Place weights w h x y b i) :
    cellY (CompressBC4 weights w h) b i * w + cellX (CompressBC4 weights w h) b i =
      y * w + x := by
  rw [hp.cellX_eq, hp.cellY_eq]

theorem inside (hp : Place weights w h x y b i) (hx : x < w) (hy : y < h) :
    inImage (CompressBC4 weights w h) b i = true := by
  rw [inImage_iff, hp.cellX_eq, hp.cellY_eq]
  exact ⟨hx, hy⟩

/-- The rows above the place are in the image. -/
theorem count (hp : Place weights w h x y b i) (hy : y < h) :
    ((List.range i).filter (inImage (CompressBC4 weights w h) b)).length = blockIdx w x y := by
  rw [blockIdx, ← hp.cell]
  refine congrArg List.length (List.filter_congr fun j hj => ?_)
  have hj := List.mem_range.mp hj
  have hcell := hp.cell
  rw [Bool.eq_iff_iff, inImage_iff, decide_eq_true_eq, cellX, cellY, hp.col, hp.row]
  exact and_iff_left (by omega)

/-- The block of a place writes its value there. -/
theorem read (hp : Place weights w h x y b i) (hx : x < w) (hy : y < h) {ws : List ℚ}
    (hws : ws.length = w * h) :
    (decompressBlock (CompressBC4 weights w h) ws b)[y * w + x]? = some (cellValue
      (compressBC4Block (blockData weights w (x / 4) (y / 4))) (blockIdx w x y)) := by
  have hi : i < 16 := by
    rw [hp.cell]
    omega
  obtain ⟨after, hcells, hafter⟩ := cells_split hi
  have hother : ∀ j ∈ after, inImage (CompressBC4 weights w h) b j = true →
      cellY (CompressBC4 weights w h) b j * w + cellX (CompressBC4 weights w h) b j ≠
        cellY (CompressBC4 weights w h) b i * w + cellX (CompressBC4 weights w h) b i := by
    intro j hj hin heq
    rw [hp.pos_eq] at heq
    exact (hafter j hj).2 (hp.unique hx (hafter j hj).1 hin heq).2
  have hlt : cellY (CompressBC4 weights w h) b i * w + cellX (CompressBC4 weights w h) b i <
      ws.length := by
    rw [hp.pos_eq, hws]
    exact place_lt hx hy
  have hread := @countedWrite_read _ _ (inImage (CompressBC4 weights w h) b)
    (fun i => cellY (CompressBC4 weights w h) b i * w + cellX (CompressBC4 weights w h) b i)
    (cellValue (blockOf (CompressBC4 weights w h) b)) (List.range i) after i (hp.inside hx hy)
    hother (0, ws) hlt
  have hblock := @blockOf_compress weights w h b hp.block
  rw [hp.col, hp.row] at hblock
  rw [hp.count hy, Nat.zero_add] at hread
  rw [decompressBlock, hcells, ← hp.pos_eq, ← hblock]
  exact hread

end Place

/-- What is decompressed at a place of the image. -/
theorem decompressed_at {x y : Nat} (hx : x < w) (hy : y < h) :
    (decompressed weights w h)[y * w + x]? = some (cellValue
      (compressBC4Block (blockData weights w (x / 4) (y / 4))) (blockIdx w x y)) := by
  obtain ⟨b, hp⟩ := @exists_place weights w h x y hx hy
  refine foldl_own (decompressBlock_length _) (fun ws b' hb' => ?_)
    (fun ws hws => hp.read hx hy hws) (List.length_replicate)
    (.inl (List.mem_range.mpr hp.block))
  refine countedWrite_frame _ _ _ (fun i' hi' hinside hpos => hb' ?_) _
  exact (hp.unique hx (List.mem_range.mp hi') hinside hpos).1

/-! ## The error bound -/

/-- The weights of a block; cells outside of the image count as zero. -/
def blockCells (weights : List ℚ) (w h bx by_ : Nat) : List ℚ :=
  cells.map fun i =>
    if bx * 4 + i % 4 < w ∧ by_ * 4 + i / 4 < h then
      weights.getD ((by_ * 4 + i / 4) * w + (bx * 4 + i % 4)) 0
    else 0

def smallest (xs : List ℚ) : ℚ := xs.min?.getD 0

def largest (xs : List ℚ) : ℚ := xs.max?.getD 0

/-- Decompression succeeds, and each value is as near to its weight as the block allows. -/
def Bounded (weights : List ℚ) (w h : Nat) : Prop :=
  ∃ out, DecompressBC4 (CompressBC4 weights w h) = .ok out ∧ out.length = w * h ∧
    ∀ x < w, ∀ y < h, |out.getD (y * w + x) 0 - weights.getD (y * w + x) 0| ≤
      (largest (blockCells weights w h (x / 4) (y / 4)) -
        smallest (blockCells weights w h (x / 4) (y / 4))) / 7 + 4 / 255

theorem smallest_spec {xs : List ℚ} (hne : xs ≠ []) :
    smallest xs ∈ xs ∧ ∀ x ∈ xs, smallest xs ≤ x := by
  obtain ⟨a, ha⟩ := Option.isSome_iff_exists.mp (List.isSome_min?_of_ne_nil hne)
  rw [smallest, ha]
  exact List.min?_eq_some_iff.mp ha

theorem largest_spec {xs : List ℚ} (hne : xs ≠ []) :
    largest xs ∈ xs ∧ ∀ x ∈ xs, x ≤ largest xs := by
  obtain ⟨a, ha⟩ := Option.isSome_iff_exists.mp (List.isSome_max?_of_ne_nil hne)
  rw [largest, ha]
  exact List.max?_eq_some_iff.mp ha

/-- What is decompressed at a place of the image, from the weights of its block. -/
theorem decompressed_getD {x y : Nat} (hx : x < w) (hy : y < h) :
    (decompressed weights w h).getD (y * w + x) 0 =
      dequant (blockData weights w (x / 4) (y / 4))
        (if blockIdx w x y < 12 then index (blockData weights w (x / 4) (y / 4))
          ((blockData weights w (x / 4) (y / 4)).getD (blockIdx w x y) 0) else 0) := by
  rw [List.getD_eq_getElem?_getD, decompressed_at hx hy, Option.getD_some,
    cellValue_compressBC4Block (blockData_length _ _ _ _) (blockIdx_lt w x y)]

/-- The sizes where the decompressor finds the index of every weight, and a block has no weights of
another one. -/
def Fits (w h : Nat) : Prop := h = 1 ∨ w % 4 = 0 ∧ h ≤ 3 ∨ w = 1 ∧ h ≤ 4 ∨ w = 2 ∧ h = 2

theorem blockIdx_eq {x y : Nat} (hfull : ∀ j < y % 4 * 4 + x % 4, x / 4 * 4 + j % 4 < w) :
    blockIdx w x y = y % 4 * 4 + x % 4 := by
  rw [blockIdx, List.filter_eq_self.mpr fun j hj => decide_eq_true (hfull j (List.mem_range.mp hj)),
    List.length_range]

/-- The index that is read is that of the weight. -/
theorem Fits.blockIdx_spec (hfits : Fits w h) {x y : Nat} (hx : x < w) (hy : y < h) :
    blockIdx w x y < 12 ∧
      (y / 4 * 4 + blockIdx w x y / 4) * w + (x / 4 * 4 + blockIdx w x y % 4) = y * w + x := by
  have hfull : (∀ j < y % 4 * 4 + x % 4, x / 4 * 4 + j % 4 < w) → y % 4 < 3 →
      blockIdx w x y < 12 ∧
        (y / 4 * 4 + blockIdx w x y / 4) * w + (x / 4 * 4 + blockIdx w x y % 4) = y * w + x := by
    intro hin hy3
    have hrow : y / 4 * 4 + (y % 4 * 4 + x % 4) / 4 = y := by omega
    have hcol : x / 4 * 4 + (y % 4 * 4 + x % 4) % 4 = x := by omega
    rw [blockIdx_eq hin, hrow, hcol]
    exact ⟨by omega, rfl⟩
  rcases hfits with rfl | ⟨hw, hh⟩ | ⟨rfl, hh⟩ | ⟨rfl, rfl⟩
  · exact hfull (fun j hj => by omega) (by omega)
  · exact hfull (fun j hj => by omega) (by omega)
  · obtain rfl : x = 0 := by omega
    have hsmall : ∀ y < 4, blockIdx 1 0 y = y := by decide
    rw [hsmall y (by omega)]
    omega
  · have hsmall : ∀ x < 2, ∀ y < 2, blockIdx 2 x y = y * 2 + x := by decide
    rw [hsmall x hx y hy]
    omega

theorem mem_blockCells {bx by_ i : Nat} (hi : i < 16) (hx : bx * 4 + i % 4 < w)
    (hy : by_ * 4 + i / 4 < h) :
    weights.getD ((by_ * 4 + i / 4) * w + (bx * 4 + i % 4)) 0 ∈ blockCells weights w h bx by_ :=
  List.mem_map.mpr ⟨i, List.mem_range.mpr hi, if_pos ⟨hx, hy⟩⟩

theorem zero_mem_blockCells {bx by_ i : Nat} (hi : i < 16)
    (hout : ¬ (bx * 4 + i % 4 < w ∧ by_ * 4 + i / 4 < h)) :
    0 ∈ blockCells weights w h bx by_ :=
  List.mem_map.mpr ⟨i, List.mem_range.mpr hi, if_neg hout⟩

/-- The compressor takes no weight that is not in the block. -/
theorem Fits.blockData_subset (hfits : Fits w h) (hlen : weights.length = w * h) {x y : Nat}
    (hx : x < w) (hy : y < h) :
    blockData weights w (x / 4) (y / 4) ⊆ blockCells weights w h (x / 4) (y / 4) := by
  intro q hq
  obtain ⟨i, hi, rfl⟩ := List.mem_map.mp hq
  have hi := List.mem_range.mp hi
  dsimp only
  by_cases hin : x / 4 * 4 + i % 4 < w ∧ y / 4 * 4 + i / 4 < h
  · rw [if_pos (by rw [hlen]; exact place_lt hin.1 hin.2)]
    exact mem_blockCells hi hin.1 hin.2
  · split
    · next hlt =>
      -- a weight of the next row: the cell is right of the image
      have hrow : y / 4 * 4 + i / 4 < h := by
        by_contra hge
        have hmul := Nat.mul_le_mul_right w (not_lt.mp hge)
        rw [hlen, Nat.mul_comm w h] at hlt
        omega
      have hcol : w ≤ x / 4 * 4 + i % 4 := by omega
      rcases hfits with rfl | ⟨hw, hh⟩ | ⟨rfl, hh⟩ | ⟨rfl, rfl⟩
      · have hzero : y / 4 * 4 + i / 4 = 0 := by omega
        rw [hzero] at hlt
        omega
      · omega
      · have hcell := @mem_blockCells weights 1 h (x / 4) (y / 4) ((i / 4 + i % 4) * 4) (by omega)
          (by omega) (by omega)
        convert hcell using 2
        omega
      · have hcell := @mem_blockCells weights 2 2 (x / 4) (y / 4)
          ((i / 4 * 2 + i % 4) / 2 * 4 + (i / 4 * 2 + i % 4) % 2) (by omega) (by omega) (by omega)
        convert hcell using 2
        omega
    · exact zero_mem_blockCells hi hin

theorem blockCells_ne_nil (bx by_ : Nat) : blockCells weights w h bx by_ ≠ [] := by
  intro hnil
  have hlen := congrArg List.length hnil
  rw [blockCells, List.length_map, cells, List.length_range] at hlen
  cases hlen

theorem blockData_inRange (hrange : InRange weights) (bx by_ : Nat) :
    InRange (blockData weights w bx by_) := by
  intro q hq
  obtain ⟨i, -, rfl⟩ := List.mem_map.mp hq
  dsimp only
  split
  · next hlt =>
    rw [List.getD_eq_getElem?_getD, List.getElem?_eq_getElem hlt, Option.getD_some]
    exact hrange _ (List.getElem_mem hlt)
  · norm_num

/-- The index that is read for a weight. -/
def indexRead (weights : List ℚ) (w x y : Nat) : Nat :=
  if blockIdx w x y < 12 then index (blockData weights w (x / 4) (y / 4))
    ((blockData weights w (x / 4) (y / 4)).getD (blockIdx w x y) 0) else 0

/-- Of these weights each one is read with the index computed for it, and nothing that a block is
compressed from lies outside of the range of its cells. -/
structure ReadsOwn (weights : List ℚ) (w h : Nat) : Prop where
  index_eq : ∀ x < w, ∀ y < h, indexRead weights w x y =
    index (blockData weights w (x / 4) (y / 4)) (weights.getD (y * w + x) 0)
  bounds : ∀ x < w, ∀ y < h, ∀ q ∈ blockData weights w (x / 4) (y / 4),
    smallest (blockCells weights w h (x / 4) (y / 4)) ≤ q ∧
      q ≤ largest (blockCells weights w h (x / 4) (y / 4))

/-- Every weight is one of those that its block is compressed from. -/
theorem mem_blockData (weights : List ℚ) (w x y : Nat) :
    weights.getD (y * w + x) 0 ∈ blockData weights w (x / 4) (y / 4) := by
  have hi : y % 4 * 4 + x % 4 < 16 := by omega
  have hplace : (y / 4 * 4 + (y % 4 * 4 + x % 4) / 4) * w +
      (x / 4 * 4 + (y % 4 * 4 + x % 4) % 4) = y * w + x := by
    have hrow : y / 4 * 4 + (y % 4 * 4 + x % 4) / 4 = y := by omega
    have hcol : x / 4 * 4 + (y % 4 * 4 + x % 4) % 4 = x := by omega
    rw [hrow, hcol]
  rw [← hplace, ← blockData_getD weights w (x / 4) (y / 4) hi, List.getD_eq_getElem?_getD,
    List.getElem?_eq_getElem (by rwa [blockData_length]), Option.getD_some]
  exact List.getElem_mem _

/-- Such weights are decompressed within the bound, whatever the size of the image. -/
theorem ReadsOwn.bounded (h' : ReadsOwn weights w h) (hrange : InRange weights) :
    Bounded weights w h := by
  refine ⟨_, DecompressBC4_eq weights w h, decompressed_length weights w h, fun x hx y hy => ?_⟩
  have hindex := h'.index_eq x hx y hy
  rw [indexRead] at hindex
  rw [decompressed_getD hx hy, hindex]
  exact dequant_index (blockData_inRange hrange _ _) (h'.bounds x hx y hy)
    (mem_blockData weights w x y)

theorem Fits.readsOwn (hfits : Fits w h) (hlen : weights.length = w * h) :
    ReadsOwn weights w h := by
  refine ⟨fun x hx y hy => ?_, fun x hx y hy q hq => ?_⟩
  · obtain ⟨hlt, hplace⟩ := hfits.blockIdx_spec hx hy
    rw [indexRead, if_pos hlt, blockData_getD _ _ _ _ (blockIdx_lt w x y), hplace]
  · have hcell := hfits.blockData_subset hlen hx hy hq
    exact ⟨(smallest_spec (blockCells_ne_nil _ _)).2 q hcell,
      (largest_spec (blockCells_ne_nil _ _)).2 q hcell⟩

/-! ## Sizes that do not fit -/

/-- A weight that comes back as the lower end point, in a block with nothing larger. -/
theorem not_bounded {x y : Nat} (hx : x < w) (hy : y < h)
    (hpixels : ∀ p ∈ blockData weights w (x / 4) (y / 4), 0 ≤ p ∧ p ≤ 1)
    (hzero : 0 ∈ blockData weights w (x / 4) (y / 4))
    (hindex : blockIdx w x y < 12 → index (blockData weights w (x / 4) (y / 4))
      ((blockData weights w (x / 4) (y / 4)).getD (blockIdx w x y) 0) = 0)
    {v : ℚ} (hv : 1 / 8 ≤ v) (hweight : weights.getD (y * w + x) 0 = v)
    (hcells : ∀ c ∈ blockCells weights w h (x / 4) (y / 4), 0 ≤ c ∧ c ≤ v) :
    ¬ Bounded weights w h := by
  rintro ⟨out, hout, -, hbound⟩
  rw [DecompressBC4_eq] at hout
  cases hout
  have herr := hbound x hx y hy
  have hidx : (if blockIdx w x y < 12 then index (blockData weights w (x / 4) (y / 4))
      ((blockData weights w (x / 4) (y / 4)).getD (blockIdx w x y) 0) else 0) = 0 := by
    split
    · next hlt => exact hindex hlt
    · rfl
  rw [decompressed_getD hx hy, hidx, (dequant_lowest hpixels hzero).1, hweight] at herr
  have hlargest := (hcells _ (largest_spec (blockCells_ne_nil _ _)).1).2
  have hsmallest := (hcells _ (smallest_spec (blockCells_ne_nil _ _)).1).1
  have habs := (abs_le.mp herr).1
  linarith

/-- One weight of an image is one, the others are zero. -/
def single (w h n : Nat) : List ℚ := (List.replicate (w * h) 0).set n 1

theorem single_length (w h n : Nat) : (single w h n).length = w * h := by
  rw [single, List.length_set, List.length_replicate]

theorem single_getD {n : Nat} (hn : n < w * h) (k : Nat) :
    (single w h n).getD k 0 = if k = n then 1 else 0 := by
  rw [single, List.getD_eq_getElem?_getD, List.getElem?_set, List.length_replicate, if_pos hn]
  by_cases hk : k = n
  · rw [if_pos hk, if_pos hk.symm, Option.getD_some]
  · rw [if_neg hk, if_neg (Ne.symm hk), List.getElem?_replicate]
    split <;> rfl

theorem single_inRange (w h n : Nat) : InRange (single w h n) := by
  intro p hp
  rcases List.mem_or_eq_of_mem_set hp with hp | rfl
  · rw [List.eq_of_mem_replicate hp]
    norm_num
  · norm_num

/-- A cell of the image is lost when the index that is read for it is that of another weight. -/
theorem single_not_bounded {x y : Nat} (hx : x < w) (hy : y < h) {i : Nat} (hi : i < 16)
    (hother : (y / 4 * 4 + i / 4) * w + (x / 4 * 4 + i % 4) ≠ y * w + x)
    (hread : blockIdx w x y < 12 → blockIdx w x y = i) :
    ¬ Bounded (single w h (y * w + x)) w h := by
  have hn : y * w + x < w * h := place_lt hx hy
  have hbit : ∀ k, (0 : ℚ) ≤ (single w h (y * w + x)).getD k 0 ∧
      (single w h (y * w + x)).getD k 0 ≤ 1 := by
    intro k
    rw [single_getD hn]
    split <;> norm_num
  have hpixels : ∀ p ∈ blockData (single w h (y * w + x)) w (x / 4) (y / 4), 0 ≤ p ∧ p ≤ 1 := by
    intro p hp
    obtain ⟨j, -, rfl⟩ := List.mem_map.mp hp
    dsimp only
    split
    · exact hbit _
    · norm_num
  have hpixel : (blockData (single w h (y * w + x)) w (x / 4) (y / 4)).getD i 0 = 0 := by
    rw [blockData_getD _ _ _ _ hi, single_getD hn, if_neg hother]
  have hzero : 0 ∈ blockData (single w h (y * w + x)) w (x / 4) (y / 4) := by
    rw [List.getD_eq_getElem?_getD, List.getElem?_eq_getElem (by rwa [blockData_length]),
      Option.getD_some] at hpixel
    rw [← hpixel]
    exact List.getElem_mem _
  refine not_bounded hx hy hpixels hzero (fun hlt => ?_) (v := 1) (by norm_num)
    (by rw [single_getD hn, if_pos rfl]) (fun c hc => ?_)
  · rw [hread hlt, hpixel]
    exact (dequant_lowest hpixels hzero).2 0 hzero 0 hzero (.inr rfl)
  · obtain ⟨j, -, rfl⟩ := List.mem_map.mp hc
    split
    · exact hbit _
    · norm_num

/-- A column of more than one block, with the first weight of the second block larger than the first
one of the column. -/
def column (h : Nat) : List ℚ := ((List.replicate (1 * h) 0).set 0 (1 / 8)).set 4 1

theorem column_getD {h : Nat} (hh : 5 ≤ h) (k : Nat) :
    (column h).getD k 0 = if k = 4 then 1 else if k = 0 then 1 / 8 else 0 := by
  have hlen : (List.replicate (1 * h) (0 : ℚ)).length = h := by
    rw [List.length_replicate, Nat.one_mul]
  rw [column, List.getD_eq_getElem?_getD]
  by_cases hk : k = 4
  · rw [if_pos hk, hk, List.getElem?_set_self (by rw [List.length_set, hlen]; omega),
      Option.getD_some]
  · rw [if_neg hk, List.getElem?_set_ne (Ne.symm hk)]
    by_cases hk0 : k = 0
    · rw [if_pos hk0, hk0, List.getElem?_set_self (by rw [hlen]; omega), Option.getD_some]
    · rw [if_neg hk0, List.getElem?_set_ne (Ne.symm hk0), List.getElem?_replicate]
      split <;> rfl

theorem column_inRange (h : Nat) : InRange (column h) := by
  intro p hp
  rcases List.mem_or_eq_of_mem_set hp with hp | rfl
  · rcases List.mem_or_eq_of_mem_set hp with hp | rfl
    · rw [List.eq_of_mem_replicate hp]
      norm_num
    · norm_num
  · norm_num

theorem column_not_bounded {h : Nat} (hh : 5 ≤ h) : ¬ Bounded (column h) 1 h := by
  have hbit : ∀ k, (0 : ℚ) ≤ (column h).getD k 0 ∧ (column h).getD k 0 ≤ 1 := by
    intro k
    rw [column_getD hh]
    split
    · norm_num
    · split <;> norm_num
  have hpixels : ∀ p ∈ blockData (column h) 1 (0 / 4) (0 / 4), 0 ≤ p ∧ p ≤ 1 := by
    intro p hp
    obtain ⟨j, -, rfl⟩ := List.mem_map.mp hp
    dsimp only
    split
    · exact hbit _
    · norm_num
  -- the second weight of the column, the first one and the one of the next block
  have hmem : ∀ i < 16, ∀ v, (column h).getD ((0 / 4 * 4 + i / 4) * 1 + (0 / 4 * 4 + i % 4)) 0 = v →
      v ∈ blockData (column h) 1 (0 / 4) (0 / 4) := by
    rintro i hi v rfl
    rw [← blockData_getD (column h) 1 (0 / 4) (0 / 4) hi, List.getD_eq_getElem?_getD,
      List.getElem?_eq_getElem (by rwa [blockData_length]), Option.getD_some]
    exact List.getElem_mem _
  have hzero := hmem 1 (by decide) 0 (by rw [column_getD hh]; rfl)
  have hfirst := hmem 0 (by decide) (1 / 8) (by rw [column_getD hh]; rfl)
  have hnext := hmem 7 (by decide) 1 (by rw [column_getD hh]; rfl)
  refine not_bounded (x := 0) (y := 0) (by decide) (by omega) hpixels hzero (fun _ => ?_)
    (v := 1 / 8) (le_refl _) (by rw [column_getD hh]; rfl) (fun c hc => ?_)
  · have hidx : blockIdx 1 0 0 = 0 := rfl
    rw [hidx, blockData_getD _ _ _ _ (by decide), column_getD hh]
    exact (dequant_lowest hpixels hzero).2 (1 / 8) hfirst 1 hnext (.inl (by norm_num))
  · obtain ⟨j, hj, rfl⟩ := List.mem_map.mp hc
    have hj := List.mem_range.mp hj
    split
    · next hin =>
      rw [column_getD hh, if_neg (by omega)]
      split <;> norm_num
    · norm_num

/-- In the second row of the last block the counter is the width of the block. -/
theorem blockIdx_second_row (hw : w % 4 ≠ 0) : blockIdx w (w / 4 * 4) 1 = w % 4 := by
  have hwidth : ∀ r < 4, r ≠ 0 → ((List.range 4).filter fun j => decide (j % 4 < r)).length = r := by
    decide
  have hrange : 1 % 4 * 4 + w / 4 * 4 % 4 = 4 := by omega
  rw [blockIdx, hrange, ← hwidth (w % 4) (Nat.mod_lt w (by decide)) hw]
  refine congrArg List.length (List.filter_congr fun j _ => ?_)
  exact decide_eq_decide.mpr (by omega)

/-- For the sizes that fit, and for no others, decompression is bounded whatever the weights. -/
theorem decompress_bounded_iff (hw : 1 ≤ w) (hh : 1 ≤ h) :
    (∀ weights : List ℚ, weights.length = w * h → (∀ p ∈ weights, -1 ≤ p ∧ p ≤ 1) →
      Bounded weights w h) ↔ Fits w h := by
  refine ⟨fun hall => ?_, fun hfits weights hlen hrange => (hfits.readsOwn hlen).bounded hrange⟩
  by_contra hnot
  have hsingle : ∀ {x y i : Nat}, x < w → y < h → i < 16 →
      (y / 4 * 4 + i / 4) * w + (x / 4 * 4 + i % 4) ≠ y * w + x →
      (blockIdx w x y < 12 → blockIdx w x y = i) → False :=
    fun hx hy hi hother hread => single_not_bounded hx hy hi hother hread
      (hall _ (single_length w h _) (single_inRange w h _))
  rw [Fits] at hnot
  by_cases hmod : w % 4 = 0
  · -- the fourth row is not kept
    have hidx := @blockIdx_eq w 0 3 fun j hj => by omega
    exact @hsingle 0 3 0 (by omega) (by omega) (by decide) (by omega) (by rw [hidx]; omega)
  · rcases Nat.lt_or_ge w 5 with hsmall | hlarge
    · have hcases : w = 1 ∧ 5 ≤ h ∨ w = 2 ∧ 3 ≤ h ∨ w = 3 ∧ 2 ≤ h := by omega
      rcases hcases with ⟨rfl, hh5⟩ | ⟨rfl, hh3⟩ | ⟨rfl, hh2⟩
      · refine column_not_bounded hh5 (hall _ ?_ (column_inRange h))
        rw [column, List.length_set, List.length_set, List.length_replicate]
      · exact @hsingle 0 2 4 (by decide) (by omega) (by decide) (by decide) fun _ => rfl
      · exact @hsingle 1 1 4 (by decide) (by omega) (by decide) (by decide) fun _ => rfl
    · -- the second row of the last block is read at the cells right of the first
      have hrow : 1 / 4 * 4 + w % 4 / 4 = 0 := by omega
      exact @hsingle (w / 4 * 4) 1 (w % 4) (by omega) (by omega) (by omega)
        (by rw [hrow]; omega) fun _ => blockIdx_second_row hmod

theorem decompress_bounded_iff_row : Bounded [0, 1 / 2, 1, -1, 1 / 4] 5 1 :=
  (decompress_bounded_iff (by decide) (by decide)).mpr (.inl rfl) _ rfl (by
    simp only [List.forall_mem_cons]
    norm_num)

/-- A weight in the fourth row of a block, and one in the second row of a block with two columns. -/
theorem decompress_not_bounded :
    ((single 4 4 12).length = 4 * 4 ∧ (∀ p ∈ single 4 4 12, -1 ≤ p ∧ p ≤ 1) ∧
      ¬ Bounded (single 4 4 12) 4 4) ∧
    ((single 6 2 10).length = 6 * 2 ∧ (∀ p ∈ single 6 2 10, -1 ≤ p ∧ p ≤ 1) ∧
      ¬ Bounded (single 6 2 10) 6 2) :=
  ⟨⟨rfl, single_inRange 4 4 12, @single_not_bounded 4 4 0 3 (by decide) (by decide) 0 (by decide)
      (by decide) (by decide)⟩,
    ⟨rfl, single_inRange 6 2 10, @single_not_bounded 6 2 4 1 (by decide) (by decide) 2 (by decide)
      (by decide) (by decide)⟩⟩

end Prismalama.Ml.WeightImage
