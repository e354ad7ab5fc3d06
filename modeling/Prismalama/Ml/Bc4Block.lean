import Mathlib.Data.Rat.Floor
import Mathlib.Tactic

/-!
# One block of compressed weights (`ml/weightimage/compression.go`)

Sixteen weights are kept as two end points and an index into the eight values between them. Floats
are rationals. A block has eight bytes, which leaves room for twelve of the sixteen indices: the
others are read as zero (`cellValue_compressBC4Block`).
-/

namespace Prismalama.Ml.WeightImage

/-! ## Compression -/

/-- `pNorm` -/
def pNorm (p : ℚ) : ℚ := (p + 1) / 2

def minVal (pixels : List ℚ) : ℚ :=
  pixels.foldl (fun minVal p => if pNorm p < minVal then pNorm p else minVal) 1

/-- `maxVal` after the loop -/
def loopMax (pixels : List ℚ) : ℚ :=
  pixels.foldl (fun maxVal p => if maxVal < pNorm p then pNorm p else maxVal) 0

def maxVal (pixels : List ℚ) : ℚ :=
  if loopMax pixels - minVal pixels < 1 / 256 then minVal pixels + 1 / 256 else loopMax pixels

/-- `uint8` of a float -/
def uint8 (x : ℚ) : Nat := ⌊x⌋₊ % 256

def quantMin (pixels : List ℚ) : Nat := uint8 (minVal pixels * 255)

def quantMax (pixels : List ℚ) : Nat := uint8 (maxVal pixels * 255)

/-- `range_` -/
def valRange (pixels : List ℚ) : ℚ :=
  if maxVal pixels - minVal pixels = 0 then 1 else maxVal pixels - minVal pixels

/-- `idx` -/
def index (pixels : List ℚ) (p : ℚ) : Nat :=
  let t := (pNorm p - minVal pixels) / valRange pixels
  let t := max 0 (min 1 t)
  let idx := uint8 (t * 7)
  if 7 < idx then 7 else idx

/-- Two indices in a byte, the first one in the lower half. -/
def packIndices : List Nat → List Nat
  | lo :: hi :: idxs => (lo ||| hi <<< 4) :: packIndices idxs
  | [lo] => [lo]
  | [] => []

/-- `block` has room for six bytes of `indices`. -/
def compressBC4Block (pixels : List ℚ) : List Nat :=
  [quantMin pixels, quantMax pixels] ++
    (packIndices (pixels.map (index pixels)) ++ List.replicate 8 0).take 6

/-! ## Decompression -/

/-- The 16 bytes of `indices` that the six bytes are copied to. -/
def blockIndices (block : List Nat) : List Nat :=
  (block.drop 2).take 6 ++ List.replicate 10 0

/-- The index with number `blockIdx`. -/
def indexAt (indices : List Nat) (blockIdx : Nat) : Nat :=
  let idx := indices.getD (blockIdx / 2) 0
  if blockIdx % 2 = 0 then idx &&& 15 else idx >>> 4

def cellValue (block : List Nat) (blockIdx : Nat) : ℚ :=
  let minVal : ℚ := (block.getD 0 0 : Nat) / 255
  let maxVal : ℚ := (block.getD 1 0 : Nat) / 255
  let t : ℚ := (indexAt (blockIndices block) blockIdx : Nat) / 7
  let val := minVal + t * (maxVal - minVal)
  val * 2 - 1

/-- The value that an index stands for. -/
def dequant (pixels : List ℚ) (idx : Nat) : ℚ :=
  let minVal : ℚ := quantMin pixels / 255
  let maxVal : ℚ := quantMax pixels / 255
  (minVal + idx / 7 * (maxVal - minVal)) * 2 - 1

/-! ## Indices -/

theorem index_le (pixels : List ℚ) (p : ℚ) : index pixels p ≤ 7 := by
  rw [index]
  split
  · exact le_refl 7
  · next h => exact not_lt.mp h

theorem nibbles : ∀ lo < 16, ∀ hi < 16,
    (lo ||| hi <<< 4) &&& 15 = lo ∧ (lo ||| hi <<< 4) >>> 4 = hi := by
  decide

theorem indexAt_nil (j : Nat) : indexAt [] j = 0 := by
  rw [indexAt, List.getD_nil]
  split <;> rfl

theorem indexAt_cons (b : Nat) (bs : List Nat) (j : Nat) :
    indexAt (b :: bs) (j + 2) = indexAt bs j := by
  rw [indexAt, indexAt, Nat.add_mod_right, Nat.add_div_right j (by decide)]
  rfl

theorem indexAt_congr {bs bs' : List Nat} {j : Nat}
    (h : bs.getD (j / 2) 0 = bs'.getD (j / 2) 0) : indexAt bs j = indexAt bs' j := by
  rw [indexAt, indexAt, h]

/-- Every index is read as it was packed. -/
theorem indexAt_packIndices {idxs : List Nat} (h : ∀ i ∈ idxs, i < 16) (j : Nat) :
    indexAt (packIndices idxs) j = idxs.getD j 0 := by
  induction idxs using packIndices.induct generalizing j with
  | case1 lo hi idxs ih =>
    obtain ⟨hlo, hrest⟩ := List.forall_mem_cons.mp h
    obtain ⟨hhi, hidxs⟩ := List.forall_mem_cons.mp hrest
    obtain ⟨hlow, hhigh⟩ := nibbles lo hlo hi hhi
    match j with
    | 0 => exact hlow
    | 1 => exact hhigh
    | j + 2 =>
      rw [packIndices, indexAt_cons]
      exact ih hidxs j
  | case2 lo =>
    obtain ⟨hlow, hhigh⟩ := nibbles lo (h lo List.mem_cons_self) 0 (by decide)
    rw [Nat.zero_shiftLeft, Nat.or_zero] at hlow hhigh
    match j with
    | 0 => exact hlow
    | 1 => exact hhigh
    | j + 2 =>
      rw [packIndices, indexAt_cons, indexAt_nil]
      rfl
  | case3 =>
    rw [packIndices, indexAt_nil]
    rfl

theorem packIndices_length (idxs : List Nat) :
    (packIndices idxs).length = (idxs.length + 1) / 2 := by
  induction idxs using packIndices.induct with
  | case1 lo hi idxs ih =>
    rw [packIndices, List.length_cons, ih, List.length_cons, List.length_cons]
    omega
  | case2 lo => rw [packIndices, List.length_singleton]
  | case3 => rfl

/-- Of sixteen indices the last four are lost. -/
theorem indexAt_compressBC4Block {pixels : List ℚ} (hlen : pixels.length = 16) {j : Nat}
    (hj : j < 16) :
    indexAt (blockIndices (compressBC4Block pixels)) j =
      if j < 12 then index pixels (pixels.getD j 0) else 0 := by
  have hpack : (packIndices (pixels.map (index pixels))).length = 8 := by
    rw [packIndices_length, List.length_map, hlen]
  have hblock : blockIndices (compressBC4Block pixels) =
      (packIndices (pixels.map (index pixels))).take 6 ++ List.replicate 10 0 := by
    rw [blockIndices, compressBC4Block, List.cons_append, List.singleton_append, List.drop_succ_cons,
      List.drop_succ_cons, List.drop_zero, List.take_take, Nat.min_self,
      List.take_append_of_le_length (by rw [hpack]; decide)]
  rw [hblock]
  split
  · next hlt =>
    have hidx : ∀ i ∈ pixels.map (index pixels), i < 16 := by
      intro i hi
      obtain ⟨p, -, rfl⟩ := List.mem_map.mp hi
      exact (index_le pixels p).trans_lt (by decide)
    have hsame : indexAt ((packIndices (pixels.map (index pixels))).take 6 ++
        List.replicate 10 0) j = indexAt (packIndices (pixels.map (index pixels))) j := by
      refine indexAt_congr ?_
      rw [List.getD_eq_getElem?_getD, List.getD_eq_getElem?_getD,
        List.getElem?_append_left (by rw [List.length_take, hpack]; omega),
        List.getElem?_take_of_lt (by omega)]
    rw [hsame, indexAt_packIndices hidx, List.getD_eq_getElem?_getD, List.getD_eq_getElem?_getD,
      List.getElem?_map, List.getElem?_eq_getElem (by omega)]
    rfl
  · next hge =>
    have hzero : indexAt ((packIndices (pixels.map (index pixels))).take 6 ++
        List.replicate 10 0) j = indexAt [] j := by
      refine indexAt_congr ?_
      rw [List.getD_eq_getElem?_getD, List.getElem?_append_right
        (by rw [List.length_take, hpack]; omega), List.getElem?_replicate]
      split <;> rfl
    rw [hzero, indexAt_nil]

theorem cellValue_compressBC4Block {pixels : List ℚ} (hlen : pixels.length = 16) {j : Nat}
    (hj : j < 16) :
    cellValue (compressBC4Block pixels) j =
      dequant pixels (if j < 12 then index pixels (pixels.getD j 0) else 0) := by
  rw [cellValue, dequant, indexAt_compressBC4Block hlen hj]
  rfl

/-! ## The error -/

/-- The weights are in [-1, 1]. -/
def InRange (pixels : List ℚ) : Prop := ∀ p ∈ pixels, -1 ≤ p ∧ p ≤ 1

theorem pNorm_le_one {p : ℚ} (h : p ≤ 1) : pNorm p ≤ 1 := by
  rw [pNorm]
  linarith

theorem pNorm_nonneg {p : ℚ} (h : -1 ≤ p) : 0 ≤ pNorm p := by
  rw [pNorm]
  linarith

/-- A loop that keeps the first of the values it has met, in the order `r`. -/
theorem foldl_first {r : ℚ → ℚ → Prop} [DecidableRel r] (hasymm : ∀ a b, r a b → ¬ r b a)
    (htrans : ∀ a b c, ¬ r a b → ¬ r b c → ¬ r a c) (pixels : List ℚ) (a : ℚ) {m : ℚ}
    (hm : m = pixels.foldl (fun m p => if r (pNorm p) m then pNorm p else m) a) :
    (¬ r a m ∧ ∀ p ∈ pixels, ¬ r (pNorm p) m) ∧ (m = a ∨ ∃ p ∈ pixels, m = pNorm p) := by
  have hirrefl : ∀ a, ¬ r a a := fun a h => hasymm a a h h
  induction pixels generalizing a with
  | nil =>
    obtain rfl : m = a := hm
    exact ⟨⟨hirrefl m, fun p hp => absurd hp List.not_mem_nil⟩, .inl rfl⟩
  | cons q pixels ih =>
    obtain ⟨⟨hnext, hall⟩, hmem⟩ := ih (if r (pNorm q) a then pNorm q else a) hm
    by_cases hq : r (pNorm q) a
    · rw [if_pos hq] at hnext hmem
      refine ⟨⟨htrans _ _ _ (hasymm _ _ hq) hnext, List.forall_mem_cons.mpr ⟨hnext, hall⟩⟩, .inr ?_⟩
      rcases hmem with rfl | ⟨p, hp, rfl⟩
      · exact ⟨q, List.mem_cons_self, rfl⟩
      · exact ⟨p, List.mem_cons_of_mem q hp, rfl⟩
    · rw [if_neg hq] at hnext hmem
      refine ⟨⟨hnext, List.forall_mem_cons.mpr ⟨htrans _ _ _ hq hnext, hall⟩⟩, hmem.imp_right ?_⟩
      exact fun ⟨p, hp, heq⟩ => ⟨p, List.mem_cons_of_mem q hp, heq⟩

theorem minVal_spec (pixels : List ℚ) :
    (¬ 1 < minVal pixels ∧ ∀ p ∈ pixels, ¬ pNorm p < minVal pixels) ∧
      (minVal pixels = 1 ∨ ∃ p ∈ pixels, minVal pixels = pNorm p) :=
  @foldl_first (· < ·) _ (fun _ _ => lt_asymm)
    (fun _ _ _ h h' => not_lt.mpr ((not_lt.mp h').trans (not_lt.mp h))) pixels 1 _ rfl

theorem loopMax_spec (pixels : List ℚ) :
    (¬ loopMax pixels < 0 ∧ ∀ p ∈ pixels, ¬ loopMax pixels < pNorm p) ∧
      (loopMax pixels = 0 ∨ ∃ p ∈ pixels, loopMax pixels = pNorm p) :=
  @foldl_first (fun a b => b < a) _ (fun _ _ => lt_asymm)
    (fun _ _ _ h h' => not_lt.mpr ((not_lt.mp h).trans (not_lt.mp h'))) pixels 0 _ rfl

/-- The smallest and the largest value of a block are those of its weights. -/
structure Extremes (pixels : List ℚ) (lo hi : ℚ) : Prop where
  min_le : ∀ p ∈ pixels, minVal pixels ≤ pNorm p
  le_max : ∀ p ∈ pixels, pNorm p ≤ loopMax pixels
  le_min : pNorm lo ≤ minVal pixels
  max_le : loopMax pixels ≤ pNorm hi
  nonneg : 0 ≤ minVal pixels
  le_one : loopMax pixels ≤ 1
  min_le_max : minVal pixels ≤ loopMax pixels

theorem pNorm_mono {p q : ℚ} (h : p ≤ q) : pNorm p ≤ pNorm q := by
  rw [pNorm, pNorm]
  linarith

theorem extremes {pixels : List ℚ} (hpixels : InRange pixels) (hne : pixels ≠ []) {lo hi : ℚ}
    (hbounds : ∀ p ∈ pixels, lo ≤ p ∧ p ≤ hi) : Extremes pixels lo hi := by
  obtain ⟨⟨hone, hmin⟩, hminMem⟩ := minVal_spec pixels
  obtain ⟨⟨hzero, hmax⟩, hmaxMem⟩ := loopMax_spec pixels
  obtain ⟨q, hq⟩ := List.exists_mem_of_ne_nil pixels hne
  obtain ⟨hqlo, hqhi⟩ := hbounds q hq
  obtain ⟨hqge, hqle⟩ := hpixels q hq
  have hqmin := not_lt.mp (hmin q hq)
  have hqmax := not_lt.mp (hmax q hq)
  refine ⟨fun p hp => not_lt.mp (hmin p hp), fun p hp => not_lt.mp (hmax p hp), ?_, ?_, ?_, ?_,
    hqmin.trans hqmax⟩
  · rcases hminMem with heq | ⟨p, hp, heq⟩
    · rw [heq]
      exact pNorm_le_one (hqlo.trans hqle)
    · rw [heq]
      exact pNorm_mono (hbounds p hp).1
  · rcases hmaxMem with heq | ⟨p, hp, heq⟩
    · rw [heq]
      exact pNorm_nonneg (hqge.trans hqhi)
    · rw [heq]
      exact pNorm_mono (hbounds p hp).2
  · rcases hminMem with heq | ⟨p, hp, heq⟩
    · rw [heq]
      exact zero_le_one
    · rw [heq]
      exact pNorm_nonneg (hpixels p hp).1
  · rcases hmaxMem with heq | ⟨p, hp, heq⟩
    · rw [heq]
      exact zero_le_one
    · rw [heq]
      exact pNorm_le_one (hpixels p hp).2

/-- A value below 256 is cut by less than one. -/
theorem uint8_spec {x : ℚ} (h0 : 0 ≤ x) (h256 : x < 256) :
    (uint8 x : ℚ) ≤ x ∧ x < uint8 x + 1 := by
  have hlt : ⌊x⌋₊ < 256 := (Nat.floor_lt h0).mpr (by exact_mod_cast h256)
  rw [uint8, Nat.mod_eq_of_lt hlt]
  exact ⟨Nat.floor_le h0, Nat.lt_floor_add_one x⟩

/-- The width of a block is that of its weights, or the least one. -/
theorem maxVal_spec (pixels : List ℚ) :
    loopMax pixels ≤ maxVal pixels ∧ minVal pixels + 1 / 256 ≤ maxVal pixels ∧
      (maxVal pixels = loopMax pixels ∨ maxVal pixels = minVal pixels + 1 / 256) := by
  rw [maxVal]
  split
  · next h => exact ⟨by linarith, le_refl _, .inr rfl⟩
  · next h => exact ⟨le_refl _, by linarith, .inl rfl⟩

/-- The index of a weight stands for a value at most a seventh of the width below it. -/
theorem index_spec {pixels : List ℚ} {p : ℚ} (hmin : minVal pixels ≤ pNorm p)
    (hmax : pNorm p ≤ maxVal pixels) (hwidth : 0 < maxVal pixels - minVal pixels) :
    (index pixels p : ℚ) * (maxVal pixels - minVal pixels) ≤ 7 * (pNorm p - minVal pixels) ∧
      7 * (pNorm p - minVal pixels) ≤
        (index pixels p + 1) * (maxVal pixels - minVal pixels) := by
  have hrange : valRange pixels = maxVal pixels - minVal pixels := if_neg hwidth.ne'
  have hnonneg : 0 ≤ (pNorm p - minVal pixels) / (maxVal pixels - minVal pixels) :=
    div_nonneg (sub_nonneg.mpr hmin) hwidth.le
  have hle_one : (pNorm p - minVal pixels) / (maxVal pixels - minVal pixels) ≤ 1 :=
    (div_le_one hwidth).mpr (by linarith)
  obtain ⟨hfloor, hceil⟩ := @uint8_spec
    ((pNorm p - minVal pixels) / (maxVal pixels - minVal pixels) * 7) (by linarith) (by linarith)
  have hseven : uint8 ((pNorm p - minVal pixels) / (maxVal pixels - minVal pixels) * 7) ≤ 7 := by
    have h : (uint8 ((pNorm p - minVal pixels) / (maxVal pixels - minVal pixels) * 7) : ℚ) ≤ 7 := by
      linarith
    exact_mod_cast h
  have hindex : index pixels p =
      uint8 ((pNorm p - minVal pixels) / (maxVal pixels - minVal pixels) * 7) := by
    rw [index, hrange, min_eq_right hle_one, max_eq_right hnonneg, if_neg (not_lt.mpr hseven)]
  rw [hindex]
  rw [div_mul_eq_mul_div, mul_comm (pNorm p - minVal pixels)] at hfloor hceil ⊢
  exact ⟨(le_div_iff₀ hwidth).mp hfloor, ((div_lt_iff₀ hwidth).mp hceil).le⟩

/-- A weight whose index is kept comes back up to a seventh of the width of its block. -/
theorem dequant_index {pixels : List ℚ} (hpixels : InRange pixels) {lo hi p : ℚ}
    (hbounds : ∀ q ∈ pixels, lo ≤ q ∧ q ≤ hi) (hp : p ∈ pixels) :
    |dequant pixels (index pixels p) - p| ≤ (hi - lo) / 7 + 4 / 255 := by
  have hext := extremes hpixels (List.ne_nil_of_mem hp) hbounds
  obtain ⟨hloop, hleast, hcases⟩ := maxVal_spec pixels
  have hmin := hext.min_le p hp
  have hmax := (hext.le_max p hp).trans hloop
  have hmin0 := hext.nonneg
  have hmax1 := hext.le_one
  have hminmax := hext.min_le_max
  have htop : maxVal pixels ≤ 1 + 1 / 256 := by
    rcases hcases with h | h <;> linarith
  obtain ⟨hmlow, hmhigh⟩ := @uint8_spec (minVal pixels * 255) (by linarith) (by linarith)
  obtain ⟨htlow, hthigh⟩ := @uint8_spec (maxVal pixels * 255) (by linarith) (by linarith)
  obtain ⟨hilow, hihigh⟩ := index_spec hmin hmax (by linarith)
  have hi7 : (index pixels p : ℚ) ≤ 7 := by exact_mod_cast index_le pixels p
  have hi0 : (0 : ℚ) ≤ index pixels p := Nat.cast_nonneg _
  -- the end points are cut by `a` and `b`, and the index stands between them
  have hcut : 0 ≤ (minVal pixels * 255 - uint8 (minVal pixels * 255)) * (7 - index pixels p) +
      (maxVal pixels * 255 - uint8 (maxVal pixels * 255)) * index pixels p :=
    add_nonneg (mul_nonneg (by linarith) (by linarith)) (mul_nonneg (by linarith) hi0)
  have hcut7 : (minVal pixels * 255 - uint8 (minVal pixels * 255)) * (7 - index pixels p) +
      (maxVal pixels * 255 - uint8 (maxVal pixels * 255)) * index pixels p ≤ 7 := by
    have ha := mul_le_mul_of_nonneg_right
      (show minVal pixels * 255 - uint8 (minVal pixels * 255) ≤ 1 by linarith)
      (show 0 ≤ 7 - (index pixels p : ℚ) by linarith)
    have hb := mul_le_mul_of_nonneg_right
      (show maxVal pixels * 255 - uint8 (maxVal pixels * 255) ≤ 1 by linarith) hi0
    linarith
  have hdiff : p - dequant pixels (index pixels p) =
      2 / 7 * (7 * (pNorm p - minVal pixels) -
        index pixels p * (maxVal pixels - minVal pixels)) +
      2 / 1785 * ((minVal pixels * 255 - uint8 (minVal pixels * 255)) * (7 - index pixels p) +
        (maxVal pixels * 255 - uint8 (maxVal pixels * 255)) * index pixels p) := by
    rw [dequant, quantMin, quantMax, pNorm]
    ring
  have hwidth : 2 * (maxVal pixels - minVal pixels) / 7 ≤ (hi - lo) / 7 + 2 / 255 := by
    have hle_min := hext.le_min
    have hmax_le := hext.max_le
    rw [pNorm] at hle_min hmax_le
    rcases hcases with h | h <;> linarith
  rw [abs_sub_comm, hdiff, abs_of_nonneg (by linarith)]
  linarith

/-- Where zero is the smallest weight, weights near to it come back as the lower end point. -/
theorem dequant_lowest {pixels : List ℚ} (hpixels : ∀ p ∈ pixels, 0 ≤ p ∧ p ≤ 1)
    (hzero : 0 ∈ pixels) :
    dequant pixels 0 = -1 / 255 ∧
      ∀ p ∈ pixels, ∀ q ∈ pixels, 7 * p < q ∨ p = 0 → index pixels p = 0 := by
  have hrange : InRange pixels := fun p hp => ⟨by linarith [(hpixels p hp).1], (hpixels p hp).2⟩
  have hext := extremes hrange (List.ne_nil_of_mem hzero) hpixels
  have hmin : minVal pixels = 1 / 2 := by
    refine le_antisymm ((hext.min_le 0 hzero).trans ?_) (hext.le_min.trans' ?_)
    · norm_num [pNorm]
    · norm_num [pNorm]
  obtain ⟨hloop, hleast, -⟩ := maxVal_spec pixels
  refine ⟨?_, fun p hp q hq h => ?_⟩
  · have hquant : quantMin pixels = 127 := by
      have hfloor : ⌊(1 / 2 * 255 : ℚ)⌋₊ = 127 := by
        rw [Nat.floor_eq_iff (by norm_num)]
        norm_num
      rw [quantMin, hmin, uint8, hfloor]
    rw [dequant, hquant]
    norm_num
  · have hmax := hext.le_max q hq
    have hlt : 7 * (pNorm p - minVal pixels) < maxVal pixels - minVal pixels := by
      rw [pNorm] at hmax ⊢
      rcases h with h | rfl <;> linarith
    have hspec := index_spec (hext.min_le p hp) ((hext.le_max p hp).trans hloop) (by linarith)
    have hone : (index pixels p : ℚ) < 1 := by
      by_contra hge
      have hmul := mul_le_mul_of_nonneg_right (not_lt.mp hge)
        (show 0 ≤ maxVal pixels - minVal pixels by linarith)
      linarith [hspec.1]
    exact Nat.lt_one_iff.mp (by exact_mod_cast hone)

end Prismalama.Ml.WeightImage
