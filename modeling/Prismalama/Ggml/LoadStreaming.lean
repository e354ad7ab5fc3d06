import Prismalama.Ggml.Load

/-!
# Streaming loads what loading does

Both functions read the same bytes for a tensor and write them to the same
targets, so they differ in the set of tensors only: `LoadStreaming` walks the
blocks below the block count.
-/

namespace Prismalama.Ggml

open Prismalama.Lib

/-! ## Formats -/

/-- Converting in chunks of whole blocks is converting. -/
structure Format.Lawful (fmt : Format) (block : Nat) : Prop where
  block_pos : 0 < block
  buffer_pos : 0 < fmt.buffer
  block_dvd : block ∣ fmt.buffer
  unit_pos : 0 < fmt.unit
  unit_dvd : fmt.unit ∣ fmt.buffer
  written_pos : 0 < fmt.written
  convert_append : ∀ x y, block ∣ x.length → fmt.convert (x ++ y) = fmt.convert x ++ fmt.convert y
  length_convert : ∀ m x, x.length = m * fmt.unit → (fmt.convert x).length = m * fmt.written

theorem rawFormat_lawful {buffer : Nat} (h : 0 < buffer) : (rawFormat buffer).Lawful 1 where
  block_pos := Nat.one_pos
  buffer_pos := h
  block_dvd := one_dvd _
  unit_pos := Nat.one_pos
  unit_dvd := one_dvd _
  written_pos := Nat.one_pos
  convert_append _ _ _ := rfl
  length_convert _ _ hx := hx

theorem mxfp4Block_length {bts : List UInt8} (h : bts.length = 17) :
    (mxfp4Block bts).length = 17 := by
  simp [mxfp4Block, h]

theorem mxfp4Blocks_append (m : Nat) {x : List UInt8} (hx : x.length = 17 * m) (n : Nat)
    (y : List UInt8) : mxfp4Blocks (m + n) (x ++ y) = mxfp4Blocks m x ++ mxfp4Blocks n y := by
  induction m generalizing x with
  | zero =>
    obtain rfl := List.length_eq_zero_iff.mp hx
    rw [Nat.zero_add]
    rfl
  | succ m ih =>
    have hle : 17 ≤ x.length := by omega
    have hdrop : (x.drop 17).length = 17 * m := by rw [List.length_drop]; omega
    rw [Nat.succ_add, mxfp4Blocks, mxfp4Blocks, List.take_append_of_le_length hle,
      List.drop_append_of_le_length hle, ih hdrop, List.append_assoc]

theorem mxfp4Blocks_length (m : Nat) {x : List UInt8} (hx : 17 * m ≤ x.length) :
    (mxfp4Blocks m x).length = x.length := by
  induction m generalizing x with
  | zero => rfl
  | succ m ih =>
    have hblock : (mxfp4Block (x.take 17)).length = 17 := by
      refine mxfp4Block_length ?_
      rw [List.length_take]
      omega
    rw [mxfp4Blocks, List.length_append, hblock, ih (by rw [List.length_drop]; omega),
      List.length_drop]
    omega

theorem mxfp4Format_lawful : mxfp4Format.Lawful 17 where
  block_pos := by decide
  buffer_pos := by decide
  block_dvd := ⟨8 * 1024, by decide⟩
  unit_pos := Nat.one_pos
  unit_dvd := one_dvd _
  written_pos := Nat.one_pos
  convert_append x y hx := by
    obtain ⟨m, hm⟩ := hx
    show mxfp4Blocks ((x ++ y).length / 17) (x ++ y) =
      mxfp4Blocks (x.length / 17) x ++ mxfp4Blocks (y.length / 17) y
    rw [List.length_append, hm, Nat.mul_add_div (by decide), Nat.mul_div_cancel_left m (by decide),
      mxfp4Blocks_append m hm]
  length_convert m x hx := by
    show (mxfp4Blocks (x.length / 17) x).length = m * 1
    rw [mxfp4Blocks_length _ (Nat.mul_div_le _ _)]
    exact hx

theorem bf16ToF32_append (m : Nat) {x : List UInt8} (hx : x.length = 2 * m) (n : Nat)
    (y : List UInt8) : bf16ToF32 (m + n) (x ++ y) = bf16ToF32 m x ++ bf16ToF32 n y := by
  induction m generalizing x with
  | zero =>
    obtain rfl := List.length_eq_zero_iff.mp hx
    rw [Nat.zero_add]
    simp [bf16ToF32]
  | succ m ih =>
    match x, hx with
    | lo :: hi :: x, hx =>
      have hx' : x.length = 2 * m := by
        simp only [List.length_cons] at hx
        omega
      rw [Nat.succ_add]
      simp only [List.cons_append, bf16ToF32, ih hx']

theorem bf16ToF32_length (m : Nat) {x : List UInt8} (hx : x.length = 2 * m) :
    (bf16ToF32 m x).length = 4 * m := by
  induction m generalizing x with
  | zero => simp [bf16ToF32]
  | succ m ih =>
    match x, hx with
    | lo :: hi :: x, hx =>
      have hx' : x.length = 2 * m := by
        simp only [List.length_cons] at hx
        omega
      simp only [bf16ToF32, List.length_cons, ih hx']
      omega

theorem bf16Format_lawful : bf16Format.Lawful 2 where
  block_pos := by decide
  buffer_pos := by decide
  block_dvd := ⟨64 * 1024, by decide⟩
  unit_pos := by decide
  unit_dvd := ⟨64 * 1024, by decide⟩
  written_pos := by decide
  convert_append x y hx := by
    obtain ⟨m, hm⟩ := hx
    show bf16ToF32 ((x ++ y).length / 2) (x ++ y) =
      bf16ToF32 (x.length / 2) x ++ bf16ToF32 (y.length / 2) y
    rw [List.length_append, hm, Nat.mul_add_div (by decide), Nat.mul_div_cancel_left m (by decide),
      bf16ToF32_append m hm]
  length_convert m x hx := by
    have hx' : x.length = 2 * m := hx.trans (Nat.mul_comm m 2)
    show (bf16ToF32 (x.length / 2) x).length = m * 4
    rw [hx', Nat.mul_div_cancel_left m (by decide), bf16ToF32_length m hx', Nat.mul_comm]

/-! ## Chunks -/

theorem Format.Lawful.convert_nil {fmt : Format} {block : Nat} (hfmt : fmt.Lawful block) :
    fmt.convert [] = [] := by
  have hlen := hfmt.length_convert 0 [] (Nat.zero_mul _).symm
  rw [Nat.zero_mul] at hlen
  exact List.length_eq_zero_iff.mp hlen

/-- Nothing is left to convert. -/
theorem Format.Lawful.getElem?_done {fmt : Format} {block : Nat} (hfmt : fmt.Lawful block)
    {total done : Nat} (h : total ≤ done) (src : List UInt8) (i : Nat) :
    (fmt.convert (src.take ((total - done) * fmt.unit)))[i]? = none := by
  rw [Nat.sub_eq_zero_of_le h, Nat.zero_mul, List.take_zero, hfmt.convert_nil]
  exact List.getElem?_nil

theorem exists_write_map {dests : List GoString} {offset : Nat} {bytes : List UInt8}
    {dest : GoString} {k : Nat} {b : UInt8} :
    (∃ w ∈ dests.map fun dest => (⟨dest, offset, bytes⟩ : TensorWrite), w.at? dest k = some b) ↔
      dest ∈ dests ∧ offset ≤ k ∧ bytes[k - offset]? = some b := by
  constructor
  · rintro ⟨w, hw, hat⟩
    obtain ⟨dest', hdest, rfl⟩ := List.mem_map.mp hw
    unfold Write.at? at hat
    split at hat
    · rename_i hcond
      obtain ⟨rfl, hle⟩ := hcond
      exact ⟨hdest, hle, hat⟩
    · cases hat
  · rintro ⟨hdest, hle, hat⟩
    exact ⟨_, List.mem_map_of_mem hdest, (if_pos ⟨rfl, hle⟩).trans hat⟩

/-- The bytes of one chunk before those of the rest. -/
theorem Format.Lawful.convert_chunk {fmt : Format} {block : Nat} (hfmt : fmt.Lawful block)
    {left m : Nat} {src : List UInt8} (hm : m * fmt.unit = min fmt.buffer (left * fmt.unit))
    (hlen : m * fmt.unit ≤ src.length) :
    fmt.convert (src.take (left * fmt.unit)) =
      fmt.convert (src.take (m * fmt.unit)) ++
        fmt.convert ((src.drop (m * fmt.unit)).take ((left - m) * fmt.unit)) := by
  have hle : m ≤ left := by
    refine Nat.le_of_mul_le_mul_right ?_ hfmt.unit_pos
    rw [hm]
    exact Nat.min_le_right _ _
  have hsum : left * fmt.unit = m * fmt.unit + (left - m) * fmt.unit := by
    rw [← Nat.add_mul, Nat.add_sub_cancel' hle]
  rw [hsum, List.take_add]
  by_cases hbuf : fmt.buffer ≤ left * fmt.unit
  · refine hfmt.convert_append _ _ ?_
    rw [List.length_take, Nat.min_eq_left hlen, hm, Nat.min_eq_left hbuf]
    exact hfmt.block_dvd
  · -- the last chunk
    rw [Nat.min_eq_right (by omega)] at hm
    have hzero : (left - m) * fmt.unit = 0 := by
      rw [Nat.sub_mul, hm, Nat.sub_self]
    rw [hzero, List.take_zero, List.append_nil, hfmt.convert_nil, List.append_nil]

/-- The loop writes the converted bytes, whatever the size of the buffer. -/
theorem readLoop_spec {fmt : Format} {block : Nat} (hfmt : fmt.Lawful block)
    {dests : List GoString} {total fuel done : Nat} {src : List UInt8} {ws : List TensorWrite}
    (h : readLoop fmt dests total fuel done src = some ws) (dest : GoString) (k : Nat) (b : UInt8) :
    (∃ w ∈ ws, w.at? dest k = some b) ↔
      dest ∈ dests ∧ done * fmt.written ≤ k ∧
        (fmt.convert (src.take ((total - done) * fmt.unit)))[k - done * fmt.written]? = some b := by
  induction fuel generalizing done src ws with
  | zero =>
    unfold readLoop at h
    split at h
    · cases h
    · rename_i hle
      cases h
      rw [hfmt.getElem?_done (not_lt.mp hle)]
      simp
  | succ fuel ih =>
    unfold readLoop at h
    split at h
    · rename_i hlt
      simp only at h
      split at h
      · cases h
      · rename_i hlen
        obtain ⟨ws', hws', rfl⟩ := Option.map_eq_some_iff.mp h
        have hdvd : fmt.unit ∣ min fmt.buffer ((total - done) * fmt.unit) := by
          rcases min_choice fmt.buffer ((total - done) * fmt.unit) with heq | heq
          · exact heq.symm ▸ hfmt.unit_dvd
          · exact heq.symm ▸ Nat.dvd_mul_left _ _
        obtain ⟨m, hm⟩ := hdvd
        rw [Nat.mul_comm fmt.unit m] at hm
        rw [hm, not_lt] at hlen
        rw [hm, Nat.mul_div_cancel m hfmt.unit_pos] at hws'
        have hfirst := hfmt.length_convert m (src.take (m * fmt.unit)) (by
          rw [List.length_take, Nat.min_eq_left hlen])
        have hleft : total - (done + m) = total - done - m := Nat.sub_add_eq _ _ _
        have hrest := ih hws'
        rw [hleft] at hrest
        rw [hfmt.convert_chunk hm.symm hlen, List.getElem?_append, hfirst, hm]
        simp only [List.mem_append, or_and_right, exists_or, hrest, exists_write_map]
        rw [← and_or_left]
        refine and_congr_right fun _ => ?_
        rw [Nat.add_mul]
        by_cases hin : k - done * fmt.written < m * fmt.written
        · rw [if_pos hin]
          refine or_iff_left fun hright => ?_
          omega
        · rw [if_neg hin, ← Nat.sub_sub]
          constructor
          · rintro (⟨hle, hat⟩ | ⟨hle, hat⟩)
            · have hlt := (List.getElem?_eq_some_iff.mp hat).1
              rw [hfirst] at hlt
              exact absurd hlt hin
            · exact ⟨by omega, hat⟩
          · rintro ⟨hle, hat⟩
            exact .inr ⟨by omega, hat⟩
    · rename_i hle
      cases h
      rw [hfmt.getElem?_done (not_lt.mp hle)]
      simp

/-- The loop ends without an error only if there were enough bytes. -/
theorem readLoop_length {fmt : Format} {dests : List GoString} {total fuel done : Nat}
    {src : List UInt8} {ws : List TensorWrite}
    (h : readLoop fmt dests total fuel done src = some ws) :
    (total - done) * fmt.unit ≤ src.length := by
  induction fuel generalizing done src ws with
  | zero =>
    unfold readLoop at h
    split at h
    · cases h
    · rename_i hle
      rw [Nat.sub_eq_zero_of_le (not_lt.mp hle), Nat.zero_mul]
      exact Nat.zero_le _
  | succ fuel ih =>
    unfold readLoop at h
    split at h
    · simp only at h
      split at h
      · cases h
      · rename_i hlen
        obtain ⟨ws', hws', -⟩ := Option.map_eq_some_iff.mp h
        have hrest := ih hws'
        have hdiv := Nat.div_mul_le_self (min fmt.buffer ((total - done) * fmt.unit)) fmt.unit
        rw [List.length_drop, Nat.sub_add_eq, Nat.sub_mul (total - done)] at hrest
        omega
    · rename_i hle
      rw [Nat.sub_eq_zero_of_le (not_lt.mp hle), Nat.zero_mul]
      exact Nat.zero_le _

/-! ## One tensor -/

theorem loadFormat_lawful {rawBuffer : Nat} (h : 0 < rawBuffer) (t : Tensor) (type : Nat) :
    ∃ block, (loadFormat rawBuffer t type).2.Lawful block := by
  unfold loadFormat
  split
  · exact ⟨17, mxfp4Format_lawful⟩
  · split
    · exact ⟨2, bf16Format_lawful⟩
    · exact ⟨1, rawFormat_lawful h⟩

namespace Backend

variable {b : Backend} {file : List UInt8}

/-- The bytes of a tensor in the format of a backend's type. -/
def converted (b : Backend) (file : List UInt8) (t : Tensor) (type : Nat) : List UInt8 :=
  if t.kind = 4 ∧ type = 39 then mxfp4Format.convert ((b.source file t).take t.size)
  else if (lit "_exps.bias").isSuffixOf t.name = true ∧ t.kind = 30 ∧ type = 0 then
    bf16Format.convert ((b.source file t).take (t.elements * 2))
  else (b.source file t).take t.size

theorem converted_eq (rawBuffer : Nat) (t : Tensor) (type : Nat) :
    b.converted file t type = (loadFormat rawBuffer t type).2.convert
      ((b.source file t).take
        ((loadFormat rawBuffer t type).1 * (loadFormat rawBuffer t type).2.unit)) := by
  unfold converted loadFormat
  split
  · show _ = mxfp4Format.convert ((b.source file t).take (t.size * 1))
    rw [Nat.mul_one]
  · split
    · rfl
    · show _ = (b.source file t).take (t.size * 1)
      rw [Nat.mul_one]

/-- The targets of a tensor. -/
def mapping (b : Backend) (t : Tensor) : List GoString :=
  (b.tensorLoadTargets.lookup t.name).getD []

/-- The bytes of a tensor in the format of its first target. -/
def content (b : Backend) (file : List UInt8) (t : Tensor) : List UInt8 :=
  b.converted file t ((b.tensors.lookup (targetName t.name ((b.mapping t).headD []))).getD 0)

/-- The tensor puts the byte there. -/
def Puts (b : Backend) (file : List UInt8) (t : Tensor) (dest : GoString) (k : Nat)
    (byte : UInt8) : Prop :=
  dest ∈ (b.mapping t).map (targetName t.name) ∧ (b.content file t)[k]? = some byte

theorem targetsOf_names {t : Tensor} {targets : List GoString} {tts : List (GoString × Nat)}
    (h : b.targetsOf t targets = some tts) :
    tts.map (·.1) = targets.map (targetName t.name) ∧
      ∀ tt ∈ tts, b.tensors.lookup tt.1 = some tt.2 := by
  induction targets generalizing tts with
  | nil =>
    cases h
    simp
  | cons target targets ih =>
    unfold targetsOf at h
    rw [List.mapM_cons] at h
    obtain ⟨tt, htt, h⟩ := Option.bind_eq_some_iff.mp h
    obtain ⟨tts', htts', h⟩ := Option.bind_eq_some_iff.mp h
    cases h
    obtain ⟨type, htype, rfl⟩ := Option.map_eq_some_iff.mp htt
    obtain ⟨hnames, htypes⟩ := ih htts'
    refine ⟨by rw [List.map_cons, List.map_cons, hnames], fun tt' hmem => ?_⟩
    rcases List.mem_cons.mp hmem with rfl | hmem
    · exact htype
    · exact htypes tt' hmem

theorem content_of_targets (rawBuffer : Nat) {t : Tensor} {tt : GoString × Nat}
    {tts : List (GoString × Nat)} (htts : b.targetsOf t (b.mapping t) = some (tt :: tts)) :
    b.content file t = (loadFormat rawBuffer t tt.2).2.convert
      ((b.source file t).take
        ((loadFormat rawBuffer t tt.2).1 * (loadFormat rawBuffer t tt.2).2.unit)) := by
  obtain ⟨hnames, htypes⟩ := targetsOf_names htts
  have hhead : targetName t.name ((b.mapping t).headD []) = tt.1 := by
    cases hm : b.mapping t with
    | nil =>
      rw [hm] at hnames
      cases hnames
    | cons target targets =>
      rw [hm] at hnames
      exact (List.cons.inj hnames).1.symm
  rw [content, hhead, htypes tt List.mem_cons_self]
  exact converted_eq rawBuffer t tt.2

theorem loadTensor_spec {rawBuffer : Nat} (hraw : 0 < rawBuffer) {t : Tensor}
    {tts : List (GoString × Nat)} {ws : List TensorWrite}
    (htts : b.targetsOf t (b.mapping t) = some tts)
    (h : b.loadTensor file rawBuffer t tts = some ws) (dest : GoString) (k : Nat) (byte : UInt8) :
    (∃ w ∈ ws, w.at? dest k = some byte) ↔ b.Puts file t dest k byte := by
  cases tts with
  | nil => cases h
  | cons tt tts =>
    obtain ⟨block, hfmt⟩ := loadFormat_lawful hraw t tt.2
    rw [readLoop_spec hfmt h, Nat.zero_mul, Nat.sub_zero, Nat.sub_zero, Puts,
      content_of_targets rawBuffer htts, ← (targetsOf_names htts).1]
    simp

/-- A tensor with bytes puts some. -/
theorem content_ne_nil {rawBuffer : Nat} (hraw : 0 < rawBuffer) {t : Tensor}
    {tts : List (GoString × Nat)} {ws : List TensorWrite}
    (htts : b.targetsOf t (b.mapping t) = some tts)
    (h : b.loadTensor file rawBuffer t tts = some ws) (hsize : t.size ≠ 0) :
    b.content file t ≠ [] := by
  cases tts with
  | nil => cases h
  | cons tt tts =>
    obtain ⟨block, hfmt⟩ := loadFormat_lawful hraw t tt.2
    have hlen := readLoop_length h
    rw [Nat.sub_zero] at hlen
    have htotal : (loadFormat rawBuffer t tt.2).1 ≠ 0 := by
      unfold loadFormat
      split
      · exact hsize
      · split
        · rename_i hbf16
          intro helements
          refine hsize ?_
          have hzero : t.elements = 0 := helements
          rw [Tensor.size, hzero, Nat.zero_mul, Nat.zero_mod, Nat.zero_div]
        · exact hsize
    have hconv := hfmt.length_convert (loadFormat rawBuffer t tt.2).1
      ((b.source file t).take
        ((loadFormat rawBuffer t tt.2).1 * (loadFormat rawBuffer t tt.2).2.unit))
      (by rw [List.length_take, Nat.min_eq_left hlen])
    rw [content_of_targets rawBuffer htts]
    intro hnil
    rw [hnil, List.length_nil] at hconv
    exact (Nat.mul_pos (Nat.pos_of_ne_zero htotal) hfmt.written_pos).ne hconv

theorem content_eq_nil {t : Tensor} (hsize : t.size = 0) : b.content file t = [] := by
  have hsource : b.source file t = [] := by
    unfold source section_
    rw [hsize]
    split
    · exact List.take_zero
    · rfl
  unfold content converted
  rw [hsource]
  simp only [List.take_nil, mxfp4Format_lawful.convert_nil, bf16Format_lawful.convert_nil, ite_self]

theorem loadGoroutine_spec {t : Tensor} {ws : List TensorWrite}
    (h : b.loadGoroutine file t = some ws) :
    b.mapping t ≠ [] ∧ (t.size ≠ 0 → b.content file t ≠ []) ∧
      ∀ dest k byte, (∃ w ∈ ws, w.at? dest k = some byte) ↔ b.Puts file t dest k byte := by
  unfold loadGoroutine at h
  split at h
  · cases h
  · rename_i hmapping
    obtain ⟨tts, htts, hws⟩ := Option.bind_eq_some_iff.mp h
    exact ⟨hmapping, content_ne_nil (by decide) htts hws, loadTensor_spec (by decide) htts hws⟩

theorem loadOneTensor_spec {t : Tensor} {ws : List TensorWrite} (hmapping : b.mapping t ≠ [])
    (h : b.loadOneTensor file t = some ws) (dest : GoString) (k : Nat) (byte : UInt8) :
    (∃ w ∈ ws, w.at? dest k = some byte) ↔ b.Puts file t dest k byte := by
  unfold loadOneTensor resolveTensorTargets at h
  split at h
  · rename_i hnil
    exact absurd hnil hmapping
  · obtain ⟨tts, htts, hws⟩ := Option.bind_eq_some_iff.mp h
    exact loadTensor_spec (by decide) htts hws dest k byte

/-! ## All tensors -/

theorem exists_mapM {α β : Type*} {f : α → Option β} {xs : List α} {ys : List β}
    (h : xs.mapM f = some ys) :
    (∀ x ∈ xs, ∃ y, f x = some y) ∧ ∀ y, y ∈ ys ↔ ∃ x ∈ xs, f x = some y := by
  induction xs generalizing ys with
  | nil =>
    cases h
    simp
  | cons x xs ih =>
    rw [List.mapM_cons] at h
    obtain ⟨y, hy, h⟩ := Option.bind_eq_some_iff.mp h
    obtain ⟨ys', hys', h⟩ := Option.bind_eq_some_iff.mp h
    cases h
    obtain ⟨hall, hmem⟩ := ih hys'
    refine ⟨fun x' hx' => ?_, fun y' => ?_⟩
    · rcases List.mem_cons.mp hx' with rfl | hx'
      · exact ⟨y, hy⟩
      · exact hall x' hx'
    · rw [List.mem_cons, hmem]
      simp only [List.mem_cons, exists_eq_or_imp, hy, Option.some.injEq]
      rw [@eq_comm _ y' y]

theorem exists_mapM_flatten {α β : Type*} {f : α → Option (List β)} {xs : List α} {ys : List β}
    (h : (xs.mapM f).map List.flatten = some ys) {P : β → Prop} :
    (∃ y ∈ ys, P y) ↔ ∃ x ∈ xs, ∃ zs, f x = some zs ∧ ∃ z ∈ zs, P z := by
  obtain ⟨zss, hzss, rfl⟩ := Option.map_eq_some_iff.mp h
  have hmem := (exists_mapM hzss).2
  constructor
  · rintro ⟨y, hy, hP⟩
    obtain ⟨zs, hzs, hyzs⟩ := List.mem_flatten.mp hy
    obtain ⟨x, hx, hfx⟩ := (hmem zs).mp hzs
    exact ⟨x, hx, zs, hfx, y, hyzs, hP⟩
  · rintro ⟨x, hx, zs, hfx, z, hz, hP⟩
    exact ⟨z, List.mem_flatten.mpr ⟨zs, (hmem zs).mpr ⟨x, hx, hfx⟩, hz⟩, hP⟩

/-- What the goroutines of `Load` put. -/
theorem load_spec {threads : List (List TensorWrite)} (h : b.load file = some threads) :
    (∀ t ∈ b.gguf.tensors, b.mapping t ≠ [] ∧ (t.size ≠ 0 → b.content file t ≠ []) ∧
      ∃ ws ∈ threads, ∀ dest k byte,
        (∃ w ∈ ws, w.at? dest k = some byte) ↔ b.Puts file t dest k byte) ∧
    ∀ dest k byte, (∃ ws ∈ threads, ∃ w ∈ ws, w.at? dest k = some byte) ↔
      ∃ t ∈ b.gguf.tensors, b.Puts file t dest k byte := by
  unfold load at h
  split at h
  · obtain ⟨hall, hmem⟩ := exists_mapM h
    refine ⟨fun t ht => ?_, fun dest k byte => ⟨?_, ?_⟩⟩
    · obtain ⟨ws, hws⟩ := hall t ht
      obtain ⟨hmapping, hcontent, hspec⟩ := loadGoroutine_spec hws
      exact ⟨hmapping, hcontent, ws, (hmem ws).mpr ⟨t, ht, hws⟩, hspec⟩
    · rintro ⟨ws, hws, hw⟩
      obtain ⟨t, ht, hgo⟩ := (hmem ws).mp hws
      exact ⟨t, ht, ((loadGoroutine_spec hgo).2.2 dest k byte).mp hw⟩
    · rintro ⟨t, ht, hputs⟩
      obtain ⟨ws, hws⟩ := hall t ht
      exact ⟨ws, (hmem ws).mpr ⟨t, ht, hws⟩, ((loadGoroutine_spec hws).2.2 dest k byte).mpr hputs⟩
  · cases h

/-- The block index is none, or that of a block of the model. -/
def InBlocks (isNumber : Char → Bool) (gguf : GGUF) (t : Tensor) : Prop :=
  -1 ≤ parseTensorBlockIndex isNumber t.name ∧
    parseTensorBlockIndex isNumber t.name < gguf.blockCount

/-- What `LoadStreaming` puts, for tensors with targets. -/
theorem loadStreaming_spec {isNumber : Char → Bool} {ws : List TensorWrite}
    (hmapping : ∀ t ∈ b.gguf.tensors, b.mapping t ≠ [])
    (h : b.loadStreaming file isNumber = some ws) (dest : GoString) (k : Nat) (byte : UInt8) :
    (∃ w ∈ ws, w.at? dest k = some byte) ↔
      ∃ t ∈ b.gguf.tensors, InBlocks isNumber b.gguf t ∧ b.Puts file t dest k byte := by
  unfold loadStreaming at h
  split at h
  · have hgroup : ∀ i ws', b.loadTensorGroup file (b.tensorsByLayer isNumber i) = some ws' →
        ((∃ w ∈ ws', w.at? dest k = some byte) ↔ ∃ t ∈ b.gguf.tensors,
          parseTensorBlockIndex isNumber t.name = i ∧ b.Puts file t dest k byte) := by
      intro i ws' hws'
      rw [exists_mapM_flatten hws']
      obtain ⟨wss, hwss, -⟩ := Option.map_eq_some_iff.mp hws'
      constructor
      · rintro ⟨t, ht, ws₁, hws₁, hw⟩
        obtain ⟨ht, hi⟩ := List.mem_filter.mp ht
        exact ⟨t, ht, of_decide_eq_true hi,
          (loadOneTensor_spec (hmapping t ht) hws₁ dest k byte).mp hw⟩
      · rintro ⟨t, ht, hi, hputs⟩
        have hmem : t ∈ b.tensorsByLayer isNumber i := List.mem_filter.mpr ⟨ht, decide_eq_true hi⟩
        obtain ⟨ws₁, hws₁⟩ := (exists_mapM hwss).1 t hmem
        exact ⟨t, hmem, ws₁, hws₁, (loadOneTensor_spec (hmapping t ht) hws₁ dest k byte).mpr hputs⟩
    rw [exists_mapM_flatten h]
    obtain ⟨groups, hgroups, -⟩ := Option.map_eq_some_iff.mp h
    constructor
    · rintro ⟨i, hi, ws', hws', hw⟩
      obtain ⟨t, ht, rfl, hputs⟩ := (hgroup i ws' hws').mp hw
      refine ⟨t, ht, ?_, hputs⟩
      rcases List.mem_cons.mp hi with hi | hi
      · unfold InBlocks
        omega
      · obtain ⟨n, hn, heq⟩ := List.mem_map.mp hi
        have hlt := List.mem_range.mp hn
        unfold InBlocks
        omega
    · rintro ⟨t, ht, hin, hputs⟩
      have hmem : parseTensorBlockIndex isNumber t.name ∈
          (-1 : Int) :: (List.range b.gguf.blockCount).map fun (i : Nat) => (i : Int) := by
        rw [List.mem_cons, List.mem_map]
        by_cases hneg : parseTensorBlockIndex isNumber t.name = -1
        · exact .inl hneg
        · refine .inr ⟨(parseTensorBlockIndex isNumber t.name).toNat, List.mem_range.mpr ?_, ?_⟩
          · have hlt := hin.2
            have hge := hin.1
            omega
          · have hge := hin.1
            omega
      obtain ⟨ws', hws'⟩ := (exists_mapM hgroups).1 _ hmem
      exact ⟨_, hmem, ws', hws', (hgroup _ ws' hws').mpr ⟨t, ht, rfl, hputs⟩⟩
  · cases h

/-- One goroutine of `Load` may be the last. -/
theorem exists_interleaving_last {threads : List (List TensorWrite)} {ws : List TensorWrite}
    (hws : ws ∈ threads) : ∃ before, Interleaving threads (before ++ ws) := by
  obtain ⟨j, hj⟩ := List.mem_iff_getElem?.mp hws
  let order := (List.range threads.length).erase j ++ [j]
  have hnodup : order.Nodup := by
    refine List.Nodup.append (List.nodup_range.erase j) (List.nodup_singleton j) ?_
    intro i hi hij
    rw [List.mem_singleton.mp hij] at hi
    exact (List.Nodup.not_mem_erase List.nodup_range) hi
  have hall : ∀ i t, threads[i]? = some t → t ≠ [] → i ∈ order := by
    intro i t hi _
    have hrange := List.mem_range.mpr (List.getElem?_eq_some_iff.mp hi).1
    by_cases hij : i = j
    · exact List.mem_append_right _ (List.mem_singleton.mpr hij)
    · exact List.mem_append_left _ ((List.mem_erase_of_ne hij).mpr hrange)
  have h := Interleaving.of_order hnodup hall
  rw [List.flatMap_append, List.flatMap_singleton, List.getD_eq_getElem?_getD, hj] at h
  exact ⟨_, h⟩

/-- Two tensors of one name do not have different bytes at a position. -/
def Agree (b : Backend) (file : List UInt8) (t t' : Tensor) : Prop :=
  ∀ (k : Nat) (byte byte' : UInt8), (b.content file t)[k]? = some byte →
    (b.content file t')[k]? = some byte' → byte = byte'

/-- When both functions succeed, what `Load` leaves in the tensors of the backend
is what `LoadStreaming` leaves there, in whatever order the goroutines of `Load`
write, exactly if the tensors with bytes have no block index outside the blocks of
the model, and those of one name have the same bytes. -/
theorem loadStreaming_loads_iff {isNumber : Char → Bool} {gguf : GGUF} {d : Devices}
    {allocMemory : Bool} {order : List BufferType} {threads : List (List TensorWrite)}
    {ws : List TensorWrite} (hnew : newBackend isNumber gguf d allocMemory order = some b)
    (hload : b.load file = some threads) (hstreaming : b.loadStreaming file isNumber = some ws) :
    (∀ ws', Interleaving threads ws' → memory ws' = memory ws) ↔
      (∀ t ∈ gguf.tensors, t.size ≠ 0 → InBlocks isNumber gguf t) ∧
        ∀ t ∈ gguf.tensors, ∀ t' ∈ gguf.tensors, t.name = t'.name → Agree b file t t' := by
  obtain ⟨rfl, htargets⟩ := newBackend_targets hnew
  obtain ⟨htensor, hputs⟩ := load_spec hload
  have hputs' := loadStreaming_spec (fun t ht => (htensor t ht).1) hstreaming
  -- tensors that put something at one position have one name
  have hname : ∀ t ∈ b.gguf.tensors, ∀ t' ∈ b.gguf.tensors, ∀ dest k byte byte',
      b.Puts file t dest k byte → b.Puts file t' dest k byte' → t.name = t'.name := by
    intro t ht t' ht' dest k byte byte' hp hp'
    obtain ⟨target, htarget, rfl⟩ := List.mem_map.mp hp.1
    obtain ⟨target', htarget', heq⟩ := List.mem_map.mp hp'.1
    exact IsTarget.name_eq ht ht' (htargets _ _ htarget) (htargets _ _ htarget') heq.symm
  have hdest : ∀ t ∈ b.gguf.tensors, ∃ dest, dest ∈ (b.mapping t).map (targetName t.name) :=
    fun t ht => List.exists_mem_of_ne_nil _ (by simpa using (htensor t ht).1)
  constructor
  · intro hsame
    refine ⟨fun t ht hsize => ?_, fun t ht t' ht' hnames k byte byte' hb hb' => ?_⟩
    · obtain ⟨dest, hd⟩ := hdest t ht
      obtain ⟨byte, hbyte⟩ := List.exists_mem_of_ne_nil _ ((htensor t ht).2.1 hsize)
      obtain ⟨k, hk⟩ := List.mem_iff_getElem?.mp hbyte
      obtain ⟨wst, hwst, hspec⟩ := (htensor t ht).2.2
      obtain ⟨before, hint⟩ := exists_interleaving_last hwst
      obtain ⟨w, hw, hat⟩ := (hspec dest k byte).mpr ⟨hd, hk⟩
      have hsome := memory_isSome (List.mem_append_right before hw) hat
      rw [hsame _ hint] at hsome
      obtain ⟨byte', hmem⟩ := Option.isSome_iff_exists.mp hsome
      obtain ⟨t', ht', hin, hp'⟩ := (hputs' dest k byte').mp (exists_of_memory hmem)
      have heq := hname t ht t' ht' dest k byte byte' ⟨hd, hk⟩ hp'
      unfold InBlocks at hin ⊢
      rwa [heq]
    · have hlast : ∀ t ∈ b.gguf.tensors, ∀ dest byte, b.Puts file t dest k byte →
          memory ws dest k = some byte := by
        intro t ht dest byte hp
        obtain ⟨wst, hwst, hspec⟩ := (htensor t ht).2.2
        obtain ⟨before, hint⟩ := exists_interleaving_last hwst
        rw [← hsame _ hint]
        refine memory_append_of_some (memory_eq_some ((hspec dest k byte).mpr hp) ?_)
        intro w hw byte₁ hat
        have hp₁ := (hspec dest k byte₁).mp ⟨w, hw, hat⟩
        exact Option.some.inj (hp₁.2.symm.trans hp.2)
      obtain ⟨dest, hd⟩ := hdest t ht
      have hmap : b.mapping t' = b.mapping t := by rw [mapping, mapping, hnames]
      have hd' : dest ∈ (b.mapping t').map (targetName t'.name) := by
        rw [hmap, ← hnames]
        exact hd
      have h₁ := hlast t ht dest byte ⟨hd, hb⟩
      have h₂ := hlast t' ht' dest byte' ⟨hd', hb'⟩
      exact Option.some.inj (h₁.symm.trans h₂)
  · rintro ⟨hin, hagree⟩ ws' hint
    have hiff : ∀ dest k byte, (∃ w ∈ ws', w.at? dest k = some byte) ↔
        ∃ w ∈ ws, w.at? dest k = some byte := by
      intro dest k byte
      rw [hputs', exists_congr fun w => and_congr_left fun _ => hint.mem_iff (a := w)]
      constructor
      · rintro ⟨w, ⟨wst, hwst, hw⟩, hat⟩
        obtain ⟨t, ht, hp⟩ := (hputs dest k byte).mp ⟨wst, hwst, w, hw, hat⟩
        refine ⟨t, ht, hin t ht fun hsize => ?_, hp⟩
        have hcontent := hp.2
        rw [content_eq_nil hsize] at hcontent
        cases hcontent
      · rintro ⟨t, ht, -, hp⟩
        obtain ⟨wst, hwst, w, hw, hat⟩ := (hputs dest k byte).mpr ⟨t, ht, hp⟩
        exact ⟨w, ⟨wst, hwst, hw⟩, hat⟩
    have huniq : ∀ dest k byte byte', (∃ w ∈ ws, w.at? dest k = some byte) →
        (∃ w ∈ ws, w.at? dest k = some byte') → byte' = byte := by
      intro dest k byte byte' h h'
      obtain ⟨t, ht, -, hp⟩ := (hputs' dest k byte).mp h
      obtain ⟨t', ht', -, hp'⟩ := (hputs' dest k byte').mp h'
      exact (hagree t ht t' ht' (hname t ht t' ht' dest k byte byte' hp hp') k byte byte' hp.2
        hp'.2).symm
    funext dest k
    cases hm : memory ws dest k with
    | some byte =>
      have hex := exists_of_memory hm
      exact memory_eq_some ((hiff dest k byte).mpr hex) fun w hw byte' hat =>
        huniq dest k byte byte' hex ((hiff dest k byte').mp ⟨w, hw, hat⟩)
    | none =>
      cases hm' : memory ws' dest k with
      | none => rfl
      | some byte =>
        obtain ⟨w, hw, hat⟩ := (hiff dest k byte).mp (exists_of_memory hm')
        have hsome := memory_isSome hw hat
        rw [hm] at hsome
        cases hsome

/-- Two blocks, and an embedding that is the output, too. -/
def twoBlocks : GGUF where
  tensors := [⟨lit "token_embd.weight", 0, 0, [1]⟩, ⟨lit "blk.0.attn_q.weight", 0, 4, [1]⟩,
    ⟨lit "blk.1.attn_q.weight", 0, 8, [1]⟩]
  tensorOffset := 0
  blockCount := 2

def cpuOnly : Devices := ⟨[0], [0], fun _ => [0], fun _ => [0], false⟩

def twelveBytes : List UInt8 := [1, 2, 3, 4, 5, 6, 7, 8, 9, 10, 11, 12]

theorem loadStreaming_loads_twoBlocks :
    ∃ b threads ws, newBackend Char.isDigit twoBlocks cpuOnly true [0] = some b ∧
      b.load twelveBytes = some threads ∧ b.loadStreaming twelveBytes Char.isDigit = some ws ∧
      ∀ ws', Interleaving threads ws' → memory ws' = memory ws := by
  have hrun : ((newBackend Char.isDigit twoBlocks cpuOnly true [0]).bind fun b =>
      (b.load twelveBytes).bind fun threads =>
        (b.loadStreaming twelveBytes Char.isDigit).map fun ws => (threads, ws)).isSome = true := by
    decide
  obtain ⟨run, hrun⟩ := Option.isSome_iff_exists.mp hrun
  obtain ⟨b, hb, hrun⟩ := Option.bind_eq_some_iff.mp hrun
  obtain ⟨threads, hthreads, hrun⟩ := Option.bind_eq_some_iff.mp hrun
  obtain ⟨ws, hws, -⟩ := Option.map_eq_some_iff.mp hrun
  have hin : ∀ t ∈ twoBlocks.tensors, -1 ≤ parseTensorBlockIndex Char.isDigit t.name ∧
      parseTensorBlockIndex Char.isDigit t.name < twoBlocks.blockCount := by
    decide
  have hnames : ∀ t ∈ twoBlocks.tensors, ∀ t' ∈ twoBlocks.tensors, t.name = t'.name → t = t' := by
    decide
  refine ⟨b, threads, ws, hb, hthreads, hws,
    (loadStreaming_loads_iff hb hthreads hws).mpr ⟨fun t ht _ => hin t ht, ?_⟩⟩
  intro t ht t' ht' hname k byte byte' hbyte hbyte'
  obtain rfl := hnames t ht t' ht' hname
  exact Option.some.inj (hbyte.symm.trans hbyte')

/-- One block of text and a second block of vision. -/
def visionBlock : GGUF where
  tensors := [⟨lit "blk.0.attn_q.weight", 0, 0, [1]⟩, ⟨lit "v.blk.1.attn_q.weight", 0, 4, [1]⟩]
  tensorOffset := 0
  blockCount := 1

/-- The second block of the vision part of a model with one block of text: `New`
accepts it and `Load` writes it, `LoadStreaming` does not. -/
theorem vision_block_unwritten :
    ∃ b threads ws,
      newBackend Char.isDigit visionBlock cpuOnly true [0] = some b ∧
      b.load [1, 2, 3, 4, 5, 6, 7, 8] = some threads ∧
      b.loadStreaming [1, 2, 3, 4, 5, 6, 7, 8] Char.isDigit = some ws ∧
      (∀ ws', Interleaving threads ws' → (memory ws' (lit "v.blk.1.attn_q.weight") 0).isSome = true) ∧
      memory ws (lit "v.blk.1.attn_q.weight") 0 = none := by
  let first : TensorWrite := ⟨lit "blk.0.attn_q.weight", 0, [1, 2, 3, 4]⟩
  let second : TensorWrite := ⟨lit "v.blk.1.attn_q.weight", 0, [5, 6, 7, 8]⟩
  have hrun : ((newBackend Char.isDigit visionBlock cpuOnly true [0]).bind fun b =>
      (b.load [1, 2, 3, 4, 5, 6, 7, 8]).bind fun threads =>
        (b.loadStreaming [1, 2, 3, 4, 5, 6, 7, 8] Char.isDigit).map fun ws => (threads, ws)) =
      some ([[first], [second]], [first]) := by
    decide
  obtain ⟨b, hb, hrun⟩ := Option.bind_eq_some_iff.mp hrun
  obtain ⟨threads, hthreads, hrun⟩ := Option.bind_eq_some_iff.mp hrun
  obtain ⟨ws, hws, hpair⟩ := Option.map_eq_some_iff.mp hrun
  obtain ⟨rfl, rfl⟩ := Prod.mk.inj hpair
  refine ⟨b, _, _, hb, hthreads, hws, fun ws' hint => ?_, by decide⟩
  have hmem : second ∈ ws' :=
    hint.mem_iff.mpr ⟨[second], List.mem_cons_of_mem _ List.mem_cons_self, List.mem_singleton_self _⟩
  have hat : second.at? (lit "v.blk.1.attn_q.weight") 0 = some 5 := by decide
  exact memory_isSome hmem hat

end Backend

end Prismalama.Ggml
