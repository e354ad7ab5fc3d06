import Prismalama.Ggml.Gguf

/-!
# Untrusted GGUF files (`fs/ggml/gguf.go`)

Decoding ends, reads each byte once, and its check of the tensors is right, for a file whose
lengths a slice can be made with, whose skipped strings end in the file, whose alignment is
not zero and whose tensors have sizes below 2^64 (`decode_total`). For other files it
panics, goes on reading behind the end of the file, or takes a tensor that is not in it.
-/

namespace Prismalama.Ggml

open Prismalama.Lib Prismalama.Lib.Reader

section

variable (maxAlloc : Nat)

/-- What the code relies on. -/
def Mark.Fine (b : List UInt8) : Mark → Prop
  | .string length => length < maxInt64 ∧ (length ≤ scratchLen ∨ length ≤ maxAlloc)
  | .stringV1 length => 0 < length ∧ length < maxInt64
  | .array width n kept => kept = true → Makes maxAlloc width n
  | .dims n => 8 * n ≤ maxAlloc
  | .alignment n => n ≠ 0
  | .skipped o pos => pos + 8 ≤ b.length ∧
      (o.uint ((b.drop pos).take 8) < maxInt64 →
        pos + 8 + o.uint ((b.drop pos).take 8) ≤ b.length)

instance (b : List UInt8) (f : Mark) : Decidable (f.Fine maxAlloc b) :=
  match f with
  | .string _ | .stringV1 _ => inferInstanceAs (Decidable (_ ∧ _))
  | .array width n _ => inferInstanceAs (Decidable (_ → Makes maxAlloc width n))
  | .dims n => inferInstanceAs (Decidable (8 * n ≤ maxAlloc))
  | .alignment n => inferInstanceAs (Decidable (n ≠ 0))
  | .skipped _ _ => inferInstanceAs (Decidable (_ ∧ (_ → _)))

/-- Where decoding starts. -/
def start : Cursor Mark := ⟨0, 0, 0, []⟩

/-- `Elements` and `Size`, of integers. -/
def Tensor.trueSize (t : Tensor) : Nat := t.shape.prod * typeSize t.kind / blockSize t.kind

/-- Decoding does not panic, drops no error, so that it reads at most once in vain, and
takes only tensors that are in the file. That no error is dropped is more than a bound on the
reads: it is what the bound comes from. -/
structure Total (maxArraySize : Int) (b : List UInt8) : Prop where
  noPanic : (Decode maxAlloc maxArraySize b start).1 ≠ .panic
  ignored : (Decode maxAlloc maxArraySize b start).2.ignored = 0
  reads : (Decode maxAlloc maxArraySize b start).2.reads ≤ b.length + 1
  inFile : ∀ g, (Decode maxAlloc maxArraySize b start).1 = .ok g → ∀ t ∈ g.header.tensors,
    g.header.tensorOffset + t.offset + t.trueSize ≤ b.length

/-- The numbers of the file are ones that the code can work with, as far as it gets. -/
structure Workable (maxArraySize : Int) (b : List UInt8) : Prop where
  marks : ∀ f ∈ (header maxAlloc maxArraySize b start).2.marks, f.Fine maxAlloc b
  exact : ∀ hd, (header maxAlloc maxArraySize b start).1 = .ok hd →
    (hd.check hd.tensors hd.offset).isSome = true → ∀ t ∈ hd.tensors,
      t.shape.prod * typeSize t.kind < wrap64 ∧ hd.tensorOffset + t.offset + t.trueSize < wrap64

end

variable {maxAlloc : Nat}

/-! ## The readers -/

theorem sound_readUint (d : Container) (width : Nat) : Sound (Mark.Fine maxAlloc) (d.readUint width) :=
  (sound_bytes _).bind fun _ => sound_pure _

theorem sound_readGGUF (d : Container) (k : Scalar) : Sound (Mark.Fine maxAlloc) (d.readGGUF k) :=
  (sound_readUint d _).bind fun _ => sound_pure _

theorem sound_readGGUFString (d : Container) :
    Sound (Mark.Fine maxAlloc) (d.readGGUFString maxAlloc) := by
  rw [Container.readGGUFString]
  split
  · exact (sound_readUint d _).bind fun _ => (sound_guard fun _ => Iff.rfl).bind fun _ =>
      (sound_bytes _).bind fun _ => sound_pure _
  · exact (sound_readUint d _).bind fun _ => (sound_guard fun _ => Iff.rfl).bind fun _ => sound_bytes _

theorem sound_discardGGUFString (d : Container) :
    Sound (Mark.Fine maxAlloc) d.discardGGUFString := by
  refine (sound_readUint d _).bind fun size => ?_
  show Sound _ (if size < maxInt64 then _ else _)
  split
  · exact (sound_bytes _).bind fun _ => sound_pure _
  · exact sound_pure _

/-- How a string is skipped. -/
theorem discard_cases (d : Container) (b : List UInt8) (c : Cursor Mark) :
    (d.discardGGUFString b c).2.marks = c.marks ∧
      ((Mark.Fine maxAlloc b (.skipped d.byteOrder c.pos) ∧ (d.discardGGUFString b c).1 = .ok ()) ∨
        (¬Mark.Fine maxAlloc b (.skipped d.byteOrder c.pos) ∧
          (d.discardGGUFString b c).1 = .error)) := by
  by_cases h8 : c.pos + 8 ≤ b.length
  · have hread : (d.readUint 8) b c = (.ok (d.byteOrder.uint ((b.drop c.pos).take 8)),
        { c with pos := c.pos + 8, reads := c.reads + 1 }) := by
      rw [Container.readUint, bind_of_ok (bytes_of_le (by decide) h8)]
      rfl
    rw [Container.discardGGUFString, bind_of_ok hread]
    generalize hsize : d.byteOrder.uint ((b.drop c.pos).take 8) = size
    have hfine : Mark.Fine maxAlloc b (.skipped d.byteOrder c.pos) ↔
        (size < maxInt64 → c.pos + 8 + size ≤ b.length) := by
      simp only [Mark.Fine, hsize]
      exact and_iff_right h8
    rw [hfine]
    by_cases hneg : size < maxInt64
    · simp only [if_pos hneg]
      by_cases hzero : size = 0
      · subst hzero
        exact ⟨rfl, .inl ⟨fun _ => h8, rfl⟩⟩
      · by_cases hend : c.pos + 8 + size ≤ b.length
        · rw [bind_of_ok (bytes_of_le (Nat.pos_of_ne_zero hzero) hend)]
          exact ⟨rfl, .inl ⟨fun _ => hend, rfl⟩⟩
        · rw [bind_eq, bytes_of_lt (Nat.pos_of_ne_zero hzero) (not_le.mp hend)]
          exact ⟨rfl, .inr ⟨fun h => hend (h hneg), rfl⟩⟩
    · simp only [if_neg hneg]
      exact ⟨rfl, .inl ⟨fun h => absurd h hneg, rfl⟩⟩
  · have hread : (d.readUint 8) b c =
        (.error, { c with pos := b.length, reads := c.reads + 1 }) := by
      rw [Container.readUint, bind_eq, bytes_of_lt (by decide) (not_le.mp h8)]
    rw [Container.discardGGUFString, bind_eq, hread]
    exact ⟨rfl, .inr ⟨fun h => h8 h.1, rfl⟩⟩

theorem sound_readGGUFArray (d : Container) :
    Sound (Mark.Fine maxAlloc) (d.readGGUFArray maxAlloc) := by
  refine (sound_readUint d _).bind fun t => (sound_readUint d _).bind fun n => ?_
  have hnew : ∀ width, Sound (Mark.Fine maxAlloc) (d.newArray maxAlloc width n) :=
    fun width => sound_guard fun _ => Iff.rfl
  show Sound _ (if t = ggufTypeString then _ else _)
  split
  · refine (hnew 16).bind fun _ => ?_
    rw [Container.readGGUFStringsData]
    split
    · exact ((sound_readGGUFString d).replicate n).bind fun _ => sound_pure _
    · refine Sound.bind (Sound.repeatFor ?_ n) fun _ => sound_pure _
      exact sound_attempt (sound_discardGGUFString d) (fun b c => (@discard_cases maxAlloc d b c).1)
        fun b c => (discard_cases d b c).2
  · split
    · rename_i k _
      refine (hnew k.width).bind fun _ => ?_
      rw [Container.readGGUFArrayData]
      split
      · exact ((sound_readGGUF d k).replicate n).bind fun _ => sound_pure _
      · exact (((sound_readGGUF d k).bind fun _ => sound_pure _).repeatFor n).bind fun _ =>
          sound_pure _
    · exact sound_error

theorem sound_readValue (d : Container) (t : Nat) :
    Sound (Mark.Fine maxAlloc) (d.readValue maxAlloc t) := by
  rw [Container.readValue]
  split
  · exact (sound_readGGUFString d).bind fun _ => sound_pure _
  · split
    · exact sound_readGGUFArray d
    · split
      · exact (sound_readGGUF d _).bind fun _ => sound_pure _
      · exact sound_error

theorem sound_readKV (d : Container) (kv : KV) :
    Sound (Mark.Fine maxAlloc) (d.readKV maxAlloc kv) :=
  (sound_readGGUFString d).bind fun _ => (sound_readUint d _).bind fun _ =>
    (sound_readValue d _).bind fun _ => sound_pure _

theorem sound_readTensor (d : Container) : Sound (Mark.Fine maxAlloc) (d.readTensor maxAlloc) :=
  (sound_readGGUFString d).bind fun _ => (sound_readUint d _).bind fun _ =>
    (sound_guard fun _ => Iff.rfl).bind fun _ => ((sound_readUint d _).replicate _).bind fun _ =>
      (sound_readUint d _).bind fun _ => (sound_readUint d _).bind fun _ => sound_pure _

theorem sound_decode (d : Container) (numTensor numKV : Nat) :
    Sound (Mark.Fine maxAlloc) (d.decode maxAlloc numTensor numKV) :=
  (Sound.iterate (sound_readKV d) _ _).bind fun _ => ((sound_readTensor d).replicate _).bind fun _ =>
    sound_tell.bind fun _ => (sound_guard fun _ => Iff.rfl).bind fun _ =>
      sound_size.bind fun _ => sound_pure _

theorem sound_header (maxArraySize : Int) :
    Sound (Mark.Fine maxAlloc) (header maxAlloc maxArraySize) := by
  refine (sound_bytes _).bind fun magic => ?_
  split
  · exact sound_error
  · exact (sound_bytes _).bind fun version => ((sound_bytes _).bind fun _ => sound_pure _).bind
      fun counts => sound_decode _ _ _

theorem returns_error {Q : List UInt8 → Header → Prop} : Returns (error : Decoder Header) Q :=
  fun _ _ _ _ h => nomatch h

theorem header_fileSize (maxArraySize : Int) :
    Returns (header maxAlloc maxArraySize) fun b hd => hd.fileSize = b.length := by
  refine Returns.bind fun magic => ?_
  split
  · exact returns_error
  · refine Returns.bind fun version => Returns.bind fun counts => Returns.bind fun kv =>
      Returns.bind fun tensors => Returns.bind fun offset => Returns.bind fun _ => ?_
    intro b c hd c' h
    obtain ⟨h, -⟩ := Prod.mk.inj h
    rw [← Result.ok.inj h]

/-! ## The tensors -/

theorem blockSize_range (kind : Nat) : 0 < blockSize kind ∧ blockSize kind ≤ 256 := by
  simp only [blockSize]
  split
  · decide
  split
  · decide
  split
  · decide
  split
  · decide
  · decide

/-- `Elements` is the product, modulo 2^64. -/
theorem elements_eq (t : Tensor) : t.elements = t.shape.prod % wrap64 := by
  have hfold : ∀ (l : List Nat) (count : Nat), count < wrap64 →
      l.foldl (fun count n => count * n % wrap64) count = count * l.prod % wrap64 := by
    intro l
    induction l with
    | nil =>
      intro count hlt
      rw [List.foldl_nil, List.prod_nil, Nat.mul_one, Nat.mod_eq_of_lt hlt]
    | cons n rest ih =>
      intro count _
      rw [List.foldl_cons, ih _ (Nat.mod_lt _ (by decide)), Nat.mod_mul_mod, List.prod_cons,
        Nat.mul_assoc]
  rw [Tensor.elements, hfold _ _ (by decide), Nat.one_mul]

/-- Where the product is below 2^64, `Size` is the size. -/
theorem size_eq {t : Tensor} (h : t.shape.prod * typeSize t.kind < wrap64) :
    t.size = t.trueSize := by
  rw [Tensor.size, Tensor.trueSize, elements_eq, Nat.mod_mul_mod, Nat.mod_eq_of_lt h]

theorem check_tensorEnd {hd : Header} {ts : List Tensor} {cur : Nat}
    (h : (hd.check ts cur).isSome = true) : ∀ t ∈ ts, hd.tensorEnd t ≤ hd.fileSize := by
  induction ts generalizing cur with
  | nil => exact nofun
  | cons t rest ih =>
    rw [Header.check] at h
    split at h
    · cases h
    · rename_i hle
      intro t' ht'
      rcases List.mem_cons.mp ht' with rfl | ht'
      · exact not_lt.mp hle
      · obtain ⟨end', hend⟩ := Option.isSome_iff_exists.mp h
        obtain ⟨cur₁, -, h₁⟩ := Option.bind_eq_some_iff.mp hend
        obtain ⟨cur₂, -, h₂⟩ := Option.bind_eq_some_iff.mp h₁
        exact ih (Option.isSome_iff_exists.mpr ⟨end', h₂⟩) t' ht'

/-- In a file of less than 2^56 bytes a tensor has a size below 2^64. -/
theorem prod_lt_of_trueSize {t : Tensor} {n : Nat} (hle : t.trueSize ≤ n) (hn : n < 2 ^ 56) :
    t.shape.prod * typeSize t.kind < wrap64 := by
  obtain ⟨hpos, hblock⟩ := blockSize_range t.kind
  have hlt := (Nat.div_lt_iff_lt_mul hpos).mp (hle.trans_lt hn)
  have hwrap : 2 ^ 56 * blockSize t.kind ≤ wrap64 := by
    have hw : wrap64 = 2 ^ 56 * 256 := by decide
    rw [hw]
    exact Nat.mul_le_mul_left _ hblock
  exact hlt.trans_le hwrap

/-! ## The result -/

/-- `Decode` behind its header. -/
theorem Decode_eq (maxAlloc : Nat) (maxArraySize : Int) (b : List UInt8) {res : Result Header}
    {c : Cursor Mark} (h : header maxAlloc maxArraySize b start = (res, c)) :
    (Decode maxAlloc maxArraySize b start).2 = c ∧
      ((Decode maxAlloc maxArraySize b start).1 = .panic ↔ res = .panic) ∧
      ∀ g, (Decode maxAlloc maxArraySize b start).1 = .ok g ↔
        res = .ok g.header ∧ g.header.check g.header.tensors g.header.offset = some g.length := by
  rw [Decode, bind_eq, h]
  cases res with
  | error => exact ⟨rfl, ⟨nofun, nofun⟩, fun g => ⟨nofun, fun hg => nomatch hg.1⟩⟩
  | panic => exact ⟨rfl, ⟨fun _ => rfl, fun _ => rfl⟩, fun g => ⟨nofun, fun hg => nomatch hg.1⟩⟩
  | ok hd =>
    simp only
    cases hcheck : hd.check hd.tensors hd.offset with
    | none =>
      refine ⟨rfl, ⟨nofun, nofun⟩, fun g => ⟨nofun, ?_⟩⟩
      rintro ⟨hg, hsome⟩
      obtain rfl := Result.ok.inj hg
      rw [hcheck] at hsome
      cases hsome
    | some length =>
      refine ⟨rfl, ⟨nofun, nofun⟩, fun g => ⟨fun hg => ?_, ?_⟩⟩
      · obtain rfl := Result.ok.inj hg
        exact ⟨rfl, hcheck⟩
      · rintro ⟨hg, hsome⟩
        obtain ⟨hd', length'⟩ := g
        obtain rfl := Result.ok.inj hg
        obtain rfl := Option.some.inj (hcheck.symm.trans hsome)
        rfl

/-- A file that decoding can work with, and only such a file, is decoded as it should be. -/
theorem decode_total (maxAlloc : Nat) (maxArraySize : Int) (b : List UInt8) :
    (Workable maxAlloc maxArraySize b → Total maxAlloc maxArraySize b) ∧
      (b.length < 2 ^ 56 → Total maxAlloc maxArraySize b → Workable maxAlloc maxArraySize b) := by
  have hafter := (@sound_header maxAlloc maxArraySize).good b start
    ⟨nofun, rfl, le_rfl, Nat.zero_le _⟩
  have hsize := @header_fileSize maxAlloc maxArraySize b start
  obtain ⟨res, c, hout⟩ : ∃ res c, header maxAlloc maxArraySize b start = (res, c) :=
    ⟨_, _, rfl⟩
  obtain ⟨hcursor, hpanic, hok⟩ := Decode_eq maxAlloc maxArraySize b hout
  have hfirst : (header maxAlloc maxArraySize b start).1 = res := congrArg Prod.fst hout
  have hmarks : (header maxAlloc maxArraySize b start).2.marks = c.marks :=
    congrArg (fun out => out.2.marks) hout
  rw [hout] at hafter
  constructor
  · intro hwork
    have hfine : ∀ f ∈ c.marks, f.Fine maxAlloc b := hmarks ▸ hwork.marks
    have hended : res ≠ .panic ∧ Ended (Mark.Fine maxAlloc) b c := by
      cases res with
      | ok hd =>
        rcases hafter with hgood | ⟨-, f, hf, hnot⟩
        · exact ⟨nofun, hgood.ended⟩
        · exact absurd (hfine f hf) hnot
      | error =>
        rcases hafter with hended | ⟨-, f, hf, hnot⟩
        · exact ⟨nofun, hended⟩
        · exact absurd (hfine f hf) hnot
      | panic =>
        obtain ⟨f, hf, hnot⟩ := hafter
        exact absurd (hfine f hf) hnot
    refine ⟨fun h => hended.1 (hpanic.mp h), ?_, ?_, ?_⟩
    · rw [hcursor]
      exact hended.2.ignored
    · rw [hcursor]
      exact hended.2.reads
    · intro g hg t ht
      obtain ⟨rfl, hcheck⟩ := (hok g).mp hg
      have hsome : (g.header.check g.header.tensors g.header.offset).isSome = true := by
        rw [hcheck]
        rfl
      obtain ⟨hprod, hsum⟩ := hwork.exact g.header hfirst hsome t ht
      have hle := check_tensorEnd hsome t ht
      rw [Header.tensorEnd, size_eq hprod, Nat.mod_eq_of_lt hsum, hsize _ _ hout] at hle
      exact hle
  · intro hlen htotal
    have hignored : c.ignored = 0 := by
      rw [← hcursor]
      exact htotal.ignored
    refine ⟨?_, ?_⟩
    · rw [hmarks]
      cases res with
      | ok hd =>
        rcases hafter with hgood | ⟨hpos, -⟩
        · exact hgood.fine
        · omega
      | error =>
        rcases hafter with hended | ⟨hpos, -⟩
        · exact hended.fine
        · omega
      | panic => exact absurd (hpanic.mpr rfl) htotal.noPanic
    · intro hd hhd hsome t ht
      obtain ⟨length, hcheck⟩ := Option.isSome_iff_exists.mp hsome
      have hle := htotal.inFile ⟨hd, length⟩ ((hok ⟨hd, length⟩).mpr ⟨hfirst ▸ hhd, hcheck⟩) t ht
      have hwrap : (2 : Nat) ^ 56 < wrap64 := by decide
      exact ⟨prod_lt_of_trueSize ((Nat.le_add_left _ _).trans hle) hlen,
        (hle.trans_lt hlen).trans hwrap⟩

/-- The start of a file, before its key-values. -/
def fileStart (version numTensor numKV : Nat) : List UInt8 :=
  littleEndian 4 magicLE ++ littleEndian 4 version ++
    littleEndian (if version = 1 then 4 else 8) numTensor ++
    littleEndian (if version = 1 then 4 else 8) numKV

/-- A number, an array that is kept, an array that is skipped, and an F32 tensor. -/
def workableFile : List UInt8 :=
  fileStart 3 1 3 ++
    sized (lit "n") ++ littleEndian 4 4 ++ littleEndian 4 7 ++
    sized (lit "kept") ++ littleEndian 4 9 ++ littleEndian 4 0 ++ littleEndian 8 2 ++ [1, 2] ++
    sized (lit "skipped") ++ littleEndian 4 9 ++ littleEndian 4 8 ++ littleEndian 8 3 ++
      sized (lit "a") ++ sized (lit "bc") ++ sized [] ++
    sized (lit "t") ++ littleEndian 4 1 ++ littleEndian 8 1 ++ littleEndian 4 0 ++ littleEndian 8 0 ++
    List.replicate 30 0 ++ [1, 2, 3, 4]

/-- Arrays of at most two values are kept. -/
theorem decode_total_workable : Total (2 ^ 48) 2 workableFile := by
  refine (decode_total (2 ^ 48) 2 workableFile).1 ⟨by decide +kernel, ?_⟩
  have hexact : ((header (2 ^ 48) 2 workableFile start).1.value.all fun hd =>
      hd.tensors.all fun t => decide (t.shape.prod * typeSize t.kind < wrap64 ∧
        hd.tensorOffset + t.offset + t.trueSize < wrap64)) = true := by
    decide +kernel
  intro hd hhd _ t ht
  rw [hhd] at hexact
  exact of_decide_eq_true (List.all_eq_true.mp hexact t ht)

/-- The alignment is zero. -/
def zeroAlignment : List UInt8 :=
  fileStart 3 0 1 ++ sized (lit "general.alignment") ++ littleEndian 4 4 ++ littleEndian 4 0

/-- An F32 tensor with 2^64 elements, at the end of the file. -/
def hugeTensor : List UInt8 :=
  fileStart 3 1 0 ++ sized (lit "t") ++ littleEndian 4 2 ++ littleEndian 8 (2 ^ 62) ++
    littleEndian 8 4 ++ littleEndian 4 0 ++ littleEndian 8 0 ++ List.replicate 31 0

theorem decode_not_total :
    -- an alignment of zero
    (Decode (2 ^ 48) (-1) zeroAlignment start).1.isPanic = true ∧
    -- an empty string of version 1
    (Decode (2 ^ 48) (-1) (fileStart 1 0 1 ++ littleEndian 8 0) start).1.isPanic = true ∧
    -- a negative length
    (Decode (2 ^ 48) (-1) (fileStart 3 0 1 ++ littleEndian 8 (2 ^ 63)) start).1.isPanic = true ∧
    -- a size that wraps
    ((Decode (2 ^ 48) (-1) hugeTensor start).1.value.any fun g => g.header.tensors.any fun t =>
      decide (hugeTensor.length < g.header.tensorOffset + t.offset + t.trueSize)) = true := by
  refine ⟨?_, ?_, ?_, ?_⟩
  · decide
  · decide
  · decide
  · decide +kernel

end Prismalama.Ggml
