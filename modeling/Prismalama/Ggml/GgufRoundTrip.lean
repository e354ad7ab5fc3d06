import Prismalama.Ggml.WriteGguf
import Prismalama.Ggml.GgufTotal

/-!
# What is written is read back (`fs/ggml/gguf.go`)

`Decode` finds in a file what `WriteGGUF` was given, the bytes of each tensor at its place
(`write_decode`), unless a tensor without bytes is the last one: nothing is written behind
the padding before it, and the file ends too early.
-/

namespace Prismalama.Ggml

open Prismalama.Lib Prismalama.Lib.Reader

/-! ## What is expected -/

/-- What a value is read as. -/
def ConfigValue.value : ConfigValue → Value
  | .scalar k n => .scalar k n
  | .fileType n => .scalar .uint32 n
  | .string s => .string s
  | .slice k vs => .scalars k vs.length (some (vs.map Fin.val))
  | .array k a => .scalars k a.size (some ((a.values.getD []).map Fin.val))
  | .strings vs => .strings vs.length (some vs)
  | .stringArray a => .strings a.size (some (a.values.getD []))

/-- What the file has of it. -/
def ConfigValue.stored : ConfigValue → Value
  | .array k a => .scalars k (a.values.getD []).length (some ((a.values.getD []).map Fin.val))
  | .stringArray a => .strings (a.values.getD []).length (some (a.values.getD []))
  | v => v.value

/-- An array has its values. -/
def ConfigValue.Whole : ConfigValue → Prop
  | .array _ a => (a.values.getD []).length = a.size
  | .stringArray a => (a.values.getD []).length = a.size
  | _ => True

theorem ConfigValue.stored_eq_value (v : ConfigValue) : v.stored = v.value ↔ v.Whole := by
  cases v with
  | array k a => simp [ConfigValue.stored, ConfigValue.value, ConfigValue.Whole]
  | stringArray a => simp [ConfigValue.stored, ConfigValue.value, ConfigValue.Whole]
  | _ => exact iff_of_true rfl trivial

def architecture : GoString := lit "general.architecture"

def parameterCount : GoString := lit "general.parameter_count"

/-- The key as it is written. -/
def Config.key (kv : Config) (key : GoString) : GoString :=
  prefixed (kv.string (lit "general.architecture")) key

def Tensor.unplaced (t : Tensor) : Tensor := { t with offset := 0 }

/-- What the file that `out` has become is to be read as. -/
structure Same (kv : Config) (ts : List Source) (out : Output) (file : List UInt8) (g : Model) :
    Prop where
  values : ∀ key v, AList.lookup key kv = some v → kv.key key ≠ parameterCount →
    AList.lookup (kv.key key) g.header.kv = some v.value
  keys : ∀ k, (AList.lookup k g.header.kv).isSome = true →
    k = parameterCount ∨ ∃ key ∈ kv.keys, kv.key key = k
  parameters : AList.lookup parameterCount g.header.kv =
    some (.scalar .uint64 ((ts.map fun t => t.tensor.elements).sum % wrap64))
  tensors : g.header.tensors = out.tensors.map Source.tensor
  same : (g.header.tensors.map Tensor.unplaced).Perm (ts.map fun t => t.tensor.unplaced)
  aligned : ∀ t ∈ g.header.tensors, out.alignment ∣ g.header.tensorOffset + t.offset
  disjoint : g.header.tensors.Pairwise fun t t' => t.offset + t.size ≤ t'.offset
  bytes : ∀ t ∈ out.tensors,
    (file.drop (g.header.tensorOffset + t.tensor.offset)).take t.tensor.size = t.pieces.flatten

def RoundTrips (maxAlloc : Nat) (kv : Config) (ts : List Source) (out : Output)
    (file : List UInt8) : Prop :=
  ∃ g, (Decode maxAlloc (-1) file start).1 = .ok g ∧ Same kv ts out file g

/-- No two keys are written as one. -/
def Config.DistinctKeys (kv : Config) : Prop :=
  ∀ key ∈ kv.keys, ∀ key' ∈ kv.keys, kv.key key = kv.key key' → key = key'

section

variable (maxAlloc : Nat)

def ConfigValue.Held : ConfigValue → Prop
  | .scalar _ _ | .fileType _ => True
  | .string s => Makes maxAlloc 1 s.length
  | .slice k vs => Makes maxAlloc k.width vs.length
  | .array k a => Makes maxAlloc k.width (a.values.getD []).length
  | .strings vs => Makes maxAlloc 16 vs.length ∧ ∀ s ∈ vs, Makes maxAlloc 1 s.length
  | .stringArray a => Makes maxAlloc 16 (a.values.getD []).length ∧
      ∀ s ∈ a.values.getD [], Makes maxAlloc 1 s.length

/-- What is written has been allocated. -/
structure Held (kv : Config) (ts : List Source) : Prop where
  keys : ∀ key ∈ kv.keys, Makes maxAlloc 1 (kv.key key).length
  values : ∀ key v, AList.lookup key kv = some v → v.Held maxAlloc
  lengths : kv.keys.length < maxInt64 ∧ ts.length < maxInt64
  names : ∀ t ∈ ts, Makes maxAlloc 1 t.tensor.name.length
  shapes : ∀ t ∈ ts, Makes maxAlloc 8 t.tensor.shape.length

end

/-- The alignment that is found in a value. -/
def Value.alignment (v : Value) : Nat :=
  match v with
  | .scalar .uint32 n => n
  | _ => 32

/-- The alignment that is read is the one that was written with. -/
def AlignmentKept (kv : Config) : Prop :=
  ∀ key v, AList.lookup key kv = some v → kv.key key = lit "general.alignment" →
    v.stored.alignment = kv.uint (lit "general.alignment") 32

/-- The header, of a configuration's key-values. -/
def headerBytes (kv : Config) (ts : List Source) (kvs : List (List UInt8))
    (tensors : List Source) : List UInt8 :=
  lit "GGUF" ++ (littleEndian 4 3 ++ ((littleEndian 8 ts.length ++ littleEndian 8 kv.keys.length) ++
    (kvs.flatten ++ tensors.flatMap fun t => ggufWriteTensorInfo t.tensor)))

/-- How long it is, wherever the tensors are. -/
def headerLength (kv : Config) (ts : List Source) : Nat :=
  (headerBytes kv ts ((kv.write (kv.string (lit "general.architecture"))).getD [])
    (sortTensors ts)).length

/-- The size of the last tensor that has bytes; `n` where none has any. -/
def lastSize : Nat → List Source → Nat
  | n, [] => n
  | n, t :: ts => lastSize (if t.tensor.size = 0 then n else t.tensor.size) ts

/-- Arrays have their values and shapes have less than 2^32 dimensions. If the tensor that is
written last has no bytes, no padding is missing before it: the last one with bytes ends where it
is to start, or else the header does. -/
structure Kept (kv : Config) (ts : List Source) : Prop where
  whole : ∀ key v, AList.lookup key kv = some v → kv.key key ≠ parameterCount → v.Whole
  dims : ∀ t ∈ ts, t.tensor.shape.length < 256 ^ 4
  ends : ∀ t ∈ (sortTensors ts).getLast?, t.tensor.size = 0 →
    kv.uint (lit "general.alignment") 32 ∣ lastSize (headerLength kv ts) (sortTensors ts)

/-! ## Numbers, strings and arrays -/

theorem length_littleEndian (width n : Nat) : (littleEndian width n).length = width := by
  induction width generalizing n with
  | zero => rfl
  | succ width ih => rw [littleEndian, List.length_cons, ih]

theorem uint_littleEndian {width n : Nat} (h : n < 256 ^ width) :
    ByteOrder.littleEndian.uint (littleEndian width n) = n := by
  induction width generalizing n with
  | zero => exact (Nat.lt_one_iff.mp h).symm
  | succ width ih =>
    have hrest := @ih (n / 256) (by rw [pow_succ] at h; omega)
    rw [ByteOrder.uint] at hrest ⊢
    rw [littleEndian, List.foldr_cons, hrest]
    show n % 256 + 256 * (n / 256) = n
    omega

/-- The reader of a file that was written. -/
def written : Container := { byteOrder := .littleEndian, version := 3, maxArraySize := -1 }

variable {maxAlloc : Nat}

theorem reads_uint {width n : Nat} (h : n < 256 ^ width) :
    Reads (written.readUint width) n (littleEndian width n) := by
  have hbytes := @Reads.bytes Mark (littleEndian width n)
  rw [length_littleEndian] at hbytes
  have hpure := @Reads.pure Mark _ (ByteOrder.littleEndian.uint (littleEndian width n))
  rw [uint_littleEndian h] at hpure
  refine hbytes.map ?_
  show Reads (pure (ByteOrder.littleEndian.uint (littleEndian width n))) n []
  rw [uint_littleEndian h]
  exact hpure

theorem card_le (k : Scalar) : k.card ≤ 256 ^ k.width := by
  cases k <;> decide

theorem reads_scalar (k : Scalar) (n : Fin k.card) :
    Reads (written.readGGUF k) n.val (littleEndian k.width n) := by
  refine (reads_uint (n.isLt.trans_le (card_le k))).map ?_
  show Reads (pure (if k = .bool then min n.val 1 else n.val)) n.val []
  split
  · rename_i hk
    subst hk
    have hlt : n.val < 2 := n.isLt
    rw [min_eq_left (by omega)]
    exact .pure _
  · exact .pure _

theorem reads_string {s : GoString} (h : Makes maxAlloc 1 s.length) :
    Reads (written.readGGUFString maxAlloc) s (sized s) := by
  have hlt : s.length < 256 ^ 8 := h.1.trans (by decide)
  refine (reads_uint hlt).bind ?_
  refine (Reads.guard ⟨h.1, .inr ?_⟩).bind (Reads.bytes s)
  have hle := h.2
  rwa [Nat.one_mul] at hle

theorem written_keeps (n : Nat) : written.keeps n = true := rfl

theorem reads_scalars (k : Scalar) (vs : List (Fin k.card)) :
    Reads (written.readGGUFArrayData k vs.length) (.scalars k vs.length (some (vs.map Fin.val)))
      (vs.flatMap fun v => littleEndian k.width v.val) := by
  rw [Container.readGGUFArrayData, if_pos (written_keeps _)]
  have hall := @Reads.replicate Mark _ (written.readGGUF k)
    (littleEndian k.width) (vs.map Fin.val) (fun n hn => by
      obtain ⟨v, -, rfl⟩ := List.mem_map.mp hn
      exact reads_scalar k v)
  rw [List.length_map, List.flatMap_map] at hall
  exact hall.map (.pure (Value.scalars k vs.length (some (vs.map Fin.val))))

theorem reads_strings {vs : List GoString} (h : ∀ s ∈ vs, Makes maxAlloc 1 s.length) :
    Reads (written.readGGUFStringsData maxAlloc vs.length) (.strings vs.length (some vs))
      (vs.flatMap sized) := by
  rw [Container.readGGUFStringsData, if_pos (written_keeps _)]
  exact (Reads.replicate vs fun s hs => reads_string (h s hs)).map (.pure _)

theorem scalarOf_type (k : Scalar) : scalarOf k.type = some k := by
  cases k <;> rfl

theorem type_ne (k : Scalar) : k.type ≠ ggufTypeString ∧ k.type ≠ ggufTypeArray := by
  cases k <;> decide

theorem reads_array_scalars {k : Scalar} {vs : List (Fin k.card)}
    (h : Makes maxAlloc k.width vs.length) : Reads (written.readGGUFArray maxAlloc)
      (.scalars k vs.length (some (vs.map Fin.val)))
      (littleEndian 4 k.type ++ (littleEndian 8 vs.length ++
        vs.flatMap fun v => littleEndian k.width v.val)) := by
  have htype : k.type < 256 ^ 4 := by cases k <;> decide
  refine (reads_uint htype).bind ((reads_uint (h.1.trans (by decide))).bind ?_)
  rw [if_neg (type_ne k).1, scalarOf_type]
  exact (Reads.guard fun _ => h).bind (reads_scalars k vs)

theorem reads_array_strings {vs : List GoString} (h : Makes maxAlloc 16 vs.length)
    (hs : ∀ s ∈ vs, Makes maxAlloc 1 s.length) : Reads (written.readGGUFArray maxAlloc)
      (.strings vs.length (some vs))
      (littleEndian 4 ggufTypeString ++ (littleEndian 8 vs.length ++ vs.flatMap sized)) := by
  refine (reads_uint (by decide)).bind ((reads_uint (h.1.trans (by decide))).bind ?_)
  rw [if_pos rfl]
  exact (Reads.guard fun _ => h).bind (reads_strings hs)

/-! ## Key-values -/

theorem reads_value {v : ConfigValue} {bs : List UInt8} (hbs : v.write = some bs)
    (hheld : v.Held maxAlloc) : ∃ t rest, bs = littleEndian 4 t ++ rest ∧ t < 256 ^ 4 ∧
      Reads (written.readValue maxAlloc t) v.stored rest := by
  have hscalar : ∀ (k : Scalar) (n : Fin k.card),
      Reads (written.readValue maxAlloc k.type) (.scalar k n) (littleEndian k.width n) := by
    intro k n
    rw [Container.readValue, if_neg (type_ne k).1, if_neg (type_ne k).2, scalarOf_type]
    exact (reads_scalar k n).map (.pure _)
  have htype : ∀ k : Scalar, k.type < 256 ^ 4 := fun k => by cases k <;> decide
  have harray : ∀ {value w}, Reads (written.readGGUFArray maxAlloc) value w →
      Reads (written.readValue maxAlloc ggufTypeArray) value w := by
    intro value w h
    rw [Container.readValue, if_neg (by decide), if_pos rfl]
    exact h
  cases v with
  | scalar k n =>
    simp only [ConfigValue.write] at hbs
    split at hbs
    · obtain rfl := Option.some.inj hbs
      exact ⟨k.type, _, rfl, htype k, hscalar k n⟩
    · cases hbs
  | fileType n =>
    obtain rfl := Option.some.inj hbs
    exact ⟨Scalar.uint32.type, _, rfl, by decide, hscalar .uint32 n⟩
  | string s =>
    obtain rfl := Option.some.inj hbs
    refine ⟨ggufTypeString, _, rfl, by decide, ?_⟩
    rw [Container.readValue, if_pos rfl]
    exact (reads_string hheld).map (.pure _)
  | slice k vs =>
    simp only [ConfigValue.write] at hbs
    split at hbs
    · obtain rfl := Option.some.inj hbs
      refine ⟨ggufTypeArray, _, ?_, by decide, harray (reads_array_scalars hheld)⟩
      simp only [writeGGUFArray, arrayHead, List.append_assoc]
    · cases hbs
  | array k a =>
    simp only [ConfigValue.write] at hbs
    split at hbs
    · obtain rfl := Option.some.inj hbs
      refine ⟨ggufTypeArray, _, ?_, by decide, harray (reads_array_scalars hheld)⟩
      simp only [writeGGUFArray, arrayHead, List.append_assoc]
    · cases hbs
  | strings vs =>
    obtain rfl := Option.some.inj hbs
    refine ⟨ggufTypeArray, _, ?_, by decide, harray (reads_array_strings hheld.1 hheld.2)⟩
    simp only [writeGGUFStrings, arrayHead, List.append_assoc]
  | stringArray a =>
    obtain rfl := Option.some.inj hbs
    refine ⟨ggufTypeArray, _, ?_, by decide, harray (reads_array_strings hheld.1 hheld.2)⟩
    simp only [writeGGUFStrings, arrayHead, List.append_assoc]

theorem reads_kv {arch key : GoString} {v : ConfigValue} {bs : List UInt8}
    (hbs : ggufWriteKV arch key v = some bs) (hheld : v.Held maxAlloc)
    (hkey : Makes maxAlloc 1 (prefixed arch key).length) (kv : KV) :
    Reads (written.readKV maxAlloc kv) (AList.insert (prefixed arch key) v.stored kv) bs := by
  obtain ⟨w, hw, rfl⟩ := Option.map_eq_some_iff.mp hbs
  obtain ⟨t, rest, rfl, ht, hvalue⟩ := reads_value hw hheld
  exact (reads_string hkey).bind ((reads_uint ht).bind (hvalue.map (.pure _)))

theorem mapM_eq_some {α β : Type} {f : α → Option (List β)} {as : List α} {bss : List (List β)}
    (h : as.mapM f = some bss) :
    bss.flatten = (as.flatMap fun a => (f a).getD []) ∧ ∀ a ∈ as, (f a).isSome = true := by
  induction as generalizing bss with
  | nil =>
    obtain rfl := Option.some.inj h
    exact ⟨rfl, fun a ha => absurd ha List.not_mem_nil⟩
  | cons a as ih =>
    rw [List.mapM_cons] at h
    obtain ⟨bs, hbs, h⟩ := Option.bind_eq_some_iff.mp h
    obtain ⟨rest, hrest, h⟩ := Option.bind_eq_some_iff.mp h
    obtain rfl := Option.some.inj h
    obtain ⟨hflatten, hsome⟩ := ih hrest
    refine ⟨?_, fun a' ha' => ?_⟩
    · rw [List.flatten_cons, List.flatMap_cons, hbs, hflatten]
      rfl
    · rcases List.mem_cons.mp ha' with rfl | ha'
      · rw [hbs]
        rfl
      · exact hsome a' ha'

/-- The key-values that a file of `kv` has. -/
def Config.stored (kv : Config) : KV :=
  kv.sortedKeys.foldl (fun m key =>
    (AList.lookup key kv).elim m fun v => AList.insert (kv.key key) v.stored m) ∅

theorem mem_sortedKeys (kv : Config) (key : GoString) : key ∈ kv.sortedKeys ↔ key ∈ kv.keys :=
  List.mem_insertionSort _

theorem reads_kvs {kv : Config} {kvs : List (List UInt8)}
    (hkvs : kv.write (kv.string (lit "general.architecture")) = some kvs)
    (hkeys : ∀ key ∈ kv.keys, Makes maxAlloc 1 (kv.key key).length)
    (hvalues : ∀ key v, AList.lookup key kv = some v → v.Held maxAlloc) :
    Reads (iterate (written.readKV maxAlloc) kv.keys.length ∅) kv.stored kvs.flatten := by
  obtain ⟨hflatten, hsome⟩ := mapM_eq_some hkvs
  have hlen : kv.sortedKeys.length = kv.keys.length := List.length_insertionSort _ _
  rw [hflatten, ← hlen]
  refine Reads.iterate kv.sortedKeys (fun key hkey m => ?_) ∅
  obtain ⟨bs, hbs⟩ := Option.isSome_iff_exists.mp (hsome key hkey)
  obtain ⟨v, hv, hwrite⟩ := Option.bind_eq_some_iff.mp hbs
  rw [hbs, hv]
  exact reads_kv hwrite (hvalues key v hv) (hkeys key ((mem_sortedKeys kv key).mp hkey)) m

section

variable {kv : Config} {m : KV}

theorem lookup_stored_of_ne {keys : List GoString} {k : GoString}
    (h : ∀ key ∈ keys, kv.key key ≠ k) :
    AList.lookup k (keys.foldl (fun m key =>
      (AList.lookup key kv).elim m fun v => AList.insert (kv.key key) v.stored m) m) =
      AList.lookup k m := by
  induction keys generalizing m with
  | nil => rfl
  | cons key keys ih =>
    rw [List.foldl_cons, ih fun key' hkey' => h key' (List.mem_cons_of_mem _ hkey')]
    cases AList.lookup key kv with
    | none => rfl
    | some v => exact AList.lookup_insert_ne (h key List.mem_cons_self).symm

theorem lookup_stored (hdistinct : kv.DistinctKeys) {key : GoString} {v : ConfigValue}
    (hv : AList.lookup key kv = some v) :
    AList.lookup (kv.key key) kv.stored = some v.stored := by
  have hkey : key ∈ kv.sortedKeys :=
    (mem_sortedKeys kv key).mpr ((GoMap.mem_keys_iff kv key).mpr ⟨v, hv⟩)
  have hnodup : kv.sortedKeys.Nodup := (List.perm_insertionSort _ _).nodup_iff.mpr kv.nodupKeys
  obtain ⟨front, back, hsplit⟩ := List.append_of_mem hkey
  have hback : ∀ key' ∈ back, kv.key key' ≠ kv.key key := by
    intro key' hkey' heq
    have hmem : ∀ k ∈ kv.sortedKeys, k ∈ kv.keys := fun k => (mem_sortedKeys kv k).mp
    obtain rfl := hdistinct key' (hmem key' (by simp [hsplit, hkey'])) key (hmem key hkey) heq
    rw [hsplit] at hnodup
    exact (List.nodup_cons.mp (List.nodup_append.mp hnodup).2.1).1 hkey'
  rw [Config.stored, hsplit, List.foldl_append, List.foldl_cons, lookup_stored_of_ne hback, hv]
  exact AList.lookup_insert _

theorem lookup_stored_eq_none {k : GoString} (h : ∀ key ∈ kv.keys, kv.key key ≠ k) :
    AList.lookup k kv.stored = none := by
  rw [Config.stored, lookup_stored_of_ne fun key hkey => h key ((mem_sortedKeys kv key).mp hkey)]
  rfl

end

/-! ## Tensors -/

theorem reads_tensor {t : Source} (hname : Makes maxAlloc 1 t.tensor.name.length)
    (hshape : Makes maxAlloc 8 t.tensor.shape.length) (hdims : t.tensor.shape.length < 256 ^ 4)
    (hoffset : t.tensor.offset < 256 ^ 8) :
    Reads (written.readTensor maxAlloc) t.tensor (ggufWriteTensorInfo t.tensor) := by
  have hall := @Reads.replicate Mark _ (written.readUint 8) (littleEndian 8) t.tensor.shape
    fun n hn => reads_uint (t.shape_lt n hn)
  rw [ggufWriteTensorInfo]
  simp only [List.append_assoc]
  refine (reads_string hname).bind ((reads_uint hdims).bind ?_)
  exact (Reads.guard hshape.2).bind (hall.bind
    ((reads_uint t.kind_lt).bind ((reads_uint hoffset).map (.pure t.tensor))))

/-! ## Offsets -/

theorem wrap64_eq : wrap64 = 2 * maxInt64 := rfl

theorem lt_maxInt64 : 17179869184 < maxInt64 := by decide

section

variable {T a s z n : Nat}

theorem padding_lt (ha : 0 < a) : ggufPadding n a < a := Nat.mod_lt _ ha

theorem dvd_add_padding (ha : 0 < a) : a ∣ n + ggufPadding n a := by
  have hlt := Nat.mod_lt n ha
  refine Nat.dvd_of_mod_eq_zero ?_
  rw [ggufPadding, Nat.add_mod_mod, ← Nat.mod_add_mod, Nat.add_sub_cancel' hlt.le, Nat.mod_self]

theorem padding_of_dvd (h : a ∣ n) : ggufPadding n a = 0 := by
  rw [ggufPadding, Nat.mod_eq_zero_of_dvd h, Nat.sub_zero, Nat.mod_self]

theorem padding_add (h : a ∣ T) : ggufPadding (T + n) a = ggufPadding n a := by
  obtain ⟨k, rfl⟩ := h
  rw [ggufPadding, ggufPadding, Nat.mul_add_mod]

theorem padding64_natCast (ha : 0 < a) : (padding64 n a).toNat = ggufPadding n a := by
  have hlt := Nat.mod_lt n ha
  rw [padding64, ← Int.ofNat_tmod, ← Int.ofNat_sub hlt.le, ← Int.ofNat_tmod, Int.toNat_natCast,
    ggufPadding]

theorem nextOffset_eq (ha : 0 < a) (ha' : a < 4294967296) (h : s + z < maxInt64) :
    nextOffset a s z = s + z + ggufPadding (s + z) a := by
  have hpad := @padding_lt a (s + z) ha
  have hmax := wrap64_eq
  have hroom := lt_maxInt64
  simp only [nextOffset]
  rw [Nat.mod_eq_of_lt (show s + z < wrap64 by omega), int64, if_pos h, padding64_natCast ha,
    Nat.mod_eq_of_lt (by omega)]

/-- The same from 2^63 on, where the offset is negative as an `int64`. -/
theorem nextOffset_of_ge (ha : 0 < a) (ha' : a < 4294967296) (h : maxInt64 ≤ s)
    (h' : s < maxInt64 + 8589934592) : nextOffset a s 0 = s + (wrap64 - s) % a := by
  have hlt : s < wrap64 := h'.trans (by decide)
  have hlt' : s + (wrap64 - s) % a < wrap64 :=
    (add_lt_add h' ((Nat.mod_lt _ ha).trans ha')).trans (by decide)
  have hneg : (s : Int) - wrap64 = -((wrap64 - s : Nat) : Int) := by omega
  have htmod : padding64 (int64 s) a = ((wrap64 - s) % a : Nat) := by
    rw [int64, if_neg (not_lt.mpr h), hneg, padding64, Int.neg_tmod, ← Int.ofNat_tmod,
      sub_neg_eq_add, ← Int.natCast_add, ← Int.ofNat_tmod, Nat.add_mod_left, Nat.mod_mod]
  simp only [nextOffset, Nat.add_zero, Nat.mod_eq_of_lt hlt, htmod, Int.toNat_natCast,
    Nat.mod_eq_of_lt hlt']

/-- The offset `s` is a place in a file; or it is behind all places, and stays there. -/
def InRange (T a s : Nat) : Prop :=
  (T + s < maxInt64 ∧ a ∣ s) ∨
    (maxInt64 ≤ T + s ∧ T + s < maxInt64 + 8589934592 ∧
      (nextOffset a s 0 = s ∨ (maxInt64 ≤ s ∧ T + s < maxInt64 + 4294967296)))

theorem InRange.next (h : InRange T a s) (ha : 0 < a) (ha' : a < 4294967296)
    (hz : z ≠ 0 → T + s + z < maxInt64) :
    InRange T a (nextOffset a s z) ∧ s + z ≤ nextOffset a s z := by
  rcases h with ⟨hlt, hdvd⟩ | ⟨hge, hlt, hnext⟩
  · have hplace : T + s + z < maxInt64 := by
      by_cases hzero : z = 0
      · rw [hzero, Nat.add_zero]
        exact hlt
      · exact hz hzero
    have hpad := @padding_lt a (s + z) ha
    have heq := nextOffset_eq ha ha' (lt_of_le_of_lt (by omega) hplace : s + z < maxInt64)
    have hdvd' : a ∣ nextOffset a s z := heq ▸ dvd_add_padding ha
    refine ⟨?_, heq ▸ Nat.le_add_right _ _⟩
    by_cases hin : T + nextOffset a s z < maxInt64
    · exact .inl ⟨hin, hdvd'⟩
    · refine .inr ⟨not_lt.mp hin, by omega, ?_⟩
      by_cases hsmall : nextOffset a s z < maxInt64
      · refine .inl ?_
        rw [nextOffset_eq ha ha' (by rwa [Nat.add_zero]), Nat.add_zero, padding_of_dvd hdvd',
          Nat.add_zero]
      · exact .inr ⟨not_lt.mp hsmall, by omega⟩
  · have hzero : z = 0 := by
      by_contra hne
      have := hz hne
      omega
    subst hzero
    rw [Nat.add_zero]
    rcases hnext with hfix | ⟨hs, hbound⟩
    · rw [hfix]
      exact ⟨.inr ⟨hge, hlt, .inl hfix⟩, le_rfl⟩
    · have hpad := Nat.mod_lt (wrap64 - s) ha
      have heq := nextOffset_of_ge ha ha' hs (by omega)
      rw [heq]
      refine ⟨.inr ⟨by omega, by omega, .inl ?_⟩, Nat.le_add_right _ _⟩
      rw [nextOffset_of_ge ha ha' (by omega) (by omega)]
      have hdvd : a ∣ wrap64 - (s + (wrap64 - s) % a) := by
        rw [← Nat.sub_sub]
        exact Nat.dvd_sub_mod _
      rw [Nat.mod_eq_zero_of_dvd hdvd, Nat.add_zero]

/-- Where the tensors are, from the offset `s` on. -/
structure Laid (T a s : Nat) (ts : List Source) : Prop where
  from_le : ∀ t ∈ ts, s ≤ t.tensor.offset
  lt : ∀ t ∈ ts, T + t.tensor.offset < maxInt64 + 8589934592
  end_lt : ∀ t ∈ ts, t.tensor.size ≠ 0 → T + t.tensor.offset + t.tensor.size < maxInt64
  dvd : ∀ t ∈ ts, T + t.tensor.offset < maxInt64 → a ∣ t.tensor.offset
  disjoint : ts.Pairwise fun t t' => t.tensor.offset + t.tensor.size ≤ t'.tensor.offset

theorem laid_assignOffsets {T a : Nat} (ha : 0 < a) (ha' : a < 4294967296) {s : Nat}
    {ts : List Source} (hs : InRange T a s)
    (hwritable : ∀ t ∈ assignOffsets a s ts, t.tensor.size ≠ 0 →
      (T + t.tensor.offset) % wrap64 + t.tensor.size < maxInt64) :
    Laid T a s (assignOffsets a s ts) := by
  induction ts generalizing s with
  | nil =>
    exact ⟨fun _ h => absurd h List.not_mem_nil, fun _ h => absurd h List.not_mem_nil,
      fun _ h => absurd h List.not_mem_nil, fun _ h => absurd h List.not_mem_nil, .nil⟩
  | cons t ts ih =>
    have hwrap : maxInt64 + 8589934592 < wrap64 := by
      have hmax := wrap64_eq
      have hroom := lt_maxInt64
      omega
    have hlt : T + s < maxInt64 + 8589934592 := by
      rcases hs with ⟨hlt, -⟩ | ⟨-, hlt, -⟩
      · exact hlt.trans_le (Nat.le_add_right _ _)
      · exact hlt
    have hend : t.tensor.size ≠ 0 → T + s + t.tensor.size < maxInt64 := by
      intro hne
      have hwrite := hwritable (t.place s) List.mem_cons_self hne
      rwa [show (t.place s).tensor.offset = s from rfl,
        Nat.mod_eq_of_lt (hlt.trans hwrap)] at hwrite
    obtain ⟨hnext, hle⟩ := hs.next ha ha' hend
    have hrest := ih hnext fun t' ht' => hwritable t' (List.mem_cons_of_mem _ ht')
    refine ⟨?_, ?_, ?_, ?_, ?_⟩
    · intro t' ht'
      rcases List.mem_cons.mp ht' with rfl | ht'
      · exact le_rfl
      · exact (Nat.le_add_right _ _).trans (hle.trans (hrest.from_le t' ht'))
    · intro t' ht'
      rcases List.mem_cons.mp ht' with rfl | ht'
      · exact hlt
      · exact hrest.lt t' ht'
    · intro t' ht'
      rcases List.mem_cons.mp ht' with rfl | ht'
      · exact hend
      · exact hrest.end_lt t' ht'
    · intro t' ht'
      rcases List.mem_cons.mp ht' with rfl | ht'
      · intro hin
        rcases hs with ⟨-, hdvd⟩ | ⟨hge, -⟩
        · exact hdvd
        · exact absurd hin (not_lt.mpr hge)
      · exact hrest.dvd t' ht'
    · exact List.pairwise_cons.mpr
        ⟨fun t' ht' => hle.trans (hrest.from_le t' ht'), hrest.disjoint⟩

end

/-! ## The output -/

/-- The same tensor, or one behind the other. -/
def Source.Apart (t t' : Source) : Prop :=
  t = t' ∨ t.tensor.offset + t.tensor.size ≤ t'.tensor.offset ∨
    t'.tensor.offset + t'.tensor.size ≤ t.tensor.offset

/-- Where a file ends that ends at `e` before the tensors. -/
def endFrom (T e : Nat) (tensors : List Source) : Nat :=
  tensors.foldr (fun t n => if t.tensor.size = 0 then n
    else max (T + t.tensor.offset + t.tensor.size) n) e

/-- Where the file ends: behind the header, or the last byte of a tensor. -/
def Output.fileEnd (out : Output) : Nat := endFrom out.offset out.header.length out.tensors

section

variable {T e n x : Nat} {tensors : List Source}

theorem endFrom_cons (t : Source) : endFrom T e (t :: tensors) = if t.tensor.size = 0 then
    endFrom T e tensors else max (T + t.tensor.offset + t.tensor.size) (endFrom T e tensors) := rfl

theorem le_endFrom (T e : Nat) (tensors : List Source) : e ≤ endFrom T e tensors := by
  induction tensors with
  | nil => exact le_rfl
  | cons t tensors ih =>
    rw [endFrom_cons]
    split
    · exact ih
    · exact ih.trans (le_max_right _ _)

theorem end_le_endFrom {t : Source} (ht : t ∈ tensors) (hsize : t.tensor.size ≠ 0) :
    T + t.tensor.offset + t.tensor.size ≤ endFrom T e tensors := by
  induction tensors with
  | nil => exact absurd ht List.not_mem_nil
  | cons t' tensors ih =>
    rw [endFrom_cons]
    rcases List.mem_cons.mp ht with rfl | ht
    · rw [if_neg hsize]
      exact le_max_left _ _
    · split
      · exact ih ht
      · exact (ih ht).trans (le_max_right _ _)

theorem endFrom_le (he : e ≤ n) (h : ∀ t ∈ tensors, t.tensor.size ≠ 0 →
    T + t.tensor.offset + t.tensor.size ≤ n) : endFrom T e tensors ≤ n := by
  induction tensors with
  | nil => exact he
  | cons t tensors ih =>
    have hrest := ih fun t' ht' => h t' (List.mem_cons_of_mem t ht')
    rw [endFrom_cons]
    split
    · exact hrest
    · exact max_le (h t List.mem_cons_self ‹_›) hrest

theorem endFrom_max : endFrom T (max x e) tensors = max x (endFrom T e tensors) := by
  refine le_antisymm (endFrom_le (max_le_max le_rfl (le_endFrom _ _ _)) fun t ht hsize => ?_)
    (max_le ((le_max_left _ _).trans (le_endFrom _ _ _))
      (endFrom_le ((le_max_right _ _).trans (le_endFrom _ _ _)) fun t ht hsize => ?_))
  · exact (end_le_endFrom ht hsize).trans (le_max_right _ _)
  · exact end_le_endFrom ht hsize

end

/-- What `WriteGGUF` has done. -/
structure IsOutput (kv : Config) (ts : List Source) (kvs : List (List UInt8)) (out : Output) :
    Prop where
  written : kv.write (kv.string (lit "general.architecture")) = some kvs
  alignment : out.alignment = kv.uint (lit "general.alignment") 32
  alignment_ne : out.alignment ≠ 0
  tensors : out.tensors = assignOffsets out.alignment 0 (sortTensors ts)
  header : out.header = headerBytes kv ts kvs out.tensors
  header_writable : Writable ⟨(), 0, out.header⟩
  writable : ∀ t ∈ out.tensors, ∀ w ∈ out.writes t, Writable w

variable {kv : Config} {ts : List Source} {kvs : List (List UInt8)} {out : Output}
  {file : List UInt8}

theorem exists_isOutput (h : WriteGGUF kv ts = some out) : ∃ kvs, IsOutput kv ts kvs out := by
  obtain ⟨kvs, hkvs, h⟩ := Option.bind_eq_some_iff.mp h
  simp only at h
  split at h
  · rename_i hcond
    obtain ⟨-, hne, hheader, hwritable⟩ := hcond
    obtain rfl := Option.some.inj h
    refine ⟨kvs, hkvs, rfl, hne, rfl, ?_, hheader, hwritable⟩
    simp only [headerBytes, List.append_assoc]
  · cases h

theorem uint_lt (kv : Config) (key : GoString) : kv.uint key 32 < 4294967296 := by
  rw [Config.uint]
  split
  · rename_i n _
    exact n.isLt
  · decide

theorem length_headerBytes (kv : Config) (ts : List Source) (kvs : List (List UInt8))
    (tensors : List Source) : 24 ≤ (headerBytes kv ts kvs tensors).length := by
  simp only [headerBytes, List.length_append, length_littleEndian]
  have hmagic : (lit "GGUF").length = 4 := by decide
  omega

namespace IsOutput

variable (h : IsOutput kv ts kvs out)

include h

/-- The tensors are those that were given, but for their offsets and their order. -/
theorem perm_map {β : Type} (f : Source → β) (hf : ∀ t offset, f (t.place offset) = f t) :
    (out.tensors.map f).Perm (ts.map f) := by
  have hassign : ∀ (l : List Source) (s : Nat),
      (assignOffsets out.alignment s l).map f = l.map f := by
    intro l
    induction l with
    | nil => exact fun _ => rfl
    | cons t l ih =>
      intro s
      rw [assignOffsets, List.map_cons, List.map_cons, ih, hf]
  rw [h.tensors, hassign]
  exact (List.perm_insertionSort _ ts).map f

theorem alignment_pos : 0 < out.alignment := Nat.pos_of_ne_zero h.alignment_ne

theorem alignment_lt : out.alignment < 4294967296 := h.alignment ▸ uint_lt kv _

theorem header_lt : out.header.length < maxInt64 := by
  have hlen := length_headerBytes kv ts kvs out.tensors
  rw [← h.header] at hlen
  have hw := h.header_writable (List.ne_nil_of_length_pos (Nat.lt_of_lt_of_le (by decide) hlen))
  rwa [Nat.zero_add] at hw

theorem offset_eq : out.offset = out.header.length + ggufPadding out.header.length out.alignment := by
  rw [Output.offset, padding64_natCast h.alignment_pos, Nat.mod_eq_of_lt]
  exact (add_lt_add h.header_lt ((padding_lt h.alignment_pos).trans h.alignment_lt)).trans (by decide)

theorem dvd_offset : out.alignment ∣ out.offset := h.offset_eq ▸ dvd_add_padding h.alignment_pos

theorem le_offset : out.header.length ≤ out.offset := h.offset_eq ▸ Nat.le_add_right _ _

theorem inRange : InRange out.offset out.alignment 0 := by
  rw [InRange, Nat.add_zero]
  by_cases hlt : out.offset < maxInt64
  · exact .inl ⟨hlt, dvd_zero _⟩
  · refine .inr ⟨not_lt.mp hlt, ?_, .inl ?_⟩
    · have hpad := (@padding_lt _ out.header.length h.alignment_pos).trans h.alignment_lt
      have hheader := h.header_lt
      rw [h.offset_eq]
      omega
    · rw [nextOffset_eq h.alignment_pos h.alignment_lt (by decide), Nat.add_zero,
        padding_of_dvd (dvd_zero _)]

theorem writes_lt {t : Source} (ht : t ∈ out.tensors) (hsize : t.tensor.size ≠ 0) :
    (out.offset + t.tensor.offset) % wrap64 + t.tensor.size < maxInt64 := by
  have hne : t.pieces.flatten ≠ [] := by
    intro hnil
    rw [← t.size_eq, hnil] at hsize
    exact hsize rfl
  obtain ⟨w, hw, hbytes, hend⟩ := @exists_last_piece Unit ()
    ((out.offset + t.tensor.offset) % wrap64) t.pieces hne
  rw [← t.size_eq, ← hend]
  exact h.writable t ht w hw hbytes

theorem laid : Laid out.offset out.alignment 0 out.tensors := by
  have hwrites : ∀ t ∈ out.tensors, t.tensor.size ≠ 0 →
      (out.offset + t.tensor.offset) % wrap64 + t.tensor.size < maxInt64 := fun t => h.writes_lt
  rw [h.tensors] at hwrites ⊢
  exact laid_assignOffsets h.alignment_pos h.alignment_lt h.inRange hwrites

/-- The bytes of a tensor with bytes are where they should be. -/
theorem place_eq {t : Source} (ht : t ∈ out.tensors) :
    (out.offset + t.tensor.offset) % wrap64 = out.offset + t.tensor.offset :=
  Nat.mod_eq_of_lt ((h.laid.lt t ht).trans (by decide))

theorem getElem?_of_writes {t : Source} (ht : t ∈ out.tensors) {w : Write Unit}
    (hw : w ∈ out.writes t) {k : Nat} {b : UInt8} (hb : w.at? () k = some b) :
    out.offset + t.tensor.offset ≤ k ∧
      t.pieces.flatten[k - (out.offset + t.tensor.offset)]? = some b := by
  rw [Output.writes, h.place_eq ht] at hw
  exact getElem?_of_pieceWrites hw hb

/-- Two tensors do not share a byte. -/
theorem eq_of_overlap {t t' : Source} (ht : t ∈ out.tensors) (ht' : t' ∈ out.tensors) {k : Nat}
    (hk : t.tensor.offset ≤ k ∧ k < t.tensor.offset + t.tensor.size)
    (hk' : t'.tensor.offset ≤ k ∧ k < t'.tensor.offset + t'.tensor.size) : t = t' := by
  have hcases : t.Apart t' := List.Pairwise.forall_of_forall_of_flip
    (fun t _ => show t.Apart t from .inl rfl) (h.laid.disjoint.imp fun hle => .inr (.inl hle))
    (h.laid.disjoint.imp fun hle => .inr (.inr hle)) ht ht'
  rcases hcases with heq | hle | hle
  · exact heq
  · omega
  · omega

/-! ## The file -/

section

variable {ws : List (Write Unit)} (hws : Interleaving (out.tensors.map out.writes) ws)

include hws

omit h in
theorem mem_writes {w : Write Unit} : w ∈ ws ↔ ∃ t ∈ out.tensors, w ∈ out.writes t := by
  rw [hws.mem_iff]
  simp only [List.mem_map, exists_exists_and_eq_and]

theorem header_prefix : out.header <+: fileOf (⟨(), 0, out.header⟩ :: ws) := by
  rw [← List.drop_zero (l := fileOf _)]
  refine prefix_drop_fileOf fun j b hj => memory_eq_some ⟨_, List.mem_cons_self, ?_⟩ ?_
  · rw [Write.at?, if_pos ⟨rfl, Nat.zero_le _⟩, Nat.zero_add]
    exact hj
  · intro w hw b' hb'
    rw [Nat.zero_add] at hb'
    rcases List.mem_cons.mp hw with rfl | hw
    · rw [Write.at?, if_pos ⟨rfl, Nat.zero_le _⟩] at hb'
      exact Option.some.inj (hb'.symm.trans hj)
    · obtain ⟨t, ht, hw⟩ := (mem_writes hws).mp hw
      have hle := (h.getElem?_of_writes ht hw hb').1
      have hlt := (List.getElem?_eq_some_iff.mp hj).1
      have hoffset := h.le_offset
      omega

theorem bytes_prefix {t : Source} (ht : t ∈ out.tensors) :
    t.pieces.flatten <+: (fileOf (⟨(), 0, out.header⟩ :: ws)).drop (out.offset + t.tensor.offset) := by
  refine prefix_drop_fileOf fun j b hj => memory_eq_some ?_ ?_
  · obtain ⟨w, hw, hb⟩ := @exists_pieceWrites Unit _ ()
      ((out.offset + t.tensor.offset) % wrap64) j t.pieces b hj
    rw [h.place_eq ht] at hb
    exact ⟨w, List.mem_cons_of_mem _ ((mem_writes hws).mpr ⟨t, ht, hw⟩), hb⟩
  · intro w hw b' hb'
    have hj' := (List.getElem?_eq_some_iff.mp hj).1
    rw [t.size_eq] at hj'
    rcases List.mem_cons.mp hw with rfl | hw
    · -- the header ends before
      rw [Write.at?, if_pos ⟨rfl, Nat.zero_le _⟩] at hb'
      have hlt : out.offset + t.tensor.offset + j < out.header.length :=
        (List.getElem?_eq_some_iff.mp hb').1
      have hoffset := h.le_offset
      omega
    · obtain ⟨t', ht', hw⟩ := (mem_writes hws).mp hw
      obtain ⟨hle, hget⟩ := h.getElem?_of_writes ht' hw hb'
      have hlt := (List.getElem?_eq_some_iff.mp hget).1
      rw [t'.size_eq] at hlt
      obtain rfl := @eq_of_overlap kv ts kvs out h t t' ht ht' (t.tensor.offset + j)
        ⟨by omega, by omega⟩ ⟨by omega, by omega⟩
      rw [Nat.add_sub_cancel_left] at hget
      exact Option.some.inj (hget.symm.trans hj)

theorem length_fileOf : (fileOf (⟨(), 0, out.header⟩ :: ws)).length = out.fileEnd := by
  have hheader : out.header ≠ [] := by
    have hlen := length_headerBytes kv ts kvs out.tensors
    rw [← h.header] at hlen
    exact List.ne_nil_of_length_pos (Nat.lt_of_lt_of_le (by decide) hlen)
  rw [Prismalama.Lib.length_fileOf]
  refine le_antisymm (fileLength_le fun w hw hbytes => ?_) ?_
  · rcases List.mem_cons.mp hw with rfl | hw
    · rw [Nat.zero_add]
      exact le_endFrom _ _ _
    · obtain ⟨t, ht, hw⟩ := (mem_writes hws).mp hw
      obtain ⟨-, hend⟩ := pieceWrites_bounds hw
      rw [h.place_eq ht, t.size_eq] at hend
      refine hend.trans (end_le_endFrom ht fun hzero => hbytes ?_)
      -- a tensor without bytes has no piece with bytes
      obtain ⟨hstart, hend'⟩ := pieceWrites_bounds hw
      rw [t.size_eq, hzero] at hend'
      exact List.length_eq_zero_iff.mp (by omega)
  · refine endFrom_le ?_ fun t ht hsize => ?_
    · have hle := le_fileLength (@List.mem_cons_self _ (⟨(), 0, out.header⟩ : Write Unit) ws) hheader
      rwa [Nat.zero_add] at hle
    · have hne : t.pieces.flatten ≠ [] := by
        intro hnil
        rw [← t.size_eq, hnil] at hsize
        exact hsize rfl
      obtain ⟨w, hw, hbytes, hend⟩ := @exists_last_piece Unit ()
        ((out.offset + t.tensor.offset) % wrap64) t.pieces hne
      rw [h.place_eq ht, t.size_eq] at hend
      rw [← hend]
      exact le_fileLength (List.mem_cons_of_mem _ ((mem_writes hws).mpr ⟨t, ht, hw⟩)) hbytes

end

end IsOutput

/-! ## Decoding it -/

theorem reads_counts {n m : Nat} (hn : n < 256 ^ 8) (hm : m < 256 ^ 8) :
    Reads written.readCounts (n, m) (littleEndian 8 n ++ littleEndian 8 m) := by
  have hbytes := @Reads.bytes Mark (littleEndian 8 n ++ littleEndian 8 m)
  rw [List.length_append, length_littleEndian, length_littleEndian] at hbytes
  refine hbytes.map ?_
  have htake : (littleEndian 8 n ++ littleEndian 8 m).take 8 = littleEndian 8 n :=
    List.take_left' (length_littleEndian 8 n)
  have hdrop : (littleEndian 8 n ++ littleEndian 8 m).drop 8 = littleEndian 8 m :=
    List.drop_left' (length_littleEndian 8 n)
  show Reads (pure (ByteOrder.littleEndian.uint ((littleEndian 8 n ++ littleEndian 8 m).take 8),
    ByteOrder.littleEndian.uint ((littleEndian 8 n ++ littleEndian 8 m).drop 8))) (n, m) []
  rw [htake, hdrop, uint_littleEndian hn, uint_littleEndian hm]
  exact .pure _

/-- The key-values that are found. -/
def Config.found (kv : Config) (tensors : List Source) : KV :=
  AList.insert parameterCount
    (.scalar .uint64 ((tensors.map fun t => t.tensor.elements).sum % wrap64)) kv.stored

theorem uint_eq (m : KV) (key : GoString) :
    KV.uint m key 32 = ((AList.lookup key m).map Value.alignment).getD 32 := by
  rw [KV.uint]
  cases AList.lookup key m with
  | none => rfl
  | some v =>
    cases v with
    | scalar k n => cases k <;> rfl
    | _ => rfl

theorem found_alignment (halign : AlignmentKept kv) (hdistinct : kv.DistinctKeys)
    (tensors : List Source) :
    KV.uint (kv.found tensors) (lit "general.alignment") 32 =
      kv.uint (lit "general.alignment") 32 := by
  have hfound : AList.lookup (lit "general.alignment") (kv.found tensors) =
      AList.lookup (lit "general.alignment") kv.stored := AList.lookup_insert_ne (by decide)
  rw [uint_eq, hfound]
  by_cases hkey : ∃ key ∈ kv.keys, kv.key key = lit "general.alignment"
  · obtain ⟨key, hmem, heq⟩ := hkey
    obtain ⟨v, hv⟩ := (GoMap.mem_keys_iff kv key).mp hmem
    have hstored := lookup_stored hdistinct hv
    rw [heq] at hstored
    rw [hstored, ← halign key v hv heq]
    rfl
  · have hnone := lookup_stored_eq_none fun key hmem heq => hkey ⟨key, hmem, heq⟩
    have hnot : AList.lookup (lit "general.alignment") kv = none := by
      by_contra hsome
      obtain ⟨v, hv⟩ := Option.ne_none_iff_exists'.mp hsome
      have hmem := (GoMap.mem_keys_iff kv _).mpr ⟨v, hv⟩
      refine hkey ⟨_, hmem, ?_⟩
      rw [Config.key, prefixed, if_neg]
      rintro ⟨-, hprefix, -⟩
      exact absurd hprefix (by decide)
    rw [hnone, Config.uint, hnot]
    rfl

/-- What is read before the tensors are checked. -/
def Output.found (out : Output) (kv : Config) (file : List UInt8) : Header where
  kv := kv.found out.tensors
  tensors := out.tensors.map Source.tensor
  tensorOffset := out.offset
  alignment := out.alignment
  offset := out.header.length
  fileSize := file.length

theorem header_found (h : IsOutput kv ts kvs out) (hheld : Held maxAlloc kv ts)
    (halign : AlignmentKept kv) (hdistinct : kv.DistinctKeys)
    (hdims : ∀ t ∈ ts, t.tensor.shape.length < 256 ^ 4) (hfile : out.header <+: file) :
    (header maxAlloc (-1) file start).1 = .ok (out.found kv file) := by
  have hlength : ∀ n, n < maxInt64 → n < 256 ^ 8 := fun n hn => hn.trans (by decide)
  have htensors : ∀ t ∈ out.tensors, Reads (written.readTensor maxAlloc) t.tensor
      (ggufWriteTensorInfo t.tensor) := by
    rw [h.tensors]
    have hall : ∀ (l : List Source) (s : Nat), s < 256 ^ 8 → (∀ t ∈ l, t ∈ ts) →
        ∀ t ∈ assignOffsets out.alignment s l, Reads (written.readTensor maxAlloc) t.tensor
          (ggufWriteTensorInfo t.tensor) := by
      intro l
      induction l with
      | nil => exact fun _ _ _ t ht => absurd ht List.not_mem_nil
      | cons t l ih =>
        intro s hs hl t' ht'
        have hmem := hl t List.mem_cons_self
        rcases List.mem_cons.mp ht' with rfl | ht'
        · exact @reads_tensor maxAlloc (t.place s) (hheld.names t hmem) (hheld.shapes t hmem)
            (hdims t hmem) hs
        · exact ih _ (Nat.mod_lt _ (by decide)) (fun t'' ht'' => hl t'' (List.mem_cons_of_mem _ ht''))
            t' ht'
    exact hall _ 0 (by decide) fun t ht => (List.mem_insertionSort _).mp ht
  have hcount : out.tensors.length = ts.length := by
    have hperm := (h.perm_map (fun t => t.pieces) fun _ _ => rfl).length_eq
    rwa [List.length_map, List.length_map] at hperm
  have hbytes : headerBytes kv ts kvs out.tensors <+: file.drop start.pos := by
    rw [← h.header]
    exact hfile
  rw [headerBytes] at hbytes
  have hmagic : Reads (bytes 4 : Decoder (List UInt8)) (lit "GGUF") (lit "GGUF") := Reads.bytes _
  have hversion : Reads (bytes 4 : Decoder (List UInt8)) (littleEndian 4 3) (littleEndian 4 3) :=
    Reads.bytes _
  have horder : magicOrder (ByteOrder.littleEndian.uint (lit "GGUF")) = some .littleEndian := by
    decide
  obtain ⟨c₁, hc₁, hpos₁, hbytes, hle⟩ := hmagic.step hbytes (Nat.zero_le _) _
  rw [header, hc₁, horder]
  obtain ⟨c₂, hc₂, hpos₂, hbytes, hle⟩ := hversion.step hbytes hle _
  simp only
  rw [hc₂]
  have hd : ({ byteOrder := .littleEndian
               version := ByteOrder.littleEndian.uint (littleEndian 4 3)
               maxArraySize := -1 } : Container) = written := by
    rw [uint_littleEndian (by decide)]
    rfl
  rw [hd]
  obtain ⟨c₃, hc₃, hpos₃, hbytes, hle⟩ :=
    (reads_counts (hlength _ hheld.lengths.2) (hlength _ hheld.lengths.1)).step hbytes hle
      fun counts => written.decode maxAlloc counts.1 counts.2
  rw [hc₃, Container.decode]
  obtain ⟨c₄, hc₄, hpos₄, hbytes, hle⟩ :=
    (reads_kvs h.written hheld.keys hheld.values).step hbytes hle _
  rw [hc₄]
  have hall := @Reads.replicate Mark _ (written.readTensor maxAlloc) ggufWriteTensorInfo
    (out.tensors.map Source.tensor) (fun t ht => by
      obtain ⟨t', ht', rfl⟩ := List.mem_map.mp ht
      exact htensors t' ht')
  rw [List.length_map, hcount, List.flatMap_map] at hall
  rw [← List.append_nil (out.tensors.flatMap _)] at hbytes
  obtain ⟨c₅, hc₅, hpos₅, -, -⟩ := hall.step hbytes hle _
  rw [hc₅]
  have hpos : c₅.pos = out.header.length := by
    rw [hpos₅, hpos₄, hpos₃, hpos₂, hpos₁, h.header, headerBytes]
    simp only [List.length_append, start]
    omega
  have helements : (out.tensors.map Source.tensor).map Tensor.elements =
      out.tensors.map fun t => t.tensor.elements := List.map_map
  have halignment : KV.uint (AList.insert (lit "general.parameter_count")
      (.scalar .uint64 ((out.tensors.map fun t => t.tensor.elements).sum % wrap64)) kv.stored)
      (lit "general.alignment") 32 = out.alignment :=
    (found_alignment halign hdistinct _).trans h.alignment.symm
  have hoffset : (out.header.length + ggufPadding out.header.length out.alignment) % wrap64 =
      out.offset := by
    rw [← h.offset_eq, Output.offset, Nat.mod_mod]
  rw [bind_of_ok (show tell file c₅ = (.ok c₅.pos, c₅) from rfl), helements]
  generalize hm : AList.insert (lit "general.parameter_count")
    (.scalar .uint64 ((out.tensors.map fun t => t.tensor.elements).sum % wrap64)) kv.stored = m
    at halignment ⊢
  have hfound : out.found kv file = { out.found kv file with kv := m } := by
    rw [← hm]
    rfl
  simp only [hpos]
  have hguard : guard (.alignment (KV.uint m (lit "general.alignment") 32))
      (KV.uint m (lit "general.alignment") 32 ≠ 0) file c₅ = (.ok (), { c₅ with
        marks := .alignment (KV.uint m (lit "general.alignment") 32) :: c₅.marks }) := by
    rw [Reader.guard, if_pos (halignment ▸ h.alignment_ne)]
  rw [bind_of_ok hguard, halignment, hoffset, hfound]
  rfl

/-- The check of tensors that end in the file. -/
theorem check_assignOffsets (h : IsOutput kv ts kvs out) {hd : Header}
    (hoffset : hd.tensorOffset = out.offset) (halignment : hd.alignment = out.alignment)
    (hlt : hd.fileSize < maxInt64) {l : List Source} {s cur : Nat} (hs : out.alignment ∣ s)
    (hcur : cur + ggufPadding cur out.alignment = out.offset + s)
    (hends : ∀ t ∈ assignOffsets out.alignment s l,
      out.offset + t.tensor.offset + t.tensor.size ≤ hd.fileSize) :
    (hd.check ((assignOffsets out.alignment s l).map Source.tensor) cur).isSome = true := by
  induction l generalizing s cur with
  | nil => rfl
  | cons t l ih =>
    have hend : out.offset + s + t.tensor.size ≤ hd.fileSize :=
      hends (t.place s) List.mem_cons_self
    have htensorEnd : hd.tensorEnd (t.place s).tensor = out.offset + s + t.tensor.size := by
      rw [Header.tensorEnd, hoffset]
      exact Nat.mod_eq_of_lt (hend.trans_lt (hlt.trans (by decide)))
    have hpad : seek cur (ggufPadding cur hd.alignment : Nat) = some (out.offset + s) := by
      rw [seek, halignment, ← Int.natCast_add, hcur, if_pos ⟨by omega, by omega⟩,
        Int.toNat_natCast]
    have hsize : seek (out.offset + s) (int64 (t.place s).tensor.size) =
        some (out.offset + s + t.tensor.size) := by
      have hint : int64 (t.place s).tensor.size = (t.tensor.size : Int) := if_pos (by
        show t.tensor.size < maxInt64
        omega)
      rw [hint, seek, ← Int.natCast_add, if_pos ⟨by omega, by omega⟩, Int.toNat_natCast]
    have hnext := @nextOffset_eq out.alignment s t.tensor.size h.alignment_pos h.alignment_lt
      (by omega)
    rw [assignOffsets, List.map_cons, Header.check, htensorEnd, if_neg (not_lt.mpr hend), hpad,
      Option.bind_some, hsize, Option.bind_some]
    refine ih (hnext ▸ dvd_add_padding h.alignment_pos) ?_ fun t' ht' =>
      hends t' (List.mem_cons_of_mem _ ht')
    rw [Nat.add_assoc out.offset, padding_add h.dvd_offset, hnext, Nat.add_assoc]

theorem IsOutput.fileEnd_lt (h : IsOutput kv ts kvs out) : out.fileEnd < maxInt64 := by
  have hle : out.fileEnd ≤ maxInt64 - 1 :=
    endFrom_le (Nat.le_sub_one_of_lt h.header_lt) fun t ht hsize =>
      Nat.le_sub_one_of_lt (h.laid.end_lt t ht hsize)
  exact hle.trans_lt (by decide)

/-! ## What cannot be read -/

theorem uint_lt_pow (o : ByteOrder) (bs : List UInt8) : o.uint bs < 256 ^ bs.length := by
  have hlittle : ∀ bs : List UInt8,
      bs.foldr (fun b n => b.toNat + 256 * n) 0 < 256 ^ bs.length := by
    intro bs
    induction bs with
    | nil => decide
    | cons b bs ih =>
      have hb := b.toNat_lt
      rw [List.foldr_cons, List.length_cons, pow_succ]
      omega
  cases o with
  | littleEndian => exact hlittle bs
  | bigEndian =>
    have hreverse := hlittle bs.reverse
    rw [List.foldr_reverse, List.length_reverse] at hreverse
    refine lt_of_le_of_lt (le_of_eq ?_) hreverse
    rw [ByteOrder.uint]
    congr 1
    funext n b
    exact Nat.add_comm _ _

theorem returns_bytes (n : Nat) :
    Returns (bytes n : Decoder (List UInt8)) fun _ bs => bs.length = n := by
  intro b c bs c' hout
  rw [bytes] at hout
  split at hout
  · obtain rfl := Result.ok.inj (Prod.mk.inj hout).1
    exact (‹n = 0›).symm
  · split at hout
    · obtain rfl := Result.ok.inj (Prod.mk.inj hout).1
      rw [List.length_take, List.length_drop]
      omega
    · cases hout

theorem returns_readUint (d : Container) (width : Nat) :
    Returns (d.readUint width) fun _ n => n < 256 ^ width :=
  (returns_bytes width).bind_of fun bs hbs => .pure fun _ => hbs ▸ uint_lt_pow d.byteOrder bs

theorem returns_readTensor (d : Container) :
    Returns (d.readTensor maxAlloc) fun _ t => t.shape.length < 256 ^ 4 := by
  refine Returns.bind fun name => (returns_readUint d 4).bind_of fun dims hdims =>
    Returns.bind fun _ => ?_
  refine @Returns.bind_of _ _ _ _ _ (fun shape => shape.length = dims) _ ?_ fun shape hshape =>
    Returns.bind fun kind => Returns.bind fun offset => .pure fun _ => ?_
  · exact fun b c shape c' hout =>
      ((returns_readUint d 8).replicate dims b c shape c' hout).1
  · rw [hshape]
    exact hdims

theorem header_dims (maxArraySize : Int) : Returns (header maxAlloc maxArraySize) fun _ hd =>
    ∀ t ∈ hd.tensors, t.shape.length < 256 ^ 4 := by
  refine Returns.bind fun magic => ?_
  split
  · exact returns_error
  · refine Returns.bind fun version => Returns.bind fun counts => Returns.bind fun kv => ?_
    refine @Returns.bind_of _ _ _ _ _ (fun tensors => ∀ t ∈ tensors, t.shape.length < 256 ^ 4) _ ?_
      fun tensors htensors => Returns.bind fun offset => Returns.bind fun _ =>
        Returns.bind fun fileSize => .pure fun _ => htensors
    exact fun b c tensors c' hout => ((returns_readTensor _).replicate _ b c tensors c' hout).2

/-! ## Tensors without bytes -/

section

variable {T a s n e : Nat} {tensors : List Source}

theorem padding_eq_zero (ha : 0 < a) : ggufPadding n a = 0 ↔ a ∣ n := by
  refine ⟨fun h => ?_, padding_of_dvd⟩
  have hdvd := @dvd_add_padding a n ha
  rwa [h, Nat.add_zero] at hdvd

/-- A file that ends at `e` with something of `n` bytes goes on at the offset `s`; the two are the
same place if no padding is missing. -/
structure GoesOn (T a n e s : Nat) : Prop where
  inRange : InRange T a s
  end_lt : e < maxInt64
  end_le : e ≤ T + s
  le_end_iff : T + s ≤ e ↔ a ∣ n

theorem GoesOn.empty (h : GoesOn T a n e s) (ha : 0 < a) (ha' : a < 4294967296) :
    GoesOn T a n e (nextOffset a s 0) := by
  obtain ⟨hnext, hmono⟩ := h.inRange.next ha ha' fun hne => absurd rfl hne
  have hle := h.end_le
  refine ⟨hnext, h.end_lt, by omega, ?_⟩
  rw [← h.le_end_iff]
  refine ⟨fun hend => by omega, fun hend => ?_⟩
  have hlt := h.end_lt
  rcases h.inRange with ⟨-, hdvd⟩ | ⟨hge, -⟩
  · rw [nextOffset_eq ha ha' (by omega), Nat.add_zero, padding_of_dvd hdvd]
    exact hend
  · omega

theorem GoesOn.written {z : Nat} (h : GoesOn T a n e s) (ha : 0 < a) (ha' : a < 4294967296)
    (hlt : T + s + z < maxInt64) : GoesOn T a z (T + s + z) (nextOffset a s z) := by
  obtain ⟨hnext, hmono⟩ := h.inRange.next ha ha' fun _ => hlt
  refine ⟨hnext, hlt, by omega, ?_⟩
  have hdvd : a ∣ s := by
    rcases h.inRange with ⟨-, hdvd⟩ | ⟨hge, -⟩
    · exact hdvd
    · omega
  rw [nextOffset_eq ha ha' (by omega), ← Nat.dvd_add_right hdvd, ← padding_eq_zero ha]
  omega

theorem endFrom_assignOffsets (h : e ≤ T + s) (t : Source) :
    endFrom T e (assignOffsets a s (t :: tensors)) =
      endFrom T (if t.tensor.size = 0 then e else T + s + t.tensor.size)
        (assignOffsets a (nextOffset a s t.tensor.size) tensors) := by
  rw [assignOffsets, endFrom_cons]
  by_cases hsize : t.tensor.size = 0
  · rw [if_pos hsize, if_pos (show (t.place s).tensor.size = 0 from hsize)]
  · have hmax : max (T + s + t.tensor.size) e = T + s + t.tensor.size := max_eq_left (by omega)
    rw [if_neg hsize, if_neg (show (t.place s).tensor.size ≠ 0 from hsize), ← hmax, endFrom_max]
    rfl

/-- Tensors without bytes have their places in the file, unless padding is missing at the end. -/
theorem ends_iff (ha : 0 < a) (ha' : a < 4294967296) (h : GoesOn T a n e s)
    (hwritten : ∀ t ∈ assignOffsets a s tensors, t.tensor.size ≠ 0 →
      T + t.tensor.offset + t.tensor.size < maxInt64) :
    (∀ t ∈ assignOffsets a s tensors, t.tensor.size = 0 →
      T + t.tensor.offset ≤ endFrom T e (assignOffsets a s tensors)) ↔
        ∀ t ∈ tensors.getLast?, t.tensor.size = 0 → a ∣ lastSize n tensors := by
  induction tensors generalizing s n e with
  | nil => exact iff_of_true (fun _ ht => absurd ht List.not_mem_nil) fun _ ht => (by cases ht)
  | cons t tensors ih =>
    have hrest := fun t' ht' => hwritten t' (List.mem_cons_of_mem (t.place s) ht')
    rw [endFrom_assignOffsets h.end_le, lastSize]
    by_cases hsize : t.tensor.size = 0
    · rw [hsize] at hrest
      have hnext := h.empty ha ha'
      have htail := ih hnext hrest
      have hmono := (h.inRange.next ha ha' fun hne => absurd rfl hne).2
      rw [if_pos hsize, if_pos hsize, assignOffsets, hsize]
      cases tensors with
      | nil =>
        constructor
        · intro hends _ _ _
          exact h.le_end_iff.mp (hends _ List.mem_cons_self hsize)
        · intro hends t' ht' _
          obtain rfl := List.mem_singleton.mp ht'
          exact h.le_end_iff.mpr (hends t rfl hsize)
      | cons u tensors =>
        rw [List.getLast?_cons_cons, ← htail]
        refine ⟨fun hends t' ht' => hends t' (List.mem_cons_of_mem _ ht'),
          fun hends t' ht' hsize' => ?_⟩
        rcases List.mem_cons.mp ht' with rfl | ht'
        · -- the next tensor is not before this one
          have hu : T + nextOffset a s 0 ≤
              endFrom T e (assignOffsets a (nextOffset a s 0) (u :: tensors)) := by
            by_cases hsizeU : u.tensor.size = 0
            · exact hends _ List.mem_cons_self hsizeU
            · exact (Nat.le_add_right _ _).trans
                (end_le_endFrom (t := u.place _) List.mem_cons_self hsizeU)
          refine le_trans ?_ hu
          show T + s ≤ _
          omega
        · exact hends t' ht' hsize'
    · -- the file now ends with this tensor
      have hlt : T + s + t.tensor.size < maxInt64 := hwritten (t.place s) List.mem_cons_self hsize
      have htail := ih (h.written ha ha' hlt) hrest
      rw [if_neg hsize, if_neg hsize, assignOffsets]
      refine Iff.trans ⟨fun hends t' ht' => hends t' (List.mem_cons_of_mem _ ht'),
        fun hends t' ht' hsize' => ?_⟩ (htail.trans ?_)
      · rcases List.mem_cons.mp ht' with rfl | ht'
        · exact absurd hsize' hsize
        · exact hends t' ht' hsize'
      · cases tensors with
        | nil =>
          refine iff_of_true (fun _ ht => by cases ht) fun t' ht' hsize' => ?_
          obtain rfl := Option.some.inj ht'
          exact absurd hsize' hsize
        | cons u tensors => rw [List.getLast?_cons_cons]

theorem length_ggufWriteTensorInfo (t : Source) (offset : Nat) :
    (ggufWriteTensorInfo (t.place offset).tensor).length = (ggufWriteTensorInfo t.tensor).length := by
  simp only [ggufWriteTensorInfo, Source.place, List.length_append, length_littleEndian]

theorem length_infos (a s : Nat) (tensors : List Source) :
    ((assignOffsets a s tensors).flatMap fun t => ggufWriteTensorInfo t.tensor).length =
      (tensors.flatMap fun t => ggufWriteTensorInfo t.tensor).length := by
  induction tensors generalizing s with
  | nil => rfl
  | cons t tensors ih =>
    rw [assignOffsets, List.flatMap_cons, List.flatMap_cons, List.length_append, List.length_append,
      ih, length_ggufWriteTensorInfo]

end

theorem IsOutput.length_header (h : IsOutput kv ts kvs out) :
    out.header.length = headerLength kv ts := by
  rw [h.header, headerLength, h.written, Option.getD_some, headerBytes, headerBytes, h.tensors]
  simp only [List.length_append, length_infos]

/-- Tensors without bytes have their places in the file if and only if no padding is missing. -/
theorem IsOutput.ends_iff (h : IsOutput kv ts kvs out) :
    (∀ t ∈ out.tensors, t.tensor.size = 0 → out.offset + t.tensor.offset ≤ out.fileEnd) ↔
      ∀ t ∈ (sortTensors ts).getLast?, t.tensor.size = 0 →
        kv.uint (lit "general.alignment") 32 ∣ lastSize (headerLength kv ts) (sortTensors ts) := by
  have hlast : out.offset + 0 ≤ out.header.length ↔ out.alignment ∣ out.header.length := by
    rw [← padding_eq_zero h.alignment_pos, h.offset_eq]
    omega
  have hwritten := h.laid.end_lt
  rw [Output.fileEnd, h.tensors] at *
  have hstart : GoesOn out.offset out.alignment out.header.length out.header.length 0 :=
    ⟨h.inRange, h.header_lt, h.le_offset, hlast⟩
  rw [Prismalama.Ggml.ends_iff h.alignment_pos h.alignment_lt hstart hwritten, h.length_header,
    h.alignment]

/-! ## The result -/

/-- A file that has the tensors in it, and all of them. -/
theorem same_found (h : IsOutput kv ts kvs out) (hdistinct : kv.DistinctKeys)
    {ws : List (Write Unit)} (hws : Interleaving (out.tensors.map out.writes) ws)
    (hkept : Kept kv ts) (length : Nat) :
    Same kv ts out (fileOf (⟨(), 0, out.header⟩ :: ws))
      ⟨out.found kv (fileOf (⟨(), 0, out.header⟩ :: ws)), length⟩ := by
  have hin : ∀ t ∈ out.tensors, out.offset + t.tensor.offset < maxInt64 := by
    intro t ht
    by_cases hsize : t.tensor.size = 0
    · exact (h.ends_iff.mpr hkept.ends t ht hsize).trans_lt h.fileEnd_lt
    · exact (Nat.le_add_right _ _).trans_lt (h.laid.end_lt t ht hsize)
  refine ⟨?_, ?_, ?_, rfl, ?_, ?_, ?_, ?_⟩
  · intro key v hv hne
    show AList.lookup _ (AList.insert _ _ _) = _
    rw [AList.lookup_insert_ne hne, lookup_stored hdistinct hv,
      (v.stored_eq_value).mpr (hkept.whole key v hv hne)]
  · intro k hk
    by_contra hnone
    rw [not_or] at hnone
    replace hk : (AList.lookup k (AList.insert _ _ kv.stored)).isSome = true := hk
    rw [AList.lookup_insert_ne hnone.1, lookup_stored_eq_none fun key hkey heq =>
      hnone.2 ⟨key, hkey, heq⟩] at hk
    cases hk
  · rw [← (h.perm_map (fun t => t.tensor.elements) fun _ _ => rfl).sum_eq]
    exact AList.lookup_insert _
  · show ((out.tensors.map Source.tensor).map Tensor.unplaced).Perm _
    rw [List.map_map]
    exact h.perm_map (fun t => t.tensor.unplaced) fun _ _ => rfl
  · intro t ht
    obtain ⟨t', ht', rfl⟩ := List.mem_map.mp ht
    exact Nat.dvd_add h.dvd_offset (h.laid.dvd t' ht' (hin t' ht'))
  · exact List.pairwise_map.mpr h.laid.disjoint
  · intro t ht
    have hprefix := h.bytes_prefix hws ht
    rw [← t.size_eq]
    exact (List.prefix_iff_eq_take.mp hprefix).symm

/-- What was written is read back if and only if arrays had their values, and no padding is
missing before tensors without bytes. -/
theorem write_decode (hout : WriteGGUF kv ts = some out) (hfile : out.Writes file)
    (hdistinct : kv.DistinctKeys) (hheld : Held maxAlloc kv ts) (halign : AlignmentKept kv) :
    RoundTrips maxAlloc kv ts out file ↔ Kept kv ts := by
  obtain ⟨kvs, h⟩ := exists_isOutput hout
  obtain ⟨ws, hws, rfl⟩ := hfile
  have hfound := fun hdims => header_found h hheld halign hdistinct hdims (h.header_prefix hws)
  have hlength := h.length_fileOf hws
  generalize hfile : fileOf (⟨(), 0, out.header⟩ :: ws) = file at hfound hlength
  obtain ⟨res, c, hres⟩ : ∃ res c, header maxAlloc (-1) file start = (res, c) := ⟨_, _, rfl⟩
  obtain ⟨-, -, hok⟩ := Decode_eq maxAlloc (-1) file hres
  rw [hres] at hfound
  constructor
  · rintro ⟨g, hg, hsame⟩
    obtain ⟨rfl, hcheck⟩ := (hok g).mp hg
    have hshapes := header_dims (-1) file start g.header c hres
    have hdims : ∀ t ∈ ts, t.tensor.shape.length < 256 ^ 4 := by
      intro t ht
      have hmem := (h.perm_map (fun t => t.tensor.shape) fun _ _ => rfl).mem_iff.mpr
        (List.mem_map_of_mem ht)
      obtain ⟨t', ht', heq⟩ := List.mem_map.mp hmem
      rw [← heq]
      refine hshapes t'.tensor ?_
      rw [hsame.tensors]
      exact List.mem_map_of_mem ht'
    have hheader : g.header = out.found kv file := Result.ok.inj (hfound hdims)
    refine ⟨fun key v hv hne => ?_, hdims, h.ends_iff.mp fun t ht hsize => ?_⟩
    · have hvalue := hsame.values key v hv hne
      rw [hheader] at hvalue
      replace hvalue : AList.lookup _ (AList.insert _ _ kv.stored) = _ := hvalue
      rw [AList.lookup_insert_ne hne, lookup_stored hdistinct hv] at hvalue
      exact (v.stored_eq_value).mp (Option.some.inj hvalue)
    · rw [hheader] at hcheck
      have hend := check_tensorEnd (Option.isSome_of_eq_some hcheck) t.tensor
        (List.mem_map_of_mem ht)
      replace hend : (out.offset + t.tensor.offset + t.tensor.size) % wrap64 ≤ file.length := hend
      rw [hsize, Nat.add_zero, h.place_eq ht, hlength] at hend
      exact hend
  · intro hkept
    obtain rfl : res = .ok (out.found kv file) := hfound hkept.dims
    have hends : ∀ t ∈ out.tensors, out.offset + t.tensor.offset + t.tensor.size ≤ file.length := by
      intro t ht
      rw [hlength]
      by_cases hsize : t.tensor.size = 0
      · rw [hsize]
        exact h.ends_iff.mpr hkept.ends t ht hsize
      · exact end_le_endFrom ht hsize
    have hcheck : ((out.found kv file).check (out.found kv file).tensors
        (out.found kv file).offset).isSome = true := by
      show ((out.found kv file).check (out.tensors.map Source.tensor) out.header.length).isSome = true
      rw [h.tensors] at hends ⊢
      have hlt : file.length < maxInt64 := hlength ▸ h.fileEnd_lt
      exact check_assignOffsets h rfl rfl hlt (dvd_zero _) h.offset_eq.symm hends
    obtain ⟨length, hlen⟩ := Option.isSome_iff_exists.mp hcheck
    refine ⟨⟨out.found kv file, length⟩, (hok _).mpr ⟨rfl, hlen⟩, ?_⟩
    rw [← hfile]
    exact same_found h hdistinct hws hkept length

/-- A configuration with the architecture only. -/
def smallConfig : Config := AList.insert architecture (.string (lit "a")) ∅

/-- The architecture and an array of strings, which is written as `a.tokens`. -/
def tokensConfig : Config :=
  AList.insert (lit "tokens") (.stringArray ⟨2, some [lit "x", lit "yz"], by simp⟩) smallConfig

/-- An F32 tensor with one element, written in two pieces. -/
def oneElement : Source where
  tensor := ⟨lit "t", 0, 0, [1]⟩
  pieces := [[1, 2, 3], [4]]
  kind_lt := by decide
  shape_lt := by decide
  size_eq := by decide

/-- A tensor of a block, which comes first. -/
def twoElements : Source where
  tensor := ⟨lit "blk.0.t", 0, 0, [2, 1]⟩
  pieces := [[5, 6, 7, 8, 9, 10, 11, 12]]
  kind_lt := by decide
  shape_lt := by decide
  size_eq := by decide

/-- An F32 tensor without elements. -/
def noElement : Source where
  tensor := ⟨lit "t", 0, 0, [0]⟩
  pieces := []
  kind_lt := by decide
  shape_lt := by decide
  size_eq := by decide

def outputOf (kv : Config) (ts : List Source) : Output := (WriteGGUF kv ts).getD ⟨0, [], []⟩

theorem writeGGUF_outputOf {kv : Config} {ts : List Source} (h : (WriteGGUF kv ts).isSome = true) :
    WriteGGUF kv ts = some (outputOf kv ts) := by
  obtain ⟨out, hout⟩ := Option.isSome_iff_exists.mp h
  rw [outputOf, hout, Option.getD_some]

/-- The file when the tensors are written one after the other. -/
def Output.inOrder (out : Output) : List UInt8 :=
  fileOf (⟨(), 0, out.header⟩ :: (List.range out.tensors.length).flatMap fun i =>
    (out.tensors.map out.writes).getD i [])

theorem Output.writes_inOrder (out : Output) : out.Writes out.inOrder := by
  refine ⟨_, Interleaving.of_order List.nodup_range fun i ws hi _ => ?_, rfl⟩
  have hlt := (List.getElem?_eq_some_iff.mp hi).1
  rw [List.length_map] at hlt
  exact List.mem_range.mpr hlt

theorem lookup_tokensConfig {key : GoString} {v : ConfigValue}
    (h : AList.lookup key tokensConfig = some v) :
    (key = lit "tokens" ∧ v = .stringArray ⟨2, some [lit "x", lit "yz"], by simp⟩) ∨
      (key = architecture ∧ v = .string (lit "a")) := by
  rw [tokensConfig, GoMap.lookup_insert_ite] at h
  split at h
  · exact .inl ⟨‹_›, (Option.some.inj h).symm⟩
  · rw [smallConfig, GoMap.lookup_insert_ite] at h
    split at h
    · exact .inr ⟨‹_›, (Option.some.inj h).symm⟩
    · cases h

theorem write_decode_two : RoundTrips (2 ^ 48) tokensConfig [oneElement, twoElements]
    (outputOf tokensConfig [oneElement, twoElements])
    (outputOf tokensConfig [oneElement, twoElements]).inOrder := by
  have hout := @writeGGUF_outputOf tokensConfig [oneElement, twoElements] (by decide +kernel)
  have hdistinct : tokensConfig.DistinctKeys := by
    unfold Config.DistinctKeys
    decide +kernel
  refine (write_decode hout (Output.writes_inOrder _) hdistinct ⟨?_, ?_, ?_, ?_, ?_⟩ ?_).mpr
    ⟨?_, ?_, ?_⟩
  · decide +kernel
  · intro key v hv
    rcases lookup_tokensConfig hv with ⟨-, rfl⟩ | ⟨-, rfl⟩
    · exact (by decide : Makes (2 ^ 48) 16 2 ∧ ∀ s ∈ [lit "x", lit "yz"], Makes (2 ^ 48) 1 s.length)
    · exact (by decide : Makes (2 ^ 48) 1 1)
  · decide
  · decide
  · decide
  · intro key v hv heq
    rcases lookup_tokensConfig hv with ⟨rfl, -⟩ | ⟨rfl, -⟩
    · exact absurd heq (by decide +kernel)
    · exact absurd heq (by decide +kernel)
  · intro key v hv _
    rcases lookup_tokensConfig hv with ⟨-, rfl⟩ | ⟨-, rfl⟩
    · rfl
    · exact trivial
  · decide
  · decide +kernel

/-- A tensor without bytes is the last one: its place is behind the end of the file, which
`Decode` does not take. -/
theorem write_not_decoded :
    WriteGGUF smallConfig [noElement] = some (outputOf smallConfig [noElement]) ∧
    (outputOf smallConfig [noElement]).Writes (outputOf smallConfig [noElement]).inOrder ∧
    (Decode (2 ^ 48) (-1) (outputOf smallConfig [noElement]).inOrder start).1 = .error ∧
    ¬RoundTrips (2 ^ 48) smallConfig [noElement] (outputOf smallConfig [noElement])
      (outputOf smallConfig [noElement]).inOrder := by
  have hnone : (Decode (2 ^ 48) (-1)
        (outputOf smallConfig [noElement]).inOrder start).1.value.isNone = true ∧
      (Decode (2 ^ 48) (-1) (outputOf smallConfig [noElement]).inOrder start).1.isPanic = false := by
    decide +kernel
  generalize hres : (Decode (2 ^ 48) (-1)
    (outputOf smallConfig [noElement]).inOrder start).1 = res at hnone
  cases res with
  | ok g => cases hnone.1
  | panic => cases hnone.2
  | error =>
    refine ⟨writeGGUF_outputOf (by decide +kernel), Output.writes_inOrder _, rfl, ?_⟩
    rintro ⟨g, hg, -⟩
    rw [hres] at hg
    cases hg

end Prismalama.Ggml
