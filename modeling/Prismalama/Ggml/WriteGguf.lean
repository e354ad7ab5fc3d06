import Prismalama.Ggml.Gguf
import Prismalama.Lib.TagStream
import Prismalama.Lib.Writes

/-!
# Writing a GGUF file (`fs/ggml/gguf.go`)

`WriteGGUF` writes the key-values and the tensors' names and shapes, with offsets that it
assigns, and then has every tensor write its bytes at its place, all of them at once.
-/

namespace Prismalama.Ggml

open Prismalama.Lib

/-! ## What is written -/

/-- The number of values of a type. -/
def Scalar.card (k : Scalar) : Nat := if k = .bool then 2 else 256 ^ k.width

/-- `array`. The values are missing when the file they come from was read without them. -/
structure Elems (α : Type) where
  size : Nat
  values : Option (List α)
  size_eq : ∀ vs ∈ values, vs.length = size

/-- What a configuration holds. -/
inductive ConfigValue
  | scalar (k : Scalar) (n : Fin k.card)
  | fileType (n : Fin (256 ^ 4))
  | string (s : GoString)
  | slice (k : Scalar) (vs : List (Fin k.card))
  | array (k : Scalar) (a : Elems (Fin k.card))
  | strings (vs : List GoString)
  | stringArray (a : Elems GoString)

abbrev Config := GoMap GoString ConfigValue

/-- `kv.String`, of a key that starts with `general.` -/
def Config.string (kv : Config) (key : GoString) : GoString :=
  match AList.lookup key kv with
  | some (.string s) => s
  | _ => []

/-- `kv.Uint`, of a key that starts with `general.` -/
def Config.uint (kv : Config) (key : GoString) (default : Nat) : Nat :=
  match AList.lookup key kv with
  | some (.scalar .uint32 n) => n
  | _ => default

/-- A tensor, and the pieces that its `WriteTo` writes. -/
structure Source where
  tensor : Tensor
  pieces : List (List UInt8)
  kind_lt : tensor.kind < 256 ^ 4
  shape_lt : ∀ n ∈ tensor.shape, n < 256 ^ 8
  size_eq : pieces.flatten.length = tensor.size

/-! ## Key-values -/

/-- The key as it is written. -/
def prefixed (arch k : GoString) : GoString :=
  if (arch ++ lit ".").isPrefixOf k = false ∧ (lit "general.").isPrefixOf k = false ∧
      (lit "adapter.").isPrefixOf k = false ∧ (lit "tokenizer.").isPrefixOf k = false then
    arch ++ lit "." ++ k
  else k

def writeGGUF (k : Scalar) (n : Nat) : List UInt8 :=
  littleEndian 4 k.type ++ littleEndian k.width n

def writeGGUFString (s : GoString) : List UInt8 := littleEndian 4 ggufTypeString ++ sized s

/-- The head of an array. -/
def arrayHead (t n : Nat) : List UInt8 :=
  littleEndian 4 ggufTypeArray ++ littleEndian 4 t ++ littleEndian 8 n

/-- `writeGGUFArray`, of values of a fixed width -/
def writeGGUFArray (k : Scalar) (vs : List (Fin k.card)) : List UInt8 :=
  arrayHead k.type vs.length ++ vs.flatMap fun v => littleEndian k.width v.val

/-- `writeGGUFArray`, of strings -/
def writeGGUFStrings (vs : List GoString) : List UInt8 :=
  arrayHead ggufTypeString vs.length ++ vs.flatMap sized

/-- The value with its type; none where the type is not one of those that are written. -/
def ConfigValue.write : ConfigValue → Option (List UInt8)
  | .scalar k n =>
    if k ∈ [Scalar.int32, .int64, .uint32, .uint64, .float32, .bool] then some (writeGGUF k n)
    else none
  | .fileType n => some (writeGGUF .uint32 n)
  | .string s => some (writeGGUFString s)
  | .slice k vs =>
    if k ∈ [Scalar.int32, .int64, .uint32, .float32, .bool] then some (writeGGUFArray k vs)
    else none
  | .array k a =>
    if k ∈ [Scalar.int32, .int64, .uint32, .float32, .bool] then
      some (writeGGUFArray k (a.values.getD []))
    else none
  | .strings vs => some (writeGGUFStrings vs)
  | .stringArray a => some (writeGGUFStrings (a.values.getD []))

def ggufWriteKV (arch k : GoString) (v : ConfigValue) : Option (List UInt8) :=
  v.write.map fun bs => sized (prefixed arch k) ++ bs

/-- `slices.Sorted(kv.Keys())` -/
def Config.sortedKeys (kv : Config) : List GoString := kv.keys.insertionSort (· ≤ ·)

/-- All key-values. -/
def Config.write (kv : Config) (arch : GoString) : Option (List (List UInt8)) :=
  kv.sortedKeys.mapM fun key => (AList.lookup key kv).bind (ggufWriteKV arch key)

/-! ## Tensors -/

def maxInt : Int := 9223372036854775807

/-- `%d` of `Sscanf`: the number and what is behind it. -/
def scanInt (cs : List Char) : Option (Int × List Char) :=
  let space := cs.takeWhile isSpace
  let cs := cs.dropWhile isSpace
  let negative := cs.head? == some '-'
  let cs := if negative = true ∨ cs.head? = some '+' then cs.tail else cs
  let digits := cs.takeWhile Char.isDigit
  let n : Int := digits.foldl (fun n c => 10 * n + (c.toNat - 0x30)) 0
  let n := if negative then -n else n
  if '\n' ∈ space ∨ digits = [] ∨ n < -maxInt - 1 ∨ maxInt < n then none
  else some (n, cs.dropWhile Char.isDigit)

/-- `block`, by `Sscanf` with `blk.%d.` -/
def Tensor.block (t : Tensor) : Int :=
  let cs := decodeRunes t.name
  if "blk.".toList.isPrefixOf cs then
    match scanInt (cs.drop 4) with
    | some (n, '.' :: _) => n
    | _ => maxInt
  else maxInt

/-- The order of the tensors: by their blocks, then by their names. -/
def Tensor.le (t t' : Tensor) : Prop :=
  t.block < t'.block ∨ (t.block = t'.block ∧ t.name ≤ t'.name)

instance (t t' : Tensor) : Decidable (t.le t') := inferInstanceAs (Decidable (_ ∨ _))

/-- `SortStableFunc` -/
def sortTensors (ts : List Source) : List Source :=
  ts.insertionSort fun t t' => t.tensor.le t'.tensor

/-- `ggufPadding`, of signed numbers -/
def padding64 (offset align : Int) : Int := (align - offset.tmod align).tmod align

/-- Where the next tensor goes. -/
def nextOffset (align s size : Nat) : Nat :=
  let s := (s + size) % wrap64
  (s + (padding64 (int64 s) align).toNat) % wrap64

def Source.place (t : Source) (offset : Nat) : Source :=
  { t with tensor := { t.tensor with offset := offset } }

/-- The tensors with their offsets, from `s` on. -/
def assignOffsets (align : Nat) : Nat → List Source → List Source
  | _, [] => []
  | s, t :: ts => t.place s :: assignOffsets align (nextOffset align s t.tensor.size) ts

/-- `ggufWriteTensorInfo` -/
def ggufWriteTensorInfo (t : Tensor) : List UInt8 :=
  sized t.name ++ littleEndian 4 t.shape.length ++ t.shape.flatMap (littleEndian 8) ++
    littleEndian 4 t.kind ++ littleEndian 8 t.offset

/-! ## The file -/

/-- What is written first, and what the tensors then write, each behind the other. -/
structure Output where
  alignment : Nat
  header : List UInt8
  tensors : List Source

/-- `offset`, where the tensors start. -/
def Output.offset (out : Output) : Nat :=
  (out.header.length + (padding64 out.header.length out.alignment).toNat) % wrap64

/-- The writes of an `OffsetWriter`. -/
def Output.writes (out : Output) (t : Source) : List (Write Unit) :=
  pieceWrites () ((out.offset + t.tensor.offset) % wrap64) t.pieces

/-- A write that the file system takes: a place from 2^63 on is negative. -/
def Writable (w : Write Unit) : Prop := w.bytes ≠ [] → w.offset + w.bytes.length < maxInt64

instance (w : Write Unit) : Decidable (Writable w) := inferInstanceAs (Decidable (_ → _))

/-- `WriteGGUF`; none for an error, or a panic for an alignment of zero. -/
def WriteGGUF (kv : Config) (ts : List Source) : Option Output :=
  let arch := kv.string (lit "general.architecture")
  let alignment := kv.uint (lit "general.alignment") 32
  let tensors := assignOffsets alignment 0 (sortTensors ts)
  (kv.write arch).bind fun kvs =>
    let out : Output :=
      { alignment := alignment
        header := lit "GGUF" ++ littleEndian 4 3 ++ littleEndian 8 ts.length ++
          littleEndian 8 kv.keys.length ++ kvs.flatten ++
          tensors.flatMap fun t => ggufWriteTensorInfo t.tensor
        tensors := tensors }
    if arch ≠ [] ∧ alignment ≠ 0 ∧ Writable ⟨(), 0, out.header⟩ ∧
        ∀ t ∈ tensors, ∀ w ∈ out.writes t, Writable w then
      some out
    else none

/-- The writes of the tensors come in any order, those of one tensor in its own. -/
def Output.Writes (out : Output) (file : List UInt8) : Prop :=
  ∃ ws, Interleaving (out.tensors.map out.writes) ws ∧ file = fileOf (⟨(), 0, out.header⟩ :: ws)

end Prismalama.Ggml
