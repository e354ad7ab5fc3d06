import Prismalama.Ggml.Backend
import Prismalama.Lib.Reader

/-!
# Reading a GGUF file (`fs/ggml/gguf.go`, `fs/ggml/ggml.go`)

`Decode` reads the key-values and the tensors of a file and looks whether each tensor ends
in the file. Every length, count and size is a number of the input. `marks` are those that
a slice is made with, and the strings that are skipped.
-/

namespace Prismalama.Ggml

open Prismalama.Lib

/-! ## Values -/

inductive ByteOrder
  | littleEndian
  | bigEndian
  deriving DecidableEq

/-- The number of some bytes. -/
def ByteOrder.uint (o : ByteOrder) (bs : List UInt8) : Nat :=
  match o with
  | .littleEndian => bs.foldr (fun b n => b.toNat + 256 * n) 0
  | .bigEndian => bs.foldl (fun n b => 256 * n + b.toNat) 0

/-- `binary.Write`, little-endian. -/
def littleEndian : Nat → Nat → List UInt8
  | 0, _ => []
  | width + 1, n => UInt8.ofNat n :: littleEndian width (n / 256)

/-- A string, behind its length. -/
def sized (s : GoString) : List UInt8 := littleEndian 8 s.length ++ s

/-- The types of a fixed width. A value is the number of its bits. -/
inductive Scalar
  | uint8
  | int8
  | uint16
  | int16
  | uint32
  | int32
  | float32
  | bool
  | uint64
  | int64
  | float64
  deriving DecidableEq

def Scalar.width : Scalar → Nat
  | .uint8 | .int8 | .bool => 1
  | .uint16 | .int16 => 2
  | .uint32 | .int32 | .float32 => 4
  | .uint64 | .int64 | .float64 => 8

/-- The constants `ggufType`. -/
def Scalar.type : Scalar → Nat
  | .uint8 => 0
  | .int8 => 1
  | .uint16 => 2
  | .int16 => 3
  | .uint32 => 4
  | .int32 => 5
  | .float32 => 6
  | .bool => 7
  | .uint64 => 10
  | .int64 => 11
  | .float64 => 12

def ggufTypeString : Nat := 8

def ggufTypeArray : Nat := 9

def scalarOf (t : Nat) : Option Scalar :=
  [Scalar.uint8, .int8, .uint16, .int16, .uint32, .int32, .float32, .bool, .uint64, .int64,
    .float64].find? fun k => k.type == t

/-- Values; those of an array are missing when it is larger than `maxArraySize`. -/
inductive Value
  | scalar (k : Scalar) (n : Nat)
  | string (s : GoString)
  | scalars (k : Scalar) (size : Nat) (values : Option (List Nat))
  | strings (size : Nat) (values : Option (List GoString))
  deriving DecidableEq

abbrev KV := GoMap GoString Value

/-- `kv.Uint`, of a key that starts with `general.` -/
def KV.uint (kv : KV) (key : GoString) (default : Nat) : Nat :=
  match AList.lookup key kv with
  | some (.scalar .uint32 n) => n
  | _ => default

/-! ## Lengths -/

/-- What is marked: the length of a string, of a version 1 string, the size of an array that
is kept or not, the number of dimensions, the alignment, and a string that is skipped. -/
inductive Mark
  | string (length : Nat)
  | stringV1 (length : Nat)
  | array (width n : Nat) (kept : Bool)
  | dims (n : Nat)
  | alignment (n : Nat)
  | skipped (o : ByteOrder) (pos : Nat)
  deriving DecidableEq

def maxInt64 : Nat := 2 ^ 63

/-- The length of the scratch buffer. -/
def scratchLen : Nat := 16 * 2 ^ 10

variable (maxAlloc : Nat)

/-- A slice of this length can be made: the length is not negative as an `int`, and the
runtime has addresses for it. -/
def Makes (width n : Nat) : Prop := n < maxInt64 ∧ width * n ≤ maxAlloc

instance (width n : Nat) : Decidable (Makes maxAlloc width n) :=
  inferInstanceAs (Decidable (_ ∧ _))

structure Container where
  byteOrder : ByteOrder
  version : Nat
  maxArraySize : Int

abbrev Decoder := Reader Mark

namespace Container

def readUint (d : Container) (width : Nat) : Decoder Nat := do
  let bs ← Reader.bytes width
  pure (d.byteOrder.uint bs)

/-- `readGGUF`, of a type of a fixed width. -/
def readGGUF (d : Container) (k : Scalar) : Decoder Nat := do
  let n ← d.readUint k.width
  pure (if k = .bool then min n 1 else n)

/-- `readGGUFV1String`. `CopyN` of no bytes, or of a negative number of them, leaves the
buffer empty, and `Truncate` panics. -/
def readGGUFV1String (d : Container) : Decoder GoString := do
  let length ← d.readUint 8
  Reader.guard (.stringV1 length) (0 < length ∧ length < maxInt64)
  let bs ← Reader.bytes length
  pure bs.dropLast

/-- `readGGUFString` -/
def readGGUFString (d : Container) : Decoder GoString :=
  if d.version = 1 then d.readGGUFV1String
  else do
    let length ← d.readUint 8
    Reader.guard (.string length) (length < maxInt64 ∧ (length ≤ scratchLen ∨ length ≤ maxAlloc))
    Reader.bytes length

/-- `discardGGUFString`. A negative size skips nothing. -/
def discardGGUFString (d : Container) : Decoder Unit := do
  let size ← d.readUint 8
  if size < maxInt64 then
    let _ ← Reader.bytes size
  else pure ()

/-- `newArray` keeps the values. -/
def keeps (d : Container) (n : Nat) : Bool :=
  decide (d.maxArraySize < 0) || decide (maxInt64 ≤ n) || decide ((n : Int) ≤ d.maxArraySize)

/-- `newArray` -/
def newArray (d : Container) (width n : Nat) : Decoder Unit :=
  Reader.guard (.array width n (d.keeps n)) (d.keeps n = true → Makes maxAlloc width n)

/-- `readGGUFStringsData` and `readGGUFV1StringsData` -/
def readGGUFStringsData (d : Container) (n : Nat) : Decoder Value :=
  if d.keeps n = true then do
    let values ← Reader.replicate (d.readGGUFString maxAlloc) n
    pure (.strings n (some values))
  else do
    Reader.repeatFor (Reader.attempt (.skipped d.byteOrder) d.discardGGUFString) n
    pure (.strings n none)

/-- `readGGUFArrayData` -/
def readGGUFArrayData (d : Container) (k : Scalar) (n : Nat) : Decoder Value :=
  if d.keeps n = true then do
    let values ← Reader.replicate (d.readGGUF k) n
    pure (.scalars k n (some values))
  else do
    Reader.repeatFor (do let _ ← d.readGGUF k) n
    pure (.scalars k n none)

/-- `readGGUFArray` -/
def readGGUFArray (d : Container) : Decoder Value := do
  let t ← d.readUint 4
  let n ← d.readUint 8
  if t = ggufTypeString then
    d.newArray maxAlloc 16 n
    d.readGGUFStringsData maxAlloc n
  else
    match scalarOf t with
    | some k =>
      d.newArray maxAlloc k.width n
      d.readGGUFArrayData k n
    | none => Reader.error

/-- The value of a key, by its type. -/
def readValue (d : Container) (t : Nat) : Decoder Value :=
  if t = ggufTypeString then do
    let s ← d.readGGUFString maxAlloc
    pure (.string s)
  else if t = ggufTypeArray then d.readGGUFArray maxAlloc
  else
    match scalarOf t with
    | some k => do
      let n ← d.readGGUF k
      pure (.scalar k n)
    | none => Reader.error

def readKV (d : Container) (kv : KV) : Decoder KV := do
  let k ← d.readGGUFString maxAlloc
  let t ← d.readUint 4
  let v ← d.readValue maxAlloc t
  pure (AList.insert k v kv)

def readTensor (d : Container) : Decoder Tensor := do
  let name ← d.readGGUFString maxAlloc
  let dims ← d.readUint 4
  Reader.guard (.dims dims) (8 * dims ≤ maxAlloc)
  let shape ← Reader.replicate (d.readUint 8) dims
  let kind ← d.readUint 4
  let offset ← d.readUint 8
  pure { name := name, kind := kind, offset := offset, shape := shape }

end Container

def ggufPadding (offset align : Nat) : Nat := (align - offset % align) % align

/-- What is read before the tensors are checked. -/
structure Header where
  kv : KV
  tensors : List Tensor
  tensorOffset : Nat
  alignment : Nat
  offset : Nat
  fileSize : Nat

namespace Container

/-- The counts of tensors and key-values. -/
def readCounts (d : Container) : Decoder (Nat × Nat) := do
  let width := if d.version = 1 then 4 else 8
  let bs ← Reader.bytes (2 * width)
  pure (d.byteOrder.uint (bs.take width), d.byteOrder.uint (bs.drop width))

/-- `gguf.Decode`, up to the check of the tensors. -/
def decode (d : Container) (numTensor numKV : Nat) : Decoder Header := do
  let kv ← Reader.iterate (d.readKV maxAlloc) numKV ∅
  let tensors ← Reader.replicate (d.readTensor maxAlloc) numTensor
  let parameters := (tensors.map Tensor.elements).sum % wrap64
  let kv := AList.insert (lit "general.parameter_count") (.scalar .uint64 parameters) kv
  let alignment := KV.uint kv (lit "general.alignment") 32
  let offset ← Reader.tell
  Reader.guard (.alignment alignment) (alignment ≠ 0)
  let fileSize ← Reader.size
  pure
    { kv := kv
      tensors := tensors
      tensorOffset := (offset + ggufPadding offset alignment) % wrap64
      alignment := alignment
      offset := offset
      fileSize := fileSize }

end Container

def magicLE : Nat := 0x46554747

def magicBE : Nat := 0x47475546

def magicOrder (magic : Nat) : Option ByteOrder :=
  if magic = magicLE then some .littleEndian
  else if magic = magicBE then some .bigEndian
  else none

/-- `Decode`, up to the check of the tensors. -/
def header (maxArraySize : Int) : Decoder Header := do
  let magic ← Reader.bytes 4
  match magicOrder (ByteOrder.littleEndian.uint magic) with
  | none => Reader.error
  | some o =>
    let version ← Reader.bytes 4
    let d : Container :=
      { byteOrder := o, version := o.uint version, maxArraySize := maxArraySize }
    let counts ← d.readCounts
    d.decode maxAlloc counts.1 counts.2

/-- `tensorEnd`, as the machine has it. -/
def Header.tensorEnd (hd : Header) (t : Tensor) : Nat :=
  (hd.tensorOffset + t.offset + t.size) % wrap64

def int64 (n : Nat) : Int := if n < maxInt64 then n else (n : Int) - wrap64

/-- `Seek`, from the current place: a negative place is an error. -/
def seek (cur : Nat) (n : Int) : Option Nat :=
  if 0 ≤ (cur : Int) + n ∧ (cur : Int) + n < maxInt64 then some ((cur : Int) + n).toNat else none

/-- The check of the tensors: the place in the file at the end. -/
def Header.check (hd : Header) : List Tensor → Nat → Option Nat
  | [], cur => some cur
  | t :: rest, cur =>
    if hd.fileSize < hd.tensorEnd t then none
    else
      (seek cur (ggufPadding cur hd.alignment)).bind fun cur =>
        (seek cur (int64 t.size)).bind fun cur => hd.check rest cur

/-- What `Decode` returns. -/
structure Model where
  header : Header
  length : Nat

/-- `Decode` -/
def Decode (maxArraySize : Int) : Decoder Model := do
  let hd ← header maxAlloc maxArraySize
  match hd.check hd.tensors hd.offset with
  | some length => pure { header := hd, length := length }
  | none => Reader.error

end Prismalama.Ggml
