import Prismalama.Ggml.Backend
import Prismalama.Lib.Writes

/-!
# Loading (`ml/backend/ggml/ggml.go`, `ggml_streaming.go`)

`Load` starts a goroutine for each tensor of the file, `LoadStreaming` walks the
file's tensors block by block. Both read a tensor in chunks, convert them to the
format of the backend's tensor and write each chunk to all of its targets.
-/

namespace Prismalama.Ggml

open Prismalama.Lib

/-! ## Formats -/

/-- One block of MXFP4: `a1b2c3 ... x7y8z9` becomes `71xa82yb93zc`. -/
def mxfp4Block (bts : List UInt8) : List UInt8 :=
  bts.take 1 ++ (List.range 8).flatMap fun i =>
    let a : UInt8 := bts.getD (i + 1) 0
    let b : UInt8 := bts.getD (i + 9) 0
    [(a &&& (0x0F : UInt8)) ||| (b <<< (4 : UInt8)), (a >>> (4 : UInt8)) ||| (b &&& (0xF0 : UInt8))]

/-- The whole blocks among some bytes. -/
def mxfp4Blocks : Nat → List UInt8 → List UInt8
  | 0, bts => bts
  | n + 1, bts => mxfp4Block (bts.take 17) ++ mxfp4Blocks n (bts.drop 17)

/-- `ConvertToF32` of bfloat16, which is the upper half of the float. -/
def bf16ToF32 : Nat → List UInt8 → List UInt8
  | n + 1, lo :: hi :: bts => 0 :: 0 :: lo :: hi :: bf16ToF32 n bts
  | _, _ => []

/-- How a chunk is written: the size of the buffer, the bytes that a step of the
loop counts as one, the bytes they become, and the conversion. -/
structure Format where
  buffer : Nat
  unit : Nat
  written : Nat
  convert : List UInt8 → List UInt8

def rawFormat (buffer : Nat) : Format := ⟨buffer, 1, 1, id⟩

def mxfp4Format : Format := ⟨8 * 17 * 1024, 1, 1, fun bts => mxfp4Blocks (bts.length / 17) bts⟩

def bf16Format : Format := ⟨128 * 1024, 2, 4, fun bts => bf16ToF32 (bts.length / 2) bts⟩

/-! ## One tensor -/

abbrev TensorWrite := Write GoString

/-- The loop over the chunks; `none` for a read error. `done` counts units, and
`src` is what is left of the section. -/
def readLoop (fmt : Format) (dests : List GoString) (total : Nat) :
    Nat → Nat → List UInt8 → Option (List TensorWrite)
  | 0, done, _ => if done < total then none else some []
  | fuel + 1, done, src =>
    if done < total then
      let n := min fmt.buffer ((total - done) * fmt.unit)
      if src.length < n then none
      else
        (readLoop fmt dests total fuel (done + n / fmt.unit) (src.drop n)).map
          (dests.map (fun dest => ⟨dest, done * fmt.written, fmt.convert (src.take n)⟩) ++ ·)
    else some []

/-- `io.NewSectionReader` at an `int64` offset. -/
def section_ (file : List UInt8) (offset size : Nat) : List UInt8 :=
  if offset < 2 ^ 63 then (file.drop offset).take size else []

/-- The number of units and the format of a tensor, by the type of its first target. -/
def loadFormat (rawBuffer : Nat) (t : Tensor) (type : Nat) : Nat × Format :=
  if t.kind = 4 ∧ type = 39 then (t.size, mxfp4Format)
  else if (lit "_exps.bias").isSuffixOf t.name = true ∧ t.kind = 30 ∧ type = 0 then
    (t.elements, bf16Format)
  else (t.size, rawFormat rawBuffer)

namespace Backend

variable (b : Backend) (file : List UInt8)

/-- What the file has for a tensor. -/
def source (t : Tensor) : List UInt8 :=
  section_ file ((b.gguf.tensorOffset + t.offset) % wrap64) t.size

/-- The targets of a tensor with their types; `none` if one is not there. -/
def targetsOf (t : Tensor) (mapping : List GoString) : Option (List (GoString × Nat)) :=
  mapping.mapM fun target =>
    let name := targetName t.name target
    (b.tensors.lookup name).map fun type => (name, type)

/-- Read a tensor and write it to its targets. -/
def loadTensor (rawBuffer : Nat) (t : Tensor) : List (GoString × Nat) → Option (List TensorWrite)
  | [] => none
  | tt :: tts =>
    let fmt := loadFormat rawBuffer t tt.2
    readLoop fmt.2 ((tt :: tts).map (·.1)) fmt.1 fmt.1 0 (b.source file t)

/-- The goroutine of `Load` for a tensor. It panics without a target. -/
def loadGoroutine (t : Tensor) : Option (List TensorWrite) :=
  match (b.tensorLoadTargets.lookup t.name).getD [] with
  | [] => none
  | mapping => (b.targetsOf t mapping).bind (b.loadTensor file (128 * 1024) t)

/-- `Load`: the writes of each goroutine. -/
def load : Option (List (List TensorWrite)) :=
  if b.allocMemory then b.gguf.tensors.mapM (b.loadGoroutine file) else none

/-- `resolveTensorTargets` -/
def resolveTensorTargets (t : Tensor) : Option (List (GoString × Nat)) :=
  match (b.tensorLoadTargets.lookup t.name).getD [] with
  | [] => b.targetsOf t [[]]
  | mapping => b.targetsOf t mapping

/-- `loadOneTensor` -/
def loadOneTensor (t : Tensor) : Option (List TensorWrite) :=
  (b.resolveTensorTargets t).bind (b.loadTensor file (1024 * 1024) t)

/-- `loadTensorGroup` -/
def loadTensorGroup (tensors : List Tensor) : Option (List TensorWrite) :=
  (tensors.mapM (b.loadOneTensor file)).map List.flatten

/-- A group of `groupTensorsByLayer`. -/
def tensorsByLayer (isNumber : Char → Bool) (i : Int) : List Tensor :=
  b.gguf.tensors.filter fun t => decide (parseTensorBlockIndex isNumber t.name = i)

/-- `LoadStreaming`: the tensors without a block, then block after block. -/
def loadStreaming (isNumber : Char → Bool) : Option (List TensorWrite) :=
  if b.allocMemory then
    (((-1 : Int) :: (List.range b.gguf.blockCount).map fun (i : Nat) => (i : Int)).mapM fun i =>
      b.loadTensorGroup file (b.tensorsByLayer isNumber i)).map List.flatten
  else none

end Backend

end Prismalama.Ggml
