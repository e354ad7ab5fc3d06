import Prismalama.Lib.GoInt
import Prismalama.Lib.GoMap

/-!
# The causal KV cache (`kvcache/causal.go`)

The metadata of `Causal`: for each cell the position and the set of sequences
that reference it, for each sequence the range of cells it is stored in, and
the mask and cell range of the current forward pass. The key and value tensors
are written at `curLoc`; nothing here reads them back.

Lengths and indices are natural numbers, positions and window sizes are `int32`
values with wrapping arithmetic (`i32`). A loop over the cells that touches only
the cell it visits is a `map`, and the ranges such a loop widens on its way are
read off with `extendWhere`. A loop over a Go map takes the iteration order.
-/

namespace Prismalama.Kvcache

open Prismalama.Lib

/-- The errors of the package. `errKvCacheFull` is the bare error value,
`kvCacheFull` the one `findLocs` wraps with the cache and batch sizes. -/
inductive KvError
  | errKvCacheFull
  | kvCacheFull (cache batch : Nat)
  | notSupported
  | sharedCells
  | shiftFailed
  | invalidRecurrentShape
  deriving DecidableEq, Repr

structure CacheCell where
  pos : Int
  sequences : List Int
  deriving DecidableEq, Repr, Inhabited

/-- `slices.DeleteFunc` of one sequence. -/
def CacheCell.delete (cell : CacheCell) (seq : Int) : CacheCell :=
  { cell with sequences := cell.sequences.filter (fun s => s != seq) }

structure CellRange where
  min : Nat
  max : Nat
  deriving DecidableEq, Repr

def newRange : CellRange := ⟨maxInt, 0⟩

/-- Widen a range to take in cell `i`. -/
def CellRange.extend (r : CellRange) (i : Nat) : CellRange :=
  ⟨Nat.min r.min i, Nat.max r.max i⟩

/-- Cell `i` is one of `r.min, …, r.max`. -/
def CellRange.has (r : CellRange) (i : Nat) : Bool :=
  decide (r.min ≤ i) && decide (i ≤ r.max)

/-- A loop over the cells from index `i` that widens `r` at those satisfying `p`. -/
def extendFrom (p : Nat → CacheCell → Bool) : Nat → List CacheCell → CellRange → CellRange
  | _, [], r => r
  | i, cell :: rest, r => extendFrom p (i + 1) rest (if p i cell then r.extend i else r)

def extendWhere (r : CellRange) (p : Nat → CacheCell → Bool) (cells : List CacheCell) :
    CellRange :=
  extendFrom p 0 cells r

/-- One entry of `batch.Positions` and `batch.Sequences`. -/
structure Token where
  seq : Int
  pos : Int
  deriving DecidableEq, Repr

/-- What a mask holds for one cell: attend to it, or minus infinity. -/
inductive MaskValue
  | zero
  | negInf
  deriving DecidableEq, Repr

/-- A mask of shape history size, batch size. -/
structure Mask where
  length : Nat
  rows : List (List MaskValue)
  deriving DecidableEq, Repr

/-- What the constructor and the backend fix before `Init`: window, memory and
chunk sizes (zero for unset) and the padding. Sizes are counts of tokens. -/
structure CausalConfig where
  swaWindowSize : Int
  swaMemorySize : Int
  chunkSize : Int
  cachePadding : Nat
  hasShift : Bool
  window_nonneg : 0 ≤ swaWindowSize
  window_le : swaWindowSize ≤ maxInt32
  memory_nonneg : 0 ≤ swaMemorySize
  memory_le : swaMemorySize ≤ maxInt32

structure Causal where
  swaWindowSize : Int
  swaMemorySize : Int
  chunkSize : Int
  /-- `opts.Except` -/
  except : List Nat
  maxBatch : Nat
  /-- `config.CachePadding` -/
  cachePadding : Nat
  /-- whether `shiftFn` is set -/
  hasShift : Bool
  curLoc : List Nat
  curMask : Mask
  curCellRange : CellRange
  /-- `curSequences` and `curPositions` -/
  curBatch : List Token
  cells : List CacheCell
  cellRanges : GoMap Int CellRange

def roundDown (length pad : Nat) : Nat := length / pad * pad

def roundUp (length pad : Nat) : Nat := (length + pad - 1) / pad * pad

/-! ## Constructors and `Init` -/

def newCausalCache (cachePadding : Nat) (hasShift : Bool) : CausalConfig :=
  ⟨0, 0, 0, cachePadding, hasShift, by decide, by decide, by decide, by decide⟩

def newSWACache (windowSize : Int) (cachePadding : Nat) (hasShift : Bool)
    (h0 : 0 ≤ windowSize) (h1 : windowSize ≤ maxInt32) : CausalConfig :=
  ⟨windowSize, 0, 0, cachePadding, hasShift, h0, h1, by decide, by decide⟩

def newSWAMemCache (windowSize memorySize : Int) (cachePadding : Nat) (hasShift : Bool)
    (h0 : 0 ≤ windowSize) (h1 : windowSize ≤ maxInt32)
    (h2 : 0 ≤ memorySize) (h3 : memorySize ≤ maxInt32) : CausalConfig :=
  ⟨windowSize, memorySize, 0, cachePadding, hasShift, h0, h1, h2, h3⟩

def newChunkedAttentionCache (chunkSize : Int) (cachePadding : Nat) (hasShift : Bool) :
    CausalConfig :=
  ⟨0, 0, chunkSize, cachePadding, hasShift, by decide, by decide, by decide, by decide⟩

/-- The window `Init` settles on: zero means unlimited. -/
def CausalConfig.window (cfg : CausalConfig) : Int :=
  if cfg.swaWindowSize = 0 then maxInt32 else cfg.swaWindowSize

/-- The three rewrites of `swaMemorySize` in `Init`. -/
def CausalConfig.memory (cfg : CausalConfig) (maxSequences capacity : Nat) : Int :=
  let memory := if cfg.swaMemorySize = 0 then cfg.window else cfg.swaMemorySize
  let memory :=
    if memory ≠ maxInt32 ∧ maxSequences > 1 then max memory (i32 (cfg.window + 1)) else memory
  if memory ≥ capacity then maxInt32 else memory

def CausalConfig.padding (cfg : CausalConfig) : Nat :=
  if cfg.cachePadding = 0 then 1 else cfg.cachePadding

def CausalConfig.cacheSize (cfg : CausalConfig) (maxSequences capacity maxBatch : Nat) : Nat :=
  let memory := cfg.memory maxSequences capacity
  let size :=
    if memory = maxInt32 then maxSequences * capacity
    else maxSequences * memory.toNat + maxBatch
  roundUp size cfg.padding

/-- `Init`. It panics (`none`) when the memory is smaller than the window, and
`make` panics on a length that is no `int`. -/
def CausalConfig.init (cfg : CausalConfig) (maxSequences capacity maxBatch : Nat) :
    Option Causal :=
  let memory := cfg.memory maxSequences capacity
  let cacheSize := cfg.cacheSize maxSequences capacity maxBatch
  if memory < cfg.window then none
  else if maxInt < cacheSize then none
  else some
    { swaWindowSize := cfg.window
      swaMemorySize := memory
      chunkSize := cfg.chunkSize
      except := []
      maxBatch := maxBatch
      cachePadding := cfg.padding
      hasShift := cfg.hasShift
      curLoc := []
      curMask := ⟨0, []⟩
      curCellRange := ⟨0, 0⟩
      curBatch := []
      cells := List.replicate cacheSize ⟨0, []⟩
      cellRanges := ∅ }

namespace Causal

/-- `c.cells[i]`; `i` is in bounds wherever the code reads it. -/
def cellAt (c : Causal) (i : Nat) : CacheCell := c.cells.getD i ⟨0, []⟩

/-! ## `updateSlidingWindow` -/

structure LowestPosition where
  pos : Int
  curBatch : Bool
  deriving DecidableEq, Repr

/-- The first loop, for one entry of the batch. -/
def noteLowest (m : GoMap Int LowestPosition) (t : Token) : GoMap Int LowestPosition :=
  match m.lookup t.seq with
  | none => m.insert t.seq ⟨t.pos, true⟩
  | some lowest =>
    m.insert t.seq (if t.pos < lowest.pos then { lowest with pos := t.pos } else lowest)

/-- Each sequence of the batch with its lowest position. -/
def lowestOfBatch (batch : List Token) : GoMap Int LowestPosition :=
  batch.foldl noteLowest ∅

/-- The highest position stored for `seq` within `r`, at least zero. -/
def lastPosition (c : Causal) (seq : Int) (r : CellRange) : Int :=
  (List.range' r.min (r.max + 1 - r.min)).foldl
    (fun last i => if seq ∈ (c.cellAt i).sequences then max last (c.cellAt i).pos else last) 0

/-- The second loop, for one sequence: outside the batch it keeps what its next
token needs. -/
def noteIdle (c : Causal) (m : GoMap Int LowestPosition) (e : (_ : Int) × CellRange) :
    GoMap Int LowestPosition :=
  match m.lookup e.1 with
  | some _ => m
  | none => m.insert e.1 ⟨i32 (c.lastPosition e.1 e.2 + 1), false⟩

def lowestPos (c : Causal) : GoMap Int LowestPosition :=
  c.cellRanges.entries.foldl c.noteIdle (lowestOfBatch c.curBatch)

/-- Position `lowest.pos - c.swaMemorySize`: below it a cell is deleted from the sequence. -/
def evicts (c : Causal) (seq : Int) (lowest : LowestPosition) (cell : CacheCell) : Bool :=
  cell.sequences.contains seq && decide (cell.pos < i32 (lowest.pos - c.swaMemorySize))

/-- The body of the last loop, for one sequence with an old range. -/
def slideRange (c : Causal) (seq : Int) (lowest : LowestPosition) (oldRange : CellRange) : Causal :=
  { c with
    cells := c.cells.mapIdx fun i cell =>
      if oldRange.has i && c.evicts seq lowest cell then cell.delete seq else cell
    cellRanges := c.cellRanges.insert seq
      (extendWhere newRange
        (fun i cell => oldRange.has i && cell.sequences.contains seq && !c.evicts seq lowest cell)
        c.cells)
    curCellRange :=
      extendWhere c.curCellRange
        (fun i cell => oldRange.has i && cell.sequences.contains seq && lowest.curBatch &&
          decide (i32 (lowest.pos - c.swaWindowSize) ≤ cell.pos))
        c.cells }

def slideSequence (lowestPos : GoMap Int LowestPosition) (c : Causal) (seq : Int) : Causal :=
  match lowestPos.lookup seq, c.cellRanges.lookup seq with
  | some lowest, some oldRange => c.slideRange seq lowest oldRange
  | _, _ => c

/-- Without a window the current range is the union of the batch's ranges. -/
def coverSequence (c : Causal) (t : Token) : Causal :=
  match c.cellRanges.lookup t.seq with
  | none => c
  | some r =>
    { c with curCellRange :=
        ⟨Nat.min c.curCellRange.min r.min, Nat.max c.curCellRange.max r.max⟩ }

/-- `updateSlidingWindow`; `order` is the order in which the last loop visits `lowestPos`. -/
def updateSlidingWindow (c : Causal) (order : List Int) : Causal :=
  let c := { c with curCellRange := newRange }
  if c.swaMemorySize = maxInt32 then
    c.curBatch.foldl coverSequence c
  else
    order.foldl (slideSequence c.lowestPos) c

/-! ## `StartForward` -/

/-- The loop of `findLocs` over the cells from index `i`. -/
def findLocsFrom (n : Nat) : Nat → List CacheCell → List Nat → Option (List Nat)
  | _, [], _ => none
  | i, cell :: rest, loc =>
    if cell.sequences = [] then
      if n ≤ (loc ++ [i]).length then some (loc ++ [i])
      else findLocsFrom n (i + 1) rest (loc ++ [i])
    else findLocsFrom n (i + 1) rest loc

/-- A location for each token of the batch. -/
def findLocs (c : Causal) : Option (List Nat) :=
  findLocsFrom c.curBatch.length 0 c.cells []

/-- The body of the loop that stores the batch. -/
def storeToken (c : Causal) (t : Token) (loc : Nat) : Causal :=
  { c with
    cells := c.cells.set loc ⟨t.pos, [t.seq]⟩
    cellRanges := c.cellRanges.insert t.seq (((c.cellRanges.lookup t.seq).getD newRange).extend loc)
    curCellRange := c.curCellRange.extend loc }

/-- The loop that stores each token of the batch at its location. -/
def storeBatch (c : Causal) (xs : List (Token × Nat)) : Causal :=
  xs.foldl (fun c x => c.storeToken x.1 x.2) c

/-- The mask for batch entry `i` and one cell. -/
def maskValue (c : Causal) (i : Nat) (t : Token) (cell : CacheCell) : MaskValue :=
  let enabled := !c.except.contains i
  if !cell.sequences.contains t.seq ||
      (enabled && decide (t.pos < cell.pos)) ||
      (decide (0 < c.chunkSize) && decide (cell.pos < i32 (t.pos - t.pos.tmod c.chunkSize))) ||
      decide (cell.pos < i32 (t.pos - c.swaWindowSize)) then
    .negInf
  else .zero

/-- Rounds `curCellRange` to the padding and builds the mask of history x batch. -/
def buildMask (c : Causal) : Causal :=
  let r : CellRange := ⟨roundDown c.curCellRange.min c.cachePadding,
    roundUp (c.curCellRange.max + 1) c.cachePadding - 1⟩
  let length := r.max + 1 - r.min
  { c with
    curCellRange := r
    curMask := ⟨length, c.curBatch.mapIdx fun i t =>
      (List.range length).map fun k => c.maskValue i t (c.cellAt (r.min + k))⟩ }

/-- The batch and the default options become those of the current pass. -/
def withBatch (c : Causal) (batch : List Token) : Causal :=
  { c with curBatch := batch, except := [] }

/-- `StartForward`: the state after it and the error it returns, if any. -/
def startForward (c : Causal) (batch : List Token) (order : List Int) (reserve : Bool) :
    Causal × Option KvError :=
  let c := c.withBatch batch
  if reserve then
    let c := { c with
      curCellRange := ⟨0, c.cells.length - 1⟩
      curLoc := List.range batch.length }
    (c.buildMask, none)
  else
    let c := c.updateSlidingWindow order
    match c.findLocs with
    | none => (c, some (.kvCacheFull c.cells.length batch.length))
    | some locs =>
      let c := c.storeBatch (batch.zip locs)
      ({ c with curLoc := locs }.buildMask, none)

/-- The orders in which the last loop of `updateSlidingWindow` may visit `lowestPos`. -/
def IsOrder (c : Causal) (batch : List Token) (order : List Int) : Prop :=
  order.Perm (c.withBatch batch).lowestPos.keys

/-- `SetCausal` with a non-nil context, as every caller has it. -/
def setCausal (c : Causal) (except : List Nat) : Causal :=
  if c.except = except then c else { c with except := except }.buildMask

/-! ## `CopyPrefix`, `CanResume` and `Remove` -/

/-- The loop body of `CopyPrefix`; deleting a sequence that is absent changes nothing. -/
def copyCell (srcSeq dstSeq len : Int) (cell : CacheCell) : CacheCell :=
  let cell := cell.delete dstSeq
  if srcSeq ∈ cell.sequences ∧ cell.pos < len then
    { cell with sequences := cell.sequences ++ [dstSeq] }
  else cell

def copyPrefix (c : Causal) (srcSeq dstSeq len : Int) : Causal :=
  let cells := c.cells.map (copyCell srcSeq dstSeq len)
  { c with
    cells := cells
    cellRanges := c.cellRanges.insert dstSeq
      (extendWhere newRange (fun _ cell => cell.sequences.contains dstSeq) cells) }

def canResume (c : Causal) (seq pos : Int) : Bool :=
  if c.swaMemorySize = maxInt32 then true
  else
    match c.cellRanges.lookup seq with
    | none => false
    | some r =>
      let stored := (List.range' r.min (r.max + 1 - r.min)).filter
        fun i => (c.cellAt i).sequences.contains seq
      let first := stored.foldl (fun first i => min first (c.cellAt i).pos) maxInt32
      let last := stored.foldl (fun last i => max last (c.cellAt i).pos) (-1)
      if last = -1 then false
      else decide (first ≤ max 0 (i32 (pos - c.swaWindowSize))) && decide (pos ≤ i32 (last + 1))

/-- The loop of `Remove`: the cells it leaves, and whether it returned early
because a cell to be shifted is shared. -/
def removeLoop (seq beginIndex endIndex offset : Int) : List CacheCell → List CacheCell × Bool
  | [] => ([], false)
  | cell :: rest =>
    if cell.sequences.contains seq then
      if beginIndex ≤ cell.pos ∧ cell.pos < endIndex then
        let (rest, failed) := removeLoop seq beginIndex endIndex offset rest
        (cell.delete seq :: rest, failed)
      else if endIndex ≤ cell.pos then
        if cell.sequences.any (fun s => s != seq) then (cell :: rest, true)
        else
          let (rest, failed) := removeLoop seq beginIndex endIndex offset rest
          ({ cell with pos := i32 (cell.pos + offset) } :: rest, failed)
      else
        let (rest, failed) := removeLoop seq beginIndex endIndex offset rest
        (cell :: rest, failed)
    else
      let (rest, failed) := removeLoop seq beginIndex endIndex offset rest
      (cell :: rest, failed)

/-- `shift` of the keys; `backend` is what `shiftFn` reports for the cells it is called on. -/
def shift (c : Causal) (backend : Option KvError) : Option KvError :=
  if c.hasShift then backend else some .notSupported

/-- The offset of the shift. -/
def removeOffset (beginIndex endIndex : Int) : Int :=
  if endIndex ≠ maxInt32 then i32 (beginIndex - endIndex) else 0

/-- What `Remove` does once its loop is through: reset the range of the
sequence and shift the keys. -/
def resetRange (c : Causal) (seq endIndex : Int) (backend : Option KvError) :
    Causal × Option KvError :=
  let seqRange := extendWhere newRange (fun _ cell => cell.sequences.contains seq) c.cells
  if seqRange = newRange then ({ c with cellRanges := c.cellRanges.erase seq }, none)
  else
    ({ c with cellRanges := c.cellRanges.insert seq seqRange },
      if endIndex ≠ maxInt32 then c.shift backend else none)

/-- `Remove`: the state after it and the error it returns, if any. -/
def remove (c : Causal) (seq beginIndex endIndex : Int) (backend : Option KvError) :
    Causal × Option KvError :=
  let out := removeLoop seq beginIndex endIndex (removeOffset beginIndex endIndex) c.cells
  if out.2 then ({ c with cells := out.1 }, some .sharedCells)
  else ({ c with cells := out.1 } : Causal).resetRange seq endIndex backend

end Causal

end Prismalama.Kvcache
