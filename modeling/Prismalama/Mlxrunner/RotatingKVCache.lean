import Prismalama.Lib.GoMap
import Prismalama.Lib.Slice
import Prismalama.Mlxrunner.PendingSnapshots

/-!
# The sliding-window cache of the mlx runner (`x/mlxrunner/cache/rotating.go`)

The buffer keeps the rows of a window. Several rows at a time are appended to the
buffer, which is put in order and trimmed before; one row at a time goes to the ring
position. What a query sees is what the buffer and the mask of the history show it.

A row is the pair of key and value of a token, as in `KVCache`; a snapshot is lazy
until its slots are about to be overwritten.
-/

namespace Prismalama.Mlxrunner

open Prismalama.Lib

structure RotatingSnapshot (α : Type*) where
  /-- The owned window; `none` while the snapshot is lazy. -/
  keys : Option (List α)
  fromOffset : Nat
  toOffset : Nat
  idx : Nat
  /-- Whether the issuing cache is set. -/
  cache : Bool
  sliceStart : Nat
  sliceEnd : Nat

structure RotatingKVCache (α : Type*) where
  keys : Option (List α)
  offset : Nat
  step : Nat
  maxSize : Nat
  idx : Nat
  snapshots : PendingSnapshots
  lazySnapshots : List Nat
  heap : GoMap Nat (RotatingSnapshot α)
  fresh : Nat

def newRotatingKVCache {α : Type*} (maxSize : Nat) : RotatingKVCache α where
  keys := none
  offset := 0
  step := 256
  maxSize := maxSize
  idx := 0
  snapshots := ⟨[], none, 0⟩
  lazySnapshots := []
  heap := ∅
  fresh := 0

/-- What `Update` returns: the rows, and what their masks are made of. -/
structure KVHistory (α : Type*) where
  rows : List α
  /-- The number of queries. -/
  queries : Nat
  window : Nat
  ringIdx : Nat
  /-- The position of the first query. -/
  seqOffset : Nat

namespace RotatingKVCache

variable {α : Type*}

def buffer (c : RotatingKVCache α) : List α := c.keys.getD []

/-- `State` -/
def state (c : RotatingKVCache α) : Option (List α) :=
  c.keys.map fun rows => rows.take (min c.offset rows.length)

/-! ## Snapshots -/

def alloc (c : RotatingKVCache α) (s : RotatingSnapshot α) : RotatingKVCache α × Nat :=
  ({ c with heap := c.heap.insert c.fresh s, fresh := c.fresh + 1 }, c.fresh)

def dropLazySnapshot (c : RotatingKVCache α) (id : Nat) : RotatingKVCache α :=
  { c with lazySnapshots := c.lazySnapshots.erase id }

/-- `Close`; a merge closes the parent and returns the child. -/
def close (c : RotatingKVCache α) (id : Nat) : RotatingKVCache α :=
  match c.heap.lookup id with
  | none => c
  | some s =>
    let c := { c with heap := c.heap.erase id }
    if s.cache then c.dropLazySnapshot id else c

/-- `copyOut` -/
def copyOut (c : RotatingKVCache α) (id : Nat) : RotatingKVCache α :=
  match c.heap.lookup id with
  | none => c
  | some s =>
    if s.keys.isSome then c
    else
      let copy := { s with keys := some (slice c.buffer s.sliceStart s.sliceEnd), cache := false }
      ({ c with heap := c.heap.insert id copy } : RotatingKVCache α).dropLazySnapshot id

/-- `copyOutLazySnapshots` -/
def copyOutLazySnapshots (c : RotatingKVCache α) : RotatingKVCache α :=
  c.lazySnapshots.foldl copyOut c

/-- `Snapshot` -/
def snapshot (c : RotatingKVCache α) (fromOffset : Nat) : RotatingKVCache α × Option Nat :=
  match c.state with
  | none => (c, none)
  | some rows =>
    if c.offset ≤ fromOffset then (c, none)
    else
      let out := c.alloc ⟨some rows, fromOffset, c.offset, c.idx, false, 0, 0⟩
      (out.1, some out.2)

/-- `lazyRotatingSnapshot` -/
def lazyRotatingSnapshot (c : RotatingKVCache α) (o : Nat) : RotatingKVCache α × Option Nat :=
  match c.keys with
  | none => (c, none)
  | some rows =>
    let bufBase := c.offset - rows.length
    let liveLen := min o c.maxSize
    let sliceStart := o - liveLen - bufBase
    let sliceEnd := o - bufBase
    if sliceEnd ≤ sliceStart then (c, none)
    else
      let out := c.alloc ⟨none, o - liveLen, o, liveLen, true, sliceStart, sliceEnd⟩
      ({ out.1 with lazySnapshots := out.1.lazySnapshots ++ [out.2] }, some out.2)

def captureReached (c : RotatingKVCache α) (reached : Nat)
    (snap : RotatingKVCache α → RotatingKVCache α × Option Nat) : RotatingKVCache α :=
  let out := c.snapshots.captureReached reached snap c
  { out.1 with snapshots := out.2 }

def captureStartBoundary (c : RotatingKVCache α) (start : Nat) : RotatingKVCache α :=
  c.captureReached start fun c => c.snapshot 0

def captureLazySnapshots (c : RotatingKVCache α) (start stop : Nat) (batched : Bool) :
    RotatingKVCache α :=
  (c.snapshots.scheduledIn start stop).foldl (fun c o =>
    if o = start then c
    else
      c.captureReached o fun c =>
        if batched then c.lazyRotatingSnapshot o else c.snapshot (o - min o c.maxSize)) c

/-! ## Writes -/

/-- `concat`, of more than one row. -/
def concat (c : RotatingKVCache α) (keys : List α) : RotatingKVCache α × List α :=
  let c := c.copyOutLazySnapshots
  let rows :=
    match c.keys with
    | none => keys
    | some rows =>
      let wrapped := decide (c.idx < rows.length) && decide (c.maxSize < c.offset)
      let idx := if wrapped then rows.length else c.idx
      let inOrder :=
        if c.idx < rows.length then
          if c.offset ≤ c.maxSize then rows.take c.idx else rows.drop c.idx ++ rows.take c.idx
        else rows
      -- `idx - maxSize + 1` rows too many for the window
      inOrder.drop (idx + 1 - c.maxSize) ++ keys
  ({ c with keys := some rows, offset := c.offset + keys.length, idx := rows.length }, rows)

/-- The buffer grows while it is smaller than the window. -/
def grow [Inhabited α] (c : RotatingKVCache α) : RotatingKVCache α :=
  let newKeys := List.replicate (min c.step (c.maxSize - c.offset)) default
  match c.keys with
  | none => { c with keys := some newKeys, idx := c.offset }
  | some rows =>
    if rows.length ≤ c.offset ∧ rows.length < c.maxSize then
      { c with keys := some (rows ++ newKeys), idx := c.offset }
    else c

/-- The buffer is cut to the window. -/
def trim (c : RotatingKVCache α) : RotatingKVCache α :=
  if c.maxSize < c.buffer.length then
    { c with keys := some (c.buffer.drop (c.buffer.length - c.maxSize)), idx := c.maxSize }
  else c

/-- `update`, of one row. -/
def updateRing [Inhabited α] (c : RotatingKVCache α) (keys : List α) :
    RotatingKVCache α × List α :=
  let c := c.copyOutLazySnapshots.grow.trim
  let idx := if c.maxSize ≤ c.idx then 0 else c.idx
  let rows := sliceUpdate c.buffer idx keys
  let c := { c with
    keys := some rows
    offset := c.offset + keys.length
    idx := idx + keys.length }
  (c, rows.take (min c.offset c.maxSize))

/-- `Update` -/
def update [Inhabited α] (c : RotatingKVCache α) (keys : List α) :
    RotatingKVCache α × KVHistory α :=
  let start := c.offset
  let batched := decide (1 < keys.length)
  let c := c.captureStartBoundary start
  let out := if batched then c.concat keys else c.updateRing keys
  let c := out.1.captureLazySnapshots start out.1.offset batched
  (c, ⟨out.2, keys.length, c.maxSize, c.idx, start⟩)

/-! ## `Restore`, `PrepareSnapshots` and `Free` -/

/-- `Restore` without a snapshot. -/
def rewind (c : RotatingKVCache α) (target : Nat) : RotatingKVCache α × Bool :=
  if c.offset ≤ target then (c, decide (target = c.offset))
  else if c.maxSize < c.offset then (c, false)
  else ({ c with offset := target, idx := target }, true)

/-- The end of `Restore`: the position of the snapshot, or the target before it. -/
def setOffset (c : RotatingKVCache α) (snap : RotatingSnapshot α) (target : Nat) :
    RotatingKVCache α :=
  if target < snap.toOffset then { c with offset := target, idx := target }
  else { c with offset := snap.toOffset, idx := snap.idx }

/-- `Restore` of a lazy snapshot: its slots become the buffer, and it stays lazy. -/
def restoreLazy (c : RotatingKVCache α) (id : Nat) (snap : RotatingSnapshot α) :
    RotatingKVCache α :=
  let c := (c.dropLazySnapshot id).copyOutLazySnapshots
  let liveLen := snap.sliceEnd - snap.sliceStart
  { c with
    keys := some (slice c.buffer snap.sliceStart snap.sliceEnd)
    heap := c.heap.insert id { snap with sliceStart := 0, sliceEnd := liveLen }
    lazySnapshots := c.lazySnapshots ++ [id] }

/-- `Restore` -/
def restore (c : RotatingKVCache α) (snapshot : Option Nat) (target : Int) :
    RotatingKVCache α × Bool :=
  if target < 0 then (c, false)
  else
    match snapshot with
    | none => c.rewind target.toNat
    | some id =>
      match c.heap.lookup id with
      | none => (c, false)
      | some snap =>
        if snap.toOffset < target.toNat then (c, false)
        else if target.toNat < snap.toOffset ∧ c.maxSize < snap.toOffset then (c, false)
        else if snap.cache && snap.keys.isNone then
          ((c.restoreLazy id snap).setOffset snap target.toNat, true)
        else
          let c := (c.copyOut id).copyOutLazySnapshots
          let rows := ((c.heap.lookup id).bind RotatingSnapshot.keys).getD []
          (({ c with keys := some rows } : RotatingKVCache α).setOffset snap target.toNat, true)

/-- `PrepareSnapshots`; `none` when it panics. -/
def prepareSnapshots (c : RotatingKVCache α) (offsets : List Nat) : Option (RotatingKVCache α) :=
  (c.snapshots.prepare c.offset offsets).map fun p => { c with snapshots := p }

/-- `TakeSnapshots` -/
def takeSnapshots (c : RotatingKVCache α) : RotatingKVCache α × List (Option Nat) :=
  ({ c with snapshots := c.snapshots.take.1 }, c.snapshots.take.2)

/-- `Free` -/
def free (c : RotatingKVCache α) : RotatingKVCache α :=
  { c.copyOutLazySnapshots with
    keys := none
    offset := 0
    idx := 0
    snapshots := ⟨[], none, 0⟩ }

end RotatingKVCache

/-! ## What a query sees -/

namespace KVHistory

variable {α : Type*}

/-- The position of the first logical column. -/
def oldestPos (h : KVHistory α) : Nat := h.seqOffset + h.queries - h.rows.length

/-- `gatherRingCols`: from logical order to the order of the slots. -/
def gatherRingCols {β : Type*} (arr : List β) (ringIdx K : Nat) : List β :=
  if ringIdx % K = 0 then arr
  else arr.drop (K - ringIdx % K) ++ arr.take (K - ringIdx % K)

/-- The causal mask and `SlidingWindowMask`, for the query `q` and the column `k`. -/
def blocked (h : KVHistory α) (q k : Nat) : Bool :=
  let absQ : Int := h.seqOffset + q
  decide (absQ < h.oldestPos + k) ||
    (decide (0 < h.window) && decide ((k : Int) < absQ - h.window + 1 - h.oldestPos))

/-- The rows that the query `q` attends to, with their positions. For one query there is
no mask, and the slots are in the order of the ring. -/
def exposes (h : KVHistory α) (q : Nat) : List (α × Nat) :=
  if h.queries = 1 then
    h.rows.zip (gatherRingCols ((List.range h.rows.length).map (h.oldestPos + ·)) h.ringIdx
      h.rows.length)
  else
    (h.rows.zipIdx.filter fun e => !h.blocked q e.2).map fun e => (e.1, h.oldestPos + e.2)

end KVHistory

end Prismalama.Mlxrunner
