import Prismalama.Lib.GoMap
import Prismalama.Lib.Slice
import Prismalama.Mlxrunner.PendingSnapshots

/-!
# The KV cache of the mlx runner (`x/mlxrunner/cache/kvcache.go`, `cache.go`)

An append-only buffer that grows by steps, and snapshots of ranges of it. A
snapshot is lazy at first: it names a range of the live buffer and owns nothing.
The cache copies it out before it overwrites or frees that range.

Keys and values are written, sliced and copied together; a row is the pair of
them at one position, and its default the row of zeros. Snapshots are numbered
in the order of their allocation, and `heap` has those that are not closed.
-/

namespace Prismalama.Mlxrunner

open Prismalama.Lib

structure KvSnapshot (α : Type*) where
  /-- The owned copy; `none` while the snapshot is lazy. -/
  keys : Option (List α)
  fromOffset : Nat
  toOffset : Nat
  /-- Whether the issuing cache is set. -/
  cache : Bool

structure KVCache (α : Type*) where
  keys : Option (List α)
  offset : Nat
  step : Nat
  snapshots : PendingSnapshots
  lazySnapshots : List Nat
  rewound : Bool
  heap : GoMap Nat (KvSnapshot α)
  fresh : Nat

def newKVCache {α : Type*} : KVCache α where
  keys := none
  offset := 0
  step := 256
  snapshots := ⟨[], none, 0⟩
  lazySnapshots := []
  rewound := false
  heap := ∅
  fresh := 0

namespace KVCache

variable {α : Type*}

/-- The live buffer. -/
def buffer (c : KVCache α) : List α := c.keys.getD []

/-- `State`: the rows up to the offset. -/
def state (c : KVCache α) : Option (List α) := c.keys.map fun rows => rows.take c.offset

/-! ## Snapshots -/

def alloc (c : KVCache α) (s : KvSnapshot α) : KVCache α × Nat :=
  ({ c with heap := c.heap.insert c.fresh s, fresh := c.fresh + 1 }, c.fresh)

def addLazySnapshot (c : KVCache α) (id : Nat) : KVCache α :=
  { c with lazySnapshots := c.lazySnapshots ++ [id] }

def dropLazySnapshot (c : KVCache α) (id : Nat) : KVCache α :=
  { c with lazySnapshots := c.lazySnapshots.erase id }

/-- `Close` -/
def close (c : KVCache α) (id : Nat) : KVCache α :=
  match c.heap.lookup id with
  | none => c
  | some s =>
    let c := { c with heap := c.heap.erase id }
    if s.cache then c.dropLazySnapshot id else c

/-- `copyOut` -/
def copyOut (c : KVCache α) (id : Nat) : KVCache α :=
  match c.heap.lookup id with
  | none => c
  | some s =>
    if s.keys.isSome then c
    else
      let copy := { s with
        keys := some (slice c.buffer s.fromOffset s.toOffset)
        cache := false }
      ({ c with heap := c.heap.insert id copy } : KVCache α).dropLazySnapshot id

/-- Copy out the lazy snapshots that `p` picks. -/
def copyOutWhere (c : KVCache α) (p : KvSnapshot α → Bool) : KVCache α :=
  c.lazySnapshots.foldl (fun c id =>
    match c.heap.lookup id with
    | none => c
    | some s => if p s then c.copyOut id else c) c

/-- `lazySnapshot` -/
def lazySnapshot (c : KVCache α) (fromOffset toOffset : Nat) : KVCache α × Option Nat :=
  if c.keys.isNone || decide (toOffset ≤ fromOffset) then (c, none)
  else
    let out := c.alloc ⟨none, fromOffset, toOffset, true⟩
    (out.1.addLazySnapshot out.2, some out.2)

/-- `Snapshot` -/
def snapshot (c : KVCache α) (fromOffset : Nat) : KVCache α × Option Nat :=
  c.lazySnapshot fromOffset c.offset

/-! ## Writes -/

/-- Room for `n` more rows. -/
def grow [Inhabited α] (c : KVCache α) (n : Nat) : KVCache α :=
  let steps := (c.step + n - 1) / c.step
  let newKeys := List.replicate (steps * c.step) default
  match c.keys with
  | none => { c with keys := some newKeys }
  | some rows =>
    if rows.length < c.offset + n then
      let rows := if c.offset % c.step ≠ 0 then rows.take c.offset else rows
      { c with keys := some (rows ++ newKeys) }
    else c

/-- Before `n` rows are appended: after a rewind they may land on snapshots. -/
def copyOutBefore (c : KVCache α) (n : Nat) : KVCache α :=
  if c.rewound then
    { c.copyOutWhere fun s =>
        decide (s.fromOffset < c.offset + n) && decide (c.offset < s.toOffset) with
      rewound := false }
  else c

/-- Write the rows at the offset, which moves behind them. -/
def writeRows [Inhabited α] (c : KVCache α) (keys : List α) : KVCache α :=
  let grown := c.grow keys.length
  { grown with
    offset := grown.offset + keys.length
    keys := some (sliceUpdate grown.buffer grown.offset keys) }

/-- `appendKV`: the cache and the history it returns. -/
def appendKV [Inhabited α] (c : KVCache α) (keys : List α) : KVCache α × List α :=
  let c := (c.copyOutBefore keys.length).writeRows keys
  (c, c.buffer.take c.offset)

/-- `captureReached`, of the rows since the capture before. -/
def captureReached (c : KVCache α) (reached : Nat) : KVCache α :=
  let out := c.snapshots.captureReached reached
    (fun c => c.lazySnapshot c.snapshots.base reached) c
  { out.1 with snapshots := out.2 }

def captureLazySnapshots (c : KVCache α) (start stop : Nat) : KVCache α :=
  (c.snapshots.scheduledIn start stop).foldl captureReached c

/-- `Update` -/
def update [Inhabited α] (c : KVCache α) (keys : List α) : KVCache α × List α :=
  let out := c.appendKV keys
  (out.1.captureLazySnapshots c.offset out.1.offset, out.2)

/-- `PrepareSnapshots`; `none` when it panics. -/
def prepareSnapshots (c : KVCache α) (offsets : List Nat) : Option (KVCache α) :=
  (c.snapshots.prepare c.offset offsets).map fun p => { c with snapshots := p }

/-- `TakeSnapshots` -/
def takeSnapshots (c : KVCache α) : KVCache α × List (Option Nat) :=
  ({ c with snapshots := c.snapshots.take.1 }, c.snapshots.take.2)

/-! ## `Restore`, `Merge`, `Split` and `Free` -/

/-- `Restore` without a snapshot. -/
def rewind (c : KVCache α) (target : Nat) : KVCache α × Bool :=
  if c.offset < target then (c, false)
  else ({ c with offset := target, rewound := true }, true)

/-- The rows a snapshot owns. -/
def ownedRows (c : KVCache α) (id : Nat) : List α :=
  ((c.heap.lookup id).bind KvSnapshot.keys).getD []

/-- `Restore` -/
def restore [Inhabited α] (c : KVCache α) (snapshot : Option Nat) (target : Int) :
    KVCache α × Bool :=
  if target < 0 then (c, false)
  else
    match snapshot with
    | none => c.rewind target.toNat
    | some id =>
      match c.heap.lookup id with
      | none => (c, false)
      | some snap =>
        if snap.toOffset < target.toNat ∨ c.offset < snap.fromOffset then (c, false)
        else if snap.cache && snap.keys.isNone then
          ({ c with offset := min target.toNat snap.toOffset, rewound := true }, true)
        else
          let c := c.copyOut id
          let c := (({ c with offset := snap.fromOffset, rewound := true } :
            KVCache α).appendKV (c.ownedRows id)).1
          (if target.toNat < c.offset then { c with offset := target.toNat } else c, true)

/-- `Merge` of two snapshots. -/
def mergeSnapshots (c : KVCache α) (p ch : Nat) (parent child : KvSnapshot α) : KVCache α × Nat :=
  if parent.keys.isNone && child.keys.isNone && parent.cache == child.cache &&
      parent.toOffset == child.fromOffset then
    let out := c.alloc ⟨none, parent.fromOffset, child.toOffset, parent.cache⟩
    (((out.1.addLazySnapshot out.2).close p).close ch, out.2)
  else
    let c := (c.copyOut p).copyOut ch
    ((c.close p).close ch).alloc
      ⟨some (c.ownedRows p ++ c.ownedRows ch), parent.fromOffset, child.toOffset, false⟩

/-- `Merge` -/
def merge (c : KVCache α) (parent child : Option Nat) : KVCache α × Option Nat :=
  match parent, child with
  | some p, some ch =>
    match c.heap.lookup p, c.heap.lookup ch with
    | some ps, some cs =>
      let out := c.mergeSnapshots p ch ps cs
      (out.1, some out.2)
    | _, _ => (c, none)
  | some p, none => (c.close p, none)
  | none, some ch => (c.close ch, none)
  | none, none => (c, none)

/-- `Split` at an offset inside the range. -/
def splitSnapshot (c : KVCache α) (id : Nat) (snap : KvSnapshot α) (splitIdx : Nat) :
    KVCache α × Nat × Nat :=
  let mid := snap.fromOffset + splitIdx
  match snap.keys with
  | none =>
    let p := c.alloc ⟨none, snap.fromOffset, mid, snap.cache⟩
    let ch := p.1.alloc ⟨none, mid, snap.toOffset, snap.cache⟩
    (((ch.1.addLazySnapshot p.2).addLazySnapshot ch.2).close id, p.2, ch.2)
  | some rows =>
    let seqLen := snap.toOffset - snap.fromOffset
    let p := (c.close id).alloc ⟨some (slice rows 0 splitIdx), snap.fromOffset, mid, false⟩
    let ch := p.1.alloc ⟨some (slice rows splitIdx seqLen), mid, snap.toOffset, false⟩
    (ch.1, p.2, ch.2)

/-- `Split` -/
def split (c : KVCache α) (snapshot : Option Nat) (splitAt : Int) :
    KVCache α × Option Nat × Option Nat :=
  match snapshot with
  | none => (c, none, none)
  | some id =>
    match c.heap.lookup id with
    | none => (c, none, none)
    | some snap =>
      let splitIdx := splitAt - snap.fromOffset
      let seqLen : Int := snap.toOffset - snap.fromOffset
      if splitIdx ≤ 0 then (c, none, some id)
      else if seqLen ≤ splitIdx then (c, some id, none)
      else
        let out := c.splitSnapshot id snap splitIdx.toNat
        (out.1, some out.2.1, some out.2.2)

/-- `Free` -/
def free (c : KVCache α) : KVCache α :=
  { c.copyOutWhere fun _ => true with
    keys := none
    offset := 0
    rewound := false
    snapshots := ⟨[], none, 0⟩ }

end KVCache

end Prismalama.Mlxrunner
