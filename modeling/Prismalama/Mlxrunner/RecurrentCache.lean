import Prismalama.Lib.GoMap
import Prismalama.Mlxrunner.PendingSnapshots

/-!
# The recurrent cache of the mlx runner (`x/mlxrunner/cache/recurrent.go`)

The state of a recurrent layer is cumulative: it cannot be cut back, and a snapshot is
a copy of all of it. The pair of convolution and delta state is written as the rows it
has seen, from the zero state on.
-/

namespace Prismalama.Mlxrunner

open Prismalama.Lib

structure RecurrentSnapshot (α : Type*) where
  state : List α
  offset : Nat

structure RecurrentCache (α : Type*) where
  state : Option (List α)
  offset : Nat
  snapshots : PendingSnapshots
  heap : GoMap Nat (RecurrentSnapshot α)
  fresh : Nat

def newRecurrentCache {α : Type*} : RecurrentCache α where
  state := none
  offset := 0
  snapshots := ⟨[], none, 0⟩
  heap := ∅
  fresh := 0

namespace RecurrentCache

variable {α : Type*}

/-- `newRecurrentSnapshot` -/
def alloc (c : RecurrentCache α) (state : List α) (offset : Nat) :
    RecurrentCache α × Option Nat :=
  ({ c with heap := c.heap.insert c.fresh ⟨state, offset⟩, fresh := c.fresh + 1 }, some c.fresh)

/-- `Snapshot` -/
def snapshot (c : RecurrentCache α) (_fromOffset : Nat) : RecurrentCache α × Option Nat :=
  match c.state with
  | none => (c, none)
  | some state => c.alloc state c.offset

/-- `Close` -/
def close (c : RecurrentCache α) (id : Nat) : RecurrentCache α :=
  { c with heap := c.heap.erase id }

def captureReached (c : RecurrentCache α) (reached : Nat)
    (snap : RecurrentCache α → RecurrentCache α × Option Nat) : RecurrentCache α :=
  let out := c.snapshots.captureReached reached snap c
  { out.1 with snapshots := out.2 }

def captureBoundary (c : RecurrentCache α) (reached : Nat) : RecurrentCache α :=
  c.captureReached reached fun c => c.snapshot reached

def captureBoundaryState (c : RecurrentCache α) (reached : Nat) (state : List α) :
    RecurrentCache α :=
  c.captureReached reached fun c => c.alloc state reached

/-- `PrepareSnapshots`; `none` when it panics. -/
def prepareSnapshots (c : RecurrentCache α) (offsets : List Nat) : Option (RecurrentCache α) :=
  (c.snapshots.prepare c.offset offsets).map fun p =>
    ({ c with snapshots := p } : RecurrentCache α).captureBoundary c.offset

/-- `TakeSnapshots` -/
def takeSnapshots (c : RecurrentCache α) : RecurrentCache α × List (Option Nat) :=
  ({ c with snapshots := c.snapshots.take.1 }, c.snapshots.take.2)

/-- `SnapshotSplits` -/
def snapshotSplits (c : RecurrentCache α) (forwardLen : Nat) : List Nat :=
  (c.snapshots.offsets.filter fun o =>
    decide (c.offset < o) && decide (o < c.offset + forwardLen)).map (· - c.offset)

/-- `Get`: the state, zero at first. -/
def get (c : RecurrentCache α) : RecurrentCache α × List α :=
  ({ c with state := some (c.state.getD []) }, c.state.getD [])

/-- `Put` of the states at the splits, with each split, and of the state at the end. -/
def put (c : RecurrentCache α) (n : Nat) (interior : List (Nat × List α)) (last : List α) :
    RecurrentCache α :=
  let start := c.offset
  let c := interior.foldl (fun c e => c.captureBoundaryState (start + e.1) e.2) c
  ({ c with state := some last, offset := c.offset + n } : RecurrentCache α).captureBoundary
    (c.offset + n)

/-- A layer reads the state, runs its kernel over the rows, cut at the splits, and
stores the states. -/
def update (c : RecurrentCache α) (rows : List α) : RecurrentCache α :=
  let out := c.get
  out.1.put rows.length
    ((c.snapshotSplits rows.length).map fun s => (s, out.2 ++ rows.take s)) (out.2 ++ rows)

/-- `Restore` -/
def restore (c : RecurrentCache α) (snapshot : Option Nat) (target : Int) :
    RecurrentCache α × Bool :=
  match snapshot with
  | none => (c, decide (target = c.offset))
  | some id =>
    match c.heap.lookup id with
    | none => (c, false)
    | some snap =>
      if target ≠ snap.offset then (c, false)
      else ({ c with state := some snap.state, offset := snap.offset }, true)

/-- `Free` -/
def free (c : RecurrentCache α) : RecurrentCache α :=
  { c with state := none, offset := 0, snapshots := ⟨[], none, 0⟩ }

end RecurrentCache

end Prismalama.Mlxrunner
