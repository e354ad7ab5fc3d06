import Prismalama.Lib.GoInt
import Prismalama.Lib.GoMap

/-!
# Checkpoint stores (`kvcache/recurrent_checkpoints.go`)

A slot of the recurrent cache has a ring of checkpoints: positions at which the
recurrent state was saved, with one saved row for each buffer. An entry whose
position is negative is dead; its rows are left in place and overwritten when
the entry is recorded again.

`R` is the type of a row, the state of one sequence in one buffer, and its
default the row of zeros. The conv and recurrent maps of an entry are one map
keyed by `StateBuffer`.
-/

namespace Prismalama.Kvcache

open Prismalama.Lib

inductive StateKind
  | conv
  | recurrent
  deriving DecidableEq, Repr

/-- A state buffer: of one kind, for one layer. -/
structure StateBuffer where
  kind : StateKind
  layer : Nat
  deriving DecidableEq, Repr

structure CheckpointEntry (R : Type*) where
  pos : Int
  saved : GoMap StateBuffer R

structure SlotCheckpointStore (R : Type*) where
  entries : List (CheckpointEntry R)
  size : Nat
  next : Nat
  lastPos : Int

structure CheckpointRestore where
  slot : Nat
  idx : Nat
  pos : Int
  deriving DecidableEq, Repr

variable {R : Type*}

def newSlotCheckpointStore (n : Nat) : SlotCheckpointStore R :=
  ⟨List.replicate n ⟨-1, ∅⟩, 0, 0, -1⟩

namespace SlotCheckpointStore

def reset (s : SlotCheckpointStore R) : SlotCheckpointStore R :=
  ⟨s.entries.map fun entry => { entry with pos := -1 }, 0, 0, -1⟩

/-- Take the next entry of the ring for `pos`; `none` for the index -1. -/
def record (s : SlotCheckpointStore R) (pos : Int) : SlotCheckpointStore R × Option Nat :=
  if s.entries = [] then (s, none)
  else
    ({ entries := s.entries.modify s.next fun entry => { entry with pos := pos }
       size := if s.size < s.entries.length then s.size + 1 else s.size
       next := (s.next + 1) % s.entries.length
       lastPos := pos }, some s.next)

/-- The loop of `bestIndex` over the entries from index `i`. -/
def bestIndexFrom (targetPos : Int) :
    Nat → List (CheckpointEntry R) → Option (Nat × Int) → Option (Nat × Int)
  | _, [], best => best
  | i, entry :: rest, best =>
    bestIndexFrom targetPos (i + 1) rest
      (if entry.pos < 0 ∨ targetPos ≤ entry.pos then best
       else if (best.map Prod.snd).getD (-1) < entry.pos then some (i, entry.pos)
       else best)

/-- The entry with the highest position below `targetPos`, and that position. -/
def bestIndex (s : SlotCheckpointStore R) (targetPos : Int) : Option (Nat × Int) :=
  bestIndexFrom targetPos 0 s.entries none

/-- The loop for the lowest live position, with `oldest` the index and position so far. -/
def oldestFrom : Nat → List (CheckpointEntry R) → Nat × Int → Nat
  | _, [], oldest => oldest.1
  | i, entry :: rest, oldest =>
    oldestFrom (i + 1) rest
      (if 0 ≤ entry.pos ∧ entry.pos < oldest.2 then (i, entry.pos) else oldest)

/-- Counters recomputed from the entries: the next one is the first dead entry,
or in a full ring the oldest. -/
def recount (entries : List (CheckpointEntry R)) (lastPos : Int) : SlotCheckpointStore R :=
  let size := entries.countP fun entry => 0 ≤ entry.pos
  if size = 0 then ⟨entries, 0, 0, -1⟩
  else
    ⟨entries, size,
      (entries.findIdx? fun entry => entry.pos < 0).getD (oldestFrom 0 entries (0, maxInt32)),
      lastPos⟩

def pruneAfter (s : SlotCheckpointStore R) (pos : Int) : SlotCheckpointStore R :=
  recount (s.entries.map fun entry => if pos < entry.pos then { entry with pos := -1 } else entry)
    pos

/-- What `shiftRange` does to the position of an entry. -/
def shiftPos (beginIndex endIndex pos : Int) : Int :=
  if 0 ≤ pos then
    if beginIndex ≤ pos ∧ pos < endIndex then -1
    else if endIndex ≤ pos then i32 (pos + i32 (beginIndex - endIndex))
    else pos
  else pos

def shiftRange (s : SlotCheckpointStore R) (beginIndex endIndex : Int) : SlotCheckpointStore R :=
  let entries := s.entries.map fun entry =>
    { entry with pos := shiftPos beginIndex endIndex entry.pos }
  recount entries (entries.foldl (fun m entry => max m entry.pos) (-1))

end SlotCheckpointStore

end Prismalama.Kvcache
