import Prismalama.Ollama.DiskCache
import Prismalama.Lib.GoMap
import Prismalama.Lib.TSys

/-!
# Resumable downloads of one blob (`server/download.go`)

A blob is downloaded in parts into the file `-partial`. The progress of part `N` is in a
file `-partial-N` of its own: `Prepare` takes the parts from these files, and `run` writes
them again after every chunk and removes them one by one before it renames the data. An
attempt may be stopped between any two of its operations on the files.
-/

namespace Prismalama.Server.BlobDownload

open Prismalama.Lib Prismalama.Ollama

def maxRetries : Nat := 6

def numDownloadParts : Nat := 16

def minDownloadPartSize : Nat := 100 * 10 ^ 6

def maxDownloadPartSize : Nat := 1000 * 10 ^ 6

/-- `blobDownloadPart`, as its file has it. -/
structure Part where
  n : Nat
  offset : Nat
  size : Nat
  completed : Nat
  deriving DecidableEq

def Part.startsAt (p : Part) : Nat := p.offset + p.completed

def Part.stopsAt (p : Part) : Nat := p.offset + p.size

/-- The files of the blob. A part file without a value is empty or not wholly written. -/
structure Disk where
  parts : GoMap Nat (Option Part)
  data : Option File
  final : Option File

namespace Disk

def file (k : Disk) : File := k.data.getD []

def setPart (k : Disk) (n : Nat) (v : Option Part) : Disk :=
  { k with parts := AList.insert n v k.parts }

def removePart (k : Disk) (n : Nat) : Disk := { k with parts := AList.erase n k.parts }

def setFile (k : Disk) (f : File) : Disk := { k with data := some f }

/-- `filepath.Glob`: the part files in the order of their names. -/
def glob (k : Disk) : List Nat :=
  k.parts.keys.insertionSort fun a b => ¬Nat.toDigits 10 b < Nat.toDigits 10 a

/-- `readPart`, of all part files: none when one does not decode. -/
def readParts (k : Disk) : Option (List Part) :=
  k.glob.mapM fun n => (AList.lookup n k.parts).join

end Disk

def sumSizes (ps : List Part) : Nat := (ps.map (·.size)).sum

/-- The size of the parts, but for the last. -/
def partSize (total : Nat) : Nat :=
  let size := total / numDownloadParts
  if size < minDownloadPartSize then minDownloadPartSize
  else if maxDownloadPartSize < size then maxDownloadPartSize
  else size

/-- `newPart`, in the loop of `Prepare` behind the parts. -/
def newPart (total : Nat) (ps : List Part) : Part where
  n := ps.length
  offset := sumSizes ps
  size :=
    if total < sumSizes ps + partSize total then total - sumSizes ps else partSize total
  completed := 0

/-- How an error goes on: it ends the goroutine, costs no attempt, or one. -/
inductive Failure
  | final
  | stalled
  | other
  deriving DecidableEq

/-- How far a part is. `opening` and `rewriting` are in `writePart`, with the error of the
chunk. -/
inductive ChunkPhase
  | ready
  | copying (received : File)
  | opening (err : Option Failure)
  | rewriting (err : Option Failure)
  | returned (ok : Bool)
  deriving DecidableEq

structure Goroutine where
  part : Part
  tries : Nat
  phase : ChunkPhase
  deriving DecidableEq

/-- The end of `io.CopyN`: all bytes, an error after which the part can go on where it is,
or another error. -/
inductive Finish
  | full
  | resumable (f : Failure)
  | error (f : Failure)
  deriving DecidableEq

inductive ChunkLabel
  | request (r : Option Failure)
  | read (p : File)
  | finish (r : Finish)
  | create (r : Option Failure)
  | write (r : Option Failure)
  deriving DecidableEq

namespace Goroutine

def start (p : Part) : Goroutine :=
  ⟨p, 0, if p.completed = p.size then .returned true else .ready⟩

/-- The loop of `run`, behind an error. -/
def fail (g : Goroutine) : Failure → Goroutine
  | .final => { g with phase := .returned false }
  | .stalled => { g with phase := .ready }
  | .other =>
    if g.tries + 1 < maxRetries then { g with tries := g.tries + 1, phase := .ready }
    else { g with phase := .returned false }

def fails (g : Goroutine) (r : Option Failure) (g' : Goroutine) : Goroutine :=
  r.elim g' g.fail

/-- One operation of `downloadChunk`. -/
def step (g : Goroutine) (k : Disk) : ChunkLabel → Option (Disk × Goroutine)
  | .request r =>
    if g.phase = .ready then some (k, g.fails r { g with phase := .copying [] }) else none
  | .read p =>
    match g.phase with
    | .copying received =>
      if p ≠ [] ∧ g.part.completed + received.length + p.length ≤ g.part.size then
        some (k.setFile (k.file.write (g.part.startsAt + received.length) p),
          { g with phase := .copying (received ++ p) })
      else none
    | _ => none
  | .finish r =>
    match g.phase with
    | .copying received =>
      let part := { g.part with completed := g.part.completed + received.length }
      match r with
      | .full =>
        if received.length = g.part.size - g.part.completed then
          some (k, { g with part := part, phase := .opening none })
        else none
      | .resumable f => some (k, { g with part := part, phase := .opening (some f) })
      | .error f => some (k, g.fail f)
    | _ => none
  | .create r =>
    match g.phase with
    | .opening err => some
        (if r = none then k.setPart g.part.n none else k,
          g.fails r { g with phase := .rewriting err })
    | _ => none
  | .write r =>
    match g.phase with
    | .rewriting err => some
        (if r = none then k.setPart g.part.n (some g.part) else k,
          g.fails r (g.fails err { g with phase := .returned true }))
    | _ => none

end Goroutine

/-- How far the attempt is. `stopped` is an attempt that has ended with an error or with its
process, and `finished` one whose `run` has returned nil. -/
inductive Phase
  | stopped
  | preparing
  | heading
  | creating (parts : List Part) (total : Nat) (opened : Bool)
  | prepared (parts : List Part) (total : Nat)
  | opened (parts : List Part) (total : Nat)
  | resolving (parts : List Part)
  | running (gs : List Goroutine)
  | cleaning (n i : Nat)
  | finished
  deriving DecidableEq

/-- `clean` is whether the attempt has met no error. -/
structure State where
  disk : Disk
  phase : Phase
  clean : Bool

inductive Label
  | start
  | stop
  | glob
  | head (length : Nat)
  | create
  | write
  | open
  | truncate (ok : Bool)
  | resolve
  | chunk (i : Nat) (a : ChunkLabel)
  | wait
  | remove
  | rename
  deriving DecidableEq

def ChunkLabel.isError : ChunkLabel → Bool
  | .request r | .create r | .write r => r.isSome
  | .read _ => false
  | .finish r => decide (r ≠ .full)

def Label.isError : Label → Bool
  | .stop => true
  | .truncate ok => !ok
  | .chunk _ a => a.isError
  | _ => false

/-- The end of the loop of `Prepare`, or its next part. -/
def creatingOrPrepared (ps : List Part) (total : Nat) : Phase :=
  if sumSizes ps < total then .creating ps total false else .prepared ps total

/-- No attempt is going on. -/
def Phase.idle : Phase → Bool
  | .stopped => true
  | .finished => true
  | _ => false

/-- What an operation does to the files and how far the attempt is then. -/
def next (k : Disk) (ph : Phase) : Label → Option (Disk × Phase)
  | .start => if ph.idle then some (k, .preparing) else none
  | .stop => if ph.idle then none else some (k, .stopped)
  | .glob =>
    if ph = .preparing then
      match k.readParts with
      | none => some (k, .stopped)
      | some [] => some (k, .heading)
      | some ps => some (k, .prepared ps (sumSizes ps))
    else none
  | .head length => if ph = .heading then some (k, creatingOrPrepared [] length) else none
  | .create =>
    match ph with
    | .creating ps total false =>
      some (k.setPart (newPart total ps).n none, .creating ps total true)
    | _ => none
  | .write =>
    match ph with
    | .creating ps total true =>
      some (k.setPart (newPart total ps).n (some (newPart total ps)),
        creatingOrPrepared (ps ++ [newPart total ps]) total)
    | _ => none
  | .open =>
    match ph with
    | .prepared ps total => some (k.setFile k.file, .opened ps total)
    | _ => none
  | .truncate ok =>
    match ph with
    | .opened ps total =>
      some (if ok = true then
        k.setFile (k.file.take total ++ List.replicate (total - k.file.length) 0) else k,
        .resolving ps)
    | _ => none
  | .resolve =>
    match ph with
    | .resolving ps => some (k, .running (ps.map Goroutine.start))
    | _ => none
  | .chunk i a =>
    match ph with
    | .running gs => gs[i]?.bind fun g => (g.step k a).map fun r => (r.1, .running (gs.set i r.2))
    | _ => none
  | .wait =>
    match ph with
    | .running gs =>
      if ∀ g ∈ gs, g.phase = .returned true then some (k, .cleaning gs.length 0)
      else if ∀ g ∈ gs, g.phase = .returned true ∨ g.phase = .returned false then
        some (k, .stopped)
      else none
    | _ => none
  | .remove =>
    match ph with
    | .cleaning n i =>
      if i < n then
        match AList.lookup i k.parts with
        | none => some (k, .stopped)
        | some _ => some (k.removePart i, .cleaning n (i + 1))
      else none
    | _ => none
  | .rename =>
    match ph with
    | .cleaning n i =>
      if i < n then none else some ({ k with data := none, final := k.data }, .finished)
    | _ => none

def step (s : State) (a : Label) : Option State :=
  (next s.disk s.phase a).map fun r =>
    ⟨r.1, r.2, if a = .start then true else s.clean && !a.isError⟩

/-- Any number of attempts, from no files. -/
def sys : TSys State Label where
  init s := s = ⟨⟨∅, none, none⟩, .stopped, false⟩
  step s a s' := step s a = some s'

end Prismalama.Server.BlobDownload
