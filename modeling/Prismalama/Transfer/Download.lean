import Prismalama.Ollama.DiskCache
import Prismalama.Lib.TSys

/-!
# Downloads of many blobs (`x/transfer/download.go`)

`Download` runs a goroutine for every listed blob that is not there in its size. Each
attempt writes what it receives to a `.tmp` file, or to the end of one that was left,
hashes the same bytes, and renames the file when length and hash are the blob's. Neither
the results of the writes nor what other goroutines do to the file are looked at.
-/

namespace Prismalama.Transfer

open Prismalama.Lib Prismalama.Ollama

structure Blob where
  digest : GoString
  size : Int
  deriving DecidableEq

def resumeThreshold : Int := 2 ^ 26

def maxRetries : Nat := 6

/-- `digestToPath` -/
def digestToPath (digest : GoString) : GoString :=
  if 7 < digest.length ∧ digest[6]? = some 0x3A then digest.take 6 ++ 0x2D :: digest.drop 7
  else digest

/-- What the errors are told apart by. -/
inductive Err
  | canceled
  | stalled
  | slow
  | other
  deriving DecidableEq

/-- How far an attempt is. The hash is that of `stale`, what was read of a file that was
then given up, and of `hashed`. `short` is whether a write was not complete, which the code
does not know. -/
inductive Phase
  | waiting
  | resolved
  | requesting (existing : Nat)
  | saving (existing : Nat)
  | copying (ino off : Nat) (stale hashed : File) (short : Bool)
  | copied (ino : Nat) (stale hashed : File) (short : Bool)
  | verified (ino : Nat) (hashed : File)
  | failed (e : Err)
  | returned (ok : Bool)
  deriving DecidableEq

structure Goroutine where
  blob : Blob
  attempt : Nat
  slowRetries : Nat
  phase : Phase

def Goroutine.path (g : Goroutine) : GoString := digestToPath g.blob.digest

/-- The files: `tmp` and `dest` are the numbers of those at the paths. -/
structure Disk where
  tmp : GoString → Option Nat
  dest : GoString → Option Nat
  data : Nat → File
  next : Nat

namespace Disk

def tmpFile (k : Disk) (p : GoString) : Option File := (k.tmp p).map k.data

def destFile (k : Disk) (p : GoString) : Option File := (k.dest p).map k.data

def setData (k : Disk) (ino : Nat) (f : File) : Disk :=
  { k with data := Function.update k.data ino f }

/-- `os.Remove`, of a `.tmp` file. -/
def removeTmp (k : Disk) (p : GoString) : Disk :=
  { k with tmp := Function.update k.tmp p none }

/-- `os.Create`, of a `.tmp` file. -/
def create (k : Disk) (p : GoString) : Disk × Nat :=
  match k.tmp p with
  | some ino => (k.setData ino [], ino)
  | none =>
    ({ k.setData k.next [] with tmp := Function.update k.tmp p (some k.next), next := k.next + 1 },
      k.next)

/-- `os.Rename`, of the `.tmp` file that is there. -/
def rename (k : Disk) (p : GoString) (ino : Nat) : Disk :=
  { k.removeTmp p with dest := Function.update k.dest p (some ino) }

end Disk

/-- `skipped` are the blobs that were there, and `made` the blobs whose files `Download`
has renamed. -/
structure State where
  disk : Disk
  gs : List Goroutine
  skipped : List Blob
  made : GoString → Option Blob

/-- The blob's file is there in its size. -/
def Disk.present (k : Disk) (b : Blob) : Bool :=
  (k.destFile (digestToPath b.digest)).any fun f => decide ((f.length : Int) = b.size)

/-- The start of `download`. -/
def start (k : Disk) (blobs : List Blob) : State where
  disk := k
  gs := (blobs.filter fun b => !k.present b).map fun b => ⟨b, 0, 0, .waiting⟩
  skipped := blobs.filter k.present
  made := fun _ => none

inductive Reply
  | full
  | partialContent
  | error (e : Err)
  deriving DecidableEq

inductive Label
  | resolve (i : Nat) (r : Option Err)
  | quit (i : Nat)
  | stat (i : Nat)
  | respond (i : Nat) (r : Reply)
  | save (i : Nat) (opened : Bool) (readable : Nat) (created : Bool)
  | read (i : Nat) (p : File) (written : Nat)
  | readError (i : Nat) (e : Err)
  | eof (i : Nat)
  | check (i : Nat)
  | rename (i : Nat) (ok : Bool)
  | retry (i : Nat)
  deriving DecidableEq

def State.setPhase (s : State) (i : Nat) (g : Goroutine) (ph : Phase) : State :=
  { s with gs := s.gs.set i { g with phase := ph } }

variable (h : File → List UInt8)

/-- The digest of a text, as `%x` prints it. -/
def sum (f : File) : GoString := lit "sha256:" ++ hex (h f)

/-- The look at the `.tmp` file before the request. `Stat` and `Remove` are one step here: what
other goroutines do to the file comes before or behind both. -/
def State.stat (s : State) (i : Nat) (g : Goroutine) : State :=
  if g.blob.size < resumeThreshold then s.setPhase i g (.requesting 0)
  else
    match s.disk.tmpFile g.path with
    | none => s.setPhase i g (.requesting 0)
    | some f =>
      if (f.length : Int) < g.blob.size then s.setPhase i g (.requesting f.length)
      else if g.blob.size < f.length then
        { s.setPhase i g (.requesting 0) with disk := s.disk.removeTmp g.path }
      else s.setPhase i g (.requesting 0)

/-- A `.tmp` file that is created. -/
def State.fresh (s : State) (i : Nat) (g : Goroutine) (stale : File) (created : Bool) : State :=
  if created = true then
    { s with
      disk := (s.disk.create g.path).1
      gs := s.gs.set i { g with phase := .copying (s.disk.create g.path).2 0 stale [] false } }
  else s.setPhase i g (.failed .other)

/-- The start of `save`: what is left is hashed and written on, or the file is created. When
not all of it can be read, the hash goes on with what was read. `OpenFile`, `CopyN`, `Remove` and
`Create` are one step here too. -/
def State.save (s : State) (i : Nat) (g : Goroutine) (existing : Nat) (opened : Bool)
    (readable : Nat) (created : Bool) : State :=
  match s.disk.tmp g.path with
  | some ino =>
    if existing = 0 ∨ opened = false then s.fresh i g [] created
    else
      let got := ((s.disk.data ino).take existing).take readable
      if got.length = existing then s.setPhase i g (.copying ino existing [] got false)
      else { s with disk := s.disk.removeTmp g.path }.fresh i g got created
  | none => s.fresh i g [] created

/-- The retries of `downloader.download`, behind an error. -/
def Goroutine.retry (g : Goroutine) (e : Err) : Goroutine :=
  let slowRetries := if e = .slow then g.slowRetries + 1 else g.slowRetries
  let attempt :=
    match e with
    | .canceled => g.attempt
    | .stalled => g.attempt
    | .slow => if 3 ≤ slowRetries then g.attempt + 1 else g.attempt
    | .other => g.attempt + 1
  { g with
    attempt := attempt
    slowRetries := slowRetries
    phase := if e = .canceled ∨ maxRetries ≤ attempt then .returned false else .waiting }

/-- One operation of a goroutine. -/
def Goroutine.step (s : State) (i : Nat) (g : Goroutine) : Label → Option State
  | .resolve _ r =>
    if g.phase = .waiting then some (s.setPhase i g (r.elim .resolved .failed)) else none
  | .quit _ => if g.phase = .waiting then some (s.setPhase i g (.returned false)) else none
  | .stat _ => if g.phase = .resolved then some (s.stat i g) else none
  | .respond _ r =>
    match g.phase, r with
    | .requesting _, .full => some (s.setPhase i g (.saving 0))
    | .requesting existing, .partialContent => some (s.setPhase i g (.saving existing))
    | .requesting _, .error e => some (s.setPhase i g (.failed e))
    | _, _ => none
  | .save _ opened readable created =>
    match g.phase with
    | .saving existing => some (s.save i g existing opened readable created)
    | _ => none
  | .read _ p written =>
    match g.phase with
    | .copying ino off stale hashed short => some
        { s with
          disk := s.disk.setData ino ((s.disk.data ino).write off (p.take written))
          gs := s.gs.set i { g with
            phase := .copying ino (off + (p.take written).length) stale (hashed ++ p)
              (short || decide (written < p.length)) } }
    | _ => none
  | .readError _ e =>
    match g.phase with
    | .copying _ _ _ _ _ => some (s.setPhase i g (.failed e))
    | _ => none
  | .eof _ =>
    match g.phase with
    | .copying ino _ stale hashed short => some (s.setPhase i g (.copied ino stale hashed short))
    | _ => none
  | .check _ =>
    match g.phase with
    | .copied ino stale hashed _ =>
      if sum h (stale ++ hashed) = g.blob.digest ∧ (hashed.length : Int) = g.blob.size then
        some (s.setPhase i g (.verified ino hashed))
      else some { s.setPhase i g (.failed .other) with disk := s.disk.removeTmp g.path }
    | _ => none
  | .rename _ ok =>
    match g.phase with
    | .verified _ _ =>
      match s.disk.tmp g.path with
      | none => some (s.setPhase i g (.failed .other))
      | some ino =>
        if ok = true then
          some { s.setPhase i g (.returned true) with
            disk := s.disk.rename g.path ino
            made := Function.update s.made g.path (some g.blob) }
        else some (s.setPhase i g (.failed .other))
    | _ => none
  | .retry _ =>
    match g.phase with
    | .failed e => some
        { s with
          disk := if g.blob.size < resumeThreshold then s.disk.removeTmp g.path else s.disk
          gs := s.gs.set i (g.retry e) }
    | _ => none

/-- The goroutine a step is of. -/
def Label.index : Label → Nat
  | .resolve i _ | .quit i | .stat i | .respond i _ | .save i _ _ _ | .read i _ _
  | .readError i _ | .eof i | .check i | .rename i _ | .retry i => i

def step (s : State) (a : Label) : Option State :=
  s.gs[a.index]?.bind fun g => g.step h s a.index a

/-- The error of `Download` is nil: every goroutine has returned nil. -/
def State.succeeds (s : State) : Prop := ∀ g ∈ s.gs, g.phase = .returned true

/-! ## The runs -/

/-- Every path has a file of its own. -/
structure Disk.Wf (k : Disk) : Prop where
  tmp_lt : ∀ p ino, k.tmp p = some ino → ino < k.next
  dest_lt : ∀ p ino, k.dest p = some ino → ino < k.next
  tmp_inj : ∀ p q ino, k.tmp p = some ino → k.tmp q = some ino → p = q
  tmp_dest : ∀ p q ino, k.tmp p = some ino → k.dest q ≠ some ino

/-- What a goroutine has hashed. -/
def Goroutine.received (g : Goroutine) : Option File :=
  match g.phase with
  | .copied _ stale hashed _ => some (stale ++ hashed)
  | _ => none

/-- A text that passes for a blob is the one of its digest: no two texts at hand have one
hash. A write puts at most all of its bytes. -/
def Enabled (content : GoString → File) (s : State) (a : Label) : Prop :=
  ∀ g ∈ s.gs[a.index]?,
    match a with
    | .check _ => ∀ f ∈ g.received, sum h f = g.blob.digest → f = content g.blob.digest
    | .read _ p written => p ≠ [] ∧ written ≤ p.length
    | _ => True

instance (content : GoString → File) (s : State) (a : Label) :
    Decidable (Enabled h content s a) := by
  unfold Enabled
  cases a <;> infer_instance

/-- The files that are there in their blobs' sizes are intact. -/
def Disk.Intact (content : GoString → File) (k : Disk) (blobs : List Blob) : Prop :=
  ∀ b ∈ blobs, ∀ f ∈ k.destFile (digestToPath b.digest), (f.length : Int) = b.size →
    sum h f = b.digest ∧ f = content b.digest

/-- `Download` of the blobs, from the files. -/
def sys (content : GoString → File) (k : Disk) (blobs : List Blob) : TSys State Label where
  init s := s = start k blobs
  step s a s' := Enabled h content s a ∧ step h s a = some s'

end Prismalama.Transfer
