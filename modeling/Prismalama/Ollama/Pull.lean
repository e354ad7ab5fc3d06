import Prismalama.Lib.TSys
import Prismalama.Ollama.DiskCache

/-!
# Pulling a model (`server/internal/client/ollama/registry.go`)

`Pull` goes through the layers of a manifest. A layer whose file has the right
size is skipped; otherwise its chunks are, where a record of them is in the
cache, and the others are downloaded by goroutines that write them at their
offsets. What was received is counted in bytes.

Between two steps of the loop the goroutines may take any steps, and each of
them may fail at any point.
-/

namespace Prismalama.Ollama

open Prismalama.Lib

structure Chunk where
  start : Int
  /-- `End`, the last byte. -/
  stop : Int
deriving DecidableEq

/-- `Size` -/
def Chunk.size (c : Chunk) : Int := c.stop - c.start + 1

structure Chunksum (D : Type*) where
  chunk : Chunk
  digest : D
deriving DecidableEq

structure Layer (D : Type*) where
  digest : D
  size : Int
deriving DecidableEq

structure Manifest (D : Type*) where
  name : GoString
  data : List UInt8
  layers : List (Layer D)
  config : Option (Layer D)
deriving DecidableEq

/-- The registry client and what the server answers it. -/
structure Registry (D : Type*) where
  /-- `blob.DigestFromBytes` -/
  sum : File → D
  /-- `Digest.String` -/
  string : D → GoString
  /-- `Digest.IsValid` -/
  isValid : D → Bool
  maxChunkingThreshold : Int
  /-- The bytes with this digest. -/
  content : D → File
  /-- What the endpoint for chunksums returns for a layer. -/
  stream : D → List (Chunksum D)

namespace Registry

variable {D : Type*}

/-- `chunksums` -/
def chunksums (R : Registry D) (l : Layer D) : List (Chunksum D) :=
  if l.size < R.maxChunkingThreshold then [⟨⟨0, l.size - 1⟩, l.digest⟩] else R.stream l.digest

/-- The text whose digest is the name of a chunk's record. -/
def cacheKey (R : Registry D) (l : Layer D) (cs : Chunksum D) : GoString :=
  lit "v1 pull chunksum " ++ R.string l.digest ++ lit " " ++ R.string cs.digest ++ lit " " ++
    formatInt cs.chunk.start ++ lit "-" ++ formatInt cs.chunk.stop

/-- The layers to pull, with the config. -/
def layers (R : Registry D) (m : Manifest D) : List (Layer D) :=
  m.layers ++ m.config.toList.filter fun l => R.isValid l.digest

end Registry

/-- A goroutine that downloads a chunk. -/
structure Task (D : Type*) where
  layer : Layer D
  cs : Chunksum D
  handle : DiskCache.Handle
  received : Nat

/-- Where the loop of `Pull` is. -/
inductive Stage (D : Type*)
  | next
  | opening (l : Layer D)
  | streaming (l : Layer D) (handle : DiskCache.Handle) (rest : List (Chunksum D))

/-- The layer that is being opened. -/
def Stage.opening? {D : Type*} : Stage D → Option (Layer D)
  | .opening l => some l
  | _ => none

/-- The chunk whose turn it is. -/
def Stage.chunk? {D : Type*} : Stage D → Option (Layer D × Chunksum D)
  | .streaming l _ (cs :: _) => some (l, cs)
  | _ => none

/-- A call of `Pull`. -/
structure Pull (D : Type*) where
  manifest : Manifest D
  todo : List (Layer D)
  stage : Stage D
  tasks : List (Task D)
  completed : Int
  expected : Int
  /-- The group has an error. -/
  failed : Bool

/-- Nothing of the call is left to do but to look at what came of it. -/
def Pull.idle {D : Type*} (p : Pull D) : Bool :=
  match p.stage with
  | .next => p.todo.isEmpty && p.tasks.isEmpty
  | _ => false

section Unlink

variable {D : Type*} [DecidableEq D]

def Stage.unlink (c : DiskCache D) : Stage D → Stage D
  | .streaming l handle rest => .streaming l (handle.unlink c l.digest) rest
  | stage => stage

/-- A put that fails may have removed a file that is open. -/
def Pull.putFails (c : DiskCache D) (p : Pull D) : Pull D :=
  { p with
    stage := p.stage.unlink c
    tasks := p.tasks.map fun t => { t with handle := t.handle.unlink c t.layer.digest }
    failed := true }

end Unlink

structure State (D : Type*) where
  cache : DiskCache D
  pull : Option (Pull D)
  /-- The manifest of the last call, if it returned nil. -/
  returned : Option (Manifest D)

inductive Label (D : Type*)
  | pull (m : Manifest D)
  | get
  | chunked (opened : Bool)
  | chunksum
  /-- The stream ends, or is interrupted. -/
  | endStream
  | receive (i n : Nat)
  | finish (i : Nat) (o : Outcome)
  | fail (i n : Nat)
  | wait (o₁ o₂ : Outcome)
  | delete (d : D)

namespace Registry

variable {D : Type*} [DecidableEq D] (R : Registry D)

/-- `Pull`, from `Resolve` to the loop. -/
def start (s : State D) (m : Manifest D) : State D :=
  if m.layers = [] then { s with returned := none }
  else
    { s with
      pull := some {
        manifest := m
        todo := R.layers m
        stage := .next
        tasks := []
        completed := 0
        expected := ((R.layers m).map Layer.size).sum
        failed := false }
      returned := none }

/-- The bytes of a chunk, `n` of them from byte `received` on. -/
def bytes (t : Task D) (n : Nat) : List UInt8 :=
  ((R.content t.layer.digest).drop (t.cs.chunk.start.toNat + t.received)).take n

/-- `checkWriter` compares the digest before it writes the last byte. -/
def passes (t : Task D) (n : Nat) : Prop :=
  (t.received + n : Nat) = t.cs.chunk.size →
    R.sum (R.bytes { t with received := 0 } (t.received + n)) = t.cs.digest

instance (t : Task D) (n : Nat) : Decidable (R.passes t n) :=
  inferInstanceAs (Decidable (_ → _))

/-- A step of the loop or of a goroutine. -/
def stepPull (c : DiskCache D) (p : Pull D) : Label D → Option (DiskCache D × Pull D)
  | .get =>
    match p.stage, p.todo with
    | .next, l :: todo =>
      if c.get l.digest = some l.size then
        some (c, { p with todo := todo, completed := p.completed + l.size })
      else some (c, { p with todo := todo, stage := .opening l })
    | _, _ => none
  | .chunked opened =>
    match p.stage with
    | .opening l =>
      match c.chunked l.digest l.size opened with
      -- the error is dropped
      | none => some (c, { p with stage := .next })
      | some (c', handle) => some (c', { p with stage := .streaming l handle (R.chunksums l) })
    | _ => none
  | .chunksum =>
    match p.stage with
    | .streaming l handle (cs :: rest) =>
      if (c.get (R.sum (R.cacheKey l cs))).isSome = true then
        some (c, { p with
          stage := .streaming l handle rest
          completed := p.completed + cs.chunk.size })
      else
        some (c, { p with
          stage := .streaming l handle rest
          tasks := p.tasks ++ [⟨l, cs, handle, 0⟩] })
    | _ => none
  | .endStream =>
    match p.stage with
    | .streaming _ _ _ => some (c, { p with stage := .next })
    | _ => none
  | .receive i n =>
    match p.tasks[i]? with
    | none => none
    | some t =>
      if t.handle ≠ .preValidated ∧ 0 < n ∧ (t.received + n : Nat) ≤ t.cs.chunk.size ∧
          R.passes t n then
        some (
          if t.handle = .file then
            c.write t.layer.digest (t.cs.chunk.start.toNat + t.received) (R.bytes t n)
          else c,
          { p with
            completed := p.completed + n
            tasks := p.tasks.set i { t with received := t.received + n } })
      else none
  | .finish i o =>
    match p.tasks[i]? with
    | none => none
    | some t =>
      if t.handle = .preValidated ∨ (t.received : Int) = t.cs.chunk.size then
        let key := R.cacheKey t.layer t.cs
        let r := c.putBytes R.sum (R.sum key) key o
        let p' : Pull D := { p with tasks := p.tasks.eraseIdx i }
        some (r.1, if r.2 = true then p' else p'.putFails r.1)
      else none
  | .fail i n =>
    match p.tasks[i]? with
    | none => none
    | some t =>
      if (t.received + n : Nat) ≤ t.cs.chunk.size ∧ (t.handle = .preValidated → n = 0) then
        -- what was read last may not have been written
        some (c, { p with
          tasks := p.tasks.eraseIdx i
          completed := p.completed + n
          failed := true })
      else none
  | _ => none

/-- The end of `Pull`, when no goroutine is left. -/
def commit (c : DiskCache D) (p : Pull D) (o₁ o₂ : Outcome) : State D :=
  if p.failed = true ∨ p.completed ≠ p.expected then ⟨c, none, none⟩
  else
    let md := R.sum p.manifest.data
    let r₁ := c.putBytes R.sum md p.manifest.data o₁
    if r₁.2 = false then ⟨r₁.1, none, none⟩
    else
      let r₂ := r₁.1.link R.sum p.manifest.name md o₂
      if r₂.2 = false then ⟨r₂.1, none, none⟩ else ⟨r₂.1, none, some p.manifest⟩

def step (s : State D) (a : Label D) : Option (State D) :=
  match s.pull, a with
  | none, .pull m => some (R.start s m)
  | none, .delete d =>
    some { s with
      cache := { s.cache with blobs := AList.erase d s.cache.blobs }
      returned := none }
  | some p, .wait o₁ o₂ => if p.idle = true then some (R.commit s.cache p o₁ o₂) else none
  | some p, a => (R.stepPull s.cache p a).map fun r => { s with cache := r.1, pull := some r.2 }
  | none, _ => none

/-! ## What the server promises -/

/-- The chunks are contiguous and reach from byte `a` up to byte `size`. -/
def Covers : Int → List (Chunksum D) → Int → Prop
  | a, [], size => a = size
  | a, cs :: rest, size =>
    cs.chunk.start = a ∧ a ≤ cs.chunk.stop + 1 ∧ Covers (cs.chunk.stop + 1) rest size

instance Covers.decidable : ∀ (a : Int) (css : List (Chunksum D)) (size : Int),
    Decidable (Covers a css size)
  | _, [], _ => inferInstanceAs (Decidable (_ = _))
  | _, _ :: rest, _ =>
    @instDecidableAnd _ _ _ (@instDecidableAnd _ _ _ (Covers.decidable _ rest _))

/-- The server has the layers of a manifest. `content` says which bytes have a
digest, so that no two of the texts at hand have the same one. -/
def Serves (m : Manifest D) : Prop :=
  R.content (R.sum m.data) = m.data ∧
    ∀ l ∈ R.layers m, R.sum (R.content l.digest) = l.digest ∧
      l.size = (R.content l.digest).length ∧ Covers 0 (R.chunksums l) l.size ∧
      ∀ cs ∈ R.chunksums l, R.content (R.sum (R.cacheKey l cs)) = R.cacheKey l cs

instance (m : Manifest D) : Decidable (R.Serves m) := inferInstanceAs (Decidable (_ ∧ _))

/-- Only manifests that the server serves are pulled. -/
def Served : Label D → Prop
  | .pull m => R.Serves m
  | _ => True

instance : DecidablePred R.Served
  | .pull m => inferInstanceAs (Decidable (R.Serves m))
  | .get | .chunked _ | .chunksum | .endStream | .receive _ _ | .finish _ _ | .fail _ _
  | .wait _ _ | .delete _ => .isTrue trivial

/-- No model is linked, and no file is longer than the blob it is named for. -/
structure Fresh (s : State D) : Prop where
  blobs : ∀ d f, AList.lookup d s.cache.blobs = some f → f.length ≤ (R.content d).length
  links : s.cache.links = ∅
  pull : s.pull = none
  returned : s.returned = none

/-- A cache with the calls of `Pull` and the deletions of blobs between them. -/
def system : TSys (State D) (Label D) where
  init := R.Fresh
  step s a s' := R.Served a ∧ R.step s a = some s'

/-- What is to hold when `Pull` returns nil. -/
def Complete (c : DiskCache D) (m : Manifest D) : Prop :=
  (∀ l ∈ R.layers m, ∃ f, AList.lookup l.digest c.blobs = some f ∧
      (f.length : Int) = l.size ∧ R.sum f = l.digest) ∧
    ∃ f, c.manifest m.name = some f ∧ R.sum f = R.sum m.data

end Registry

end Prismalama.Ollama
