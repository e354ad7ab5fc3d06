import Prismalama.Ollama.DiskCache
import Prismalama.Lib.TSys

/-!
# Models on disk (`server/images.go`, `manifest/`)

A model is a manifest file, which lists the digests of its layers; the layers are blob
files, which models share. `PullModel` downloads the layers that are missing, verifies
them, writes the manifest and collects the layers the old one had for itself; removing
a model, replacing one and the start of the server collect layers as well. The calls
come one at a time; a download that was cancelled may still end behind its call.
-/

namespace Prismalama.Server.Images

open Prismalama.Lib Prismalama.Ollama

/-! ## Names and digests -/

structure ModelName where
  host : GoString
  namespace_ : GoString
  model : GoString
  tag : GoString
  deriving DecidableEq

inductive PartKind
  | kindHost
  | kindNamespace
  | kindModel
  | kindTag
  deriving DecidableEq

def isAlphanumericOrUnderscore (c : UInt8) : Bool :=
  decide (0x41 ≤ c ∧ c ≤ 0x5A) || decide (0x61 ≤ c ∧ c ≤ 0x7A) || decide (0x30 ≤ c ∧ c ≤ 0x39) ||
    c == 0x5F

def isValidLen (kind : PartKind) (s : GoString) : Bool :=
  decide (1 ≤ s.length) && decide (s.length ≤ if kind = .kindHost then 350 else 80)

/-- The characters behind the first one. -/
def isValidByte (kind : PartKind) (c : UInt8) : Bool :=
  c == 0x5F || c == 0x2D || (c == 0x2E && decide (kind ≠ .kindNamespace)) ||
    (c == 0x3A && decide (kind = .kindHost)) || isAlphanumericOrUnderscore c

/-- `isValidPart`. The first byte of a rune that has several is not valid. -/
def isValidPart (kind : PartKind) (s : GoString) : Bool :=
  isValidLen kind s &&
    match s with
    | [] => true
    | c :: rest => isAlphanumericOrUnderscore c && rest.all (isValidByte kind)

/-- `IsFullyQualified`. The path of such a name has the parts for its directories. -/
def ModelName.isFullyQualified (n : ModelName) : Bool :=
  isValidPart .kindHost n.host && isValidPart .kindNamespace n.namespace_ &&
    isValidPart .kindModel n.model && isValidPart .kindTag n.tag

def isHex (c : UInt8) : Bool :=
  decide (0x30 ≤ c ∧ c ≤ 0x39) || decide (0x61 ≤ c ∧ c ≤ 0x66) || decide (0x41 ≤ c ∧ c ≤ 0x46)

/-- The pattern `^sha256[:-][0-9a-fA-F]{64}$`. -/
def isDigest (s : GoString) : Bool :=
  s.take 6 == lit "sha256" && (s[6]? == some 0x3A || s[6]? == some 0x2D) &&
    (s.drop 7).length == 64 && (s.drop 7).all isHex

/-- A colon is replaced. -/
def dash (c : UInt8) : UInt8 := if c = 0x3A then 0x2D else c

/-- A dash is replaced. -/
def colon (c : UInt8) : UInt8 := if c = 0x2D then 0x3A else c

/-- `BlobsPath`: the name of the file in the directory of the blobs, which is the empty
name itself. -/
def blobsPath (digest : GoString) : Option GoString :=
  if digest = [] ∨ isDigest digest = true then some (digest.map dash) else none

/-! ## Manifests -/

structure Layer where
  mediaType : GoString
  digest : GoString
  deriving DecidableEq

structure Manifest where
  config : Layer
  layers : List Layer
  deriving DecidableEq

/-- Some layer, or the configuration, has the digest. -/
def Manifest.Uses (m : Manifest) (digest : GoString) : Prop :=
  (∃ l ∈ m.layers, l.digest = digest) ∨ m.config.digest = digest

instance (m : Manifest) (digest : GoString) : Decidable (m.Uses digest) :=
  inferInstanceAs (Decidable (_ ∨ _))

/-- A file of the directory of the manifests, if it can be parsed. -/
abbrev Manifests := GoMap ModelName (Option Manifest)

/-- What `Manifests(true)` returns: those that can be parsed, under valid names. -/
def readable (ms : Manifests) : List Manifest :=
  ms.keys.filterMap fun n => if n.isFullyQualified = true then (AList.lookup n ms).join else none

/-- A raw digest is listed by some readable manifest. -/
def InUse (ms : Manifests) (digest : GoString) : Prop :=
  ∃ m ∈ readable ms, m.Uses digest

instance (ms : Manifests) (digest : GoString) : Decidable (InUse ms digest) :=
  inferInstanceAs (Decidable (∃ m ∈ readable ms, _))

/-- `ParseNamedManifest` -/
def parseNamedManifest (ms : Manifests) (n : ModelName) : Option Manifest :=
  if n.isFullyQualified = true then (AList.lookup n ms).join else none

/-! ## Removing blobs -/

abbrev Blobs := GoMap GoString File

inductive Removed
  | removed
  | notExist
  | failed
  deriving DecidableEq

/-- `os.Remove`, of a file of the directory of the blobs. `fails` are those that cannot
be removed. -/
def osRemove (fails : GoString → Bool) (blobs : Blobs) (p : GoString) : Blobs × Removed :=
  if (AList.lookup p blobs).isNone = true then (blobs, .notExist)
  else if fails p = true then (blobs, .failed)
  else (AList.erase p blobs, .removed)

/-- The second loop of `RemoveLayers`; `false` for an error. -/
def removeLoop (fails : GoString → Bool) (ms : Manifests) : List Layer → Blobs → Blobs × Bool
  | [], blobs => (blobs, true)
  | l :: rest, blobs =>
    if l.digest = [] then removeLoop fails ms rest blobs
    else if InUse ms l.digest then removeLoop fails ms rest blobs
    else
      match blobsPath l.digest with
      | none => (blobs, false)
      | some p =>
        if (osRemove fails blobs p).2 = .failed then ((osRemove fails blobs p).1, false)
        else removeLoop fails ms rest (osRemove fails blobs p).1

/-- `RemoveLayers`, where the manifests can be listed. The error of the listing, with which
nothing is removed, is not modelled. -/
def Manifest.removeLayers (fails : GoString → Bool) (ms : Manifests) (m : Manifest)
    (blobs : Blobs) : Blobs × Bool :=
  removeLoop fails ms (m.layers ++ [m.config]) blobs

/-- `Layer.Remove` -/
def Layer.remove (fails : GoString → Bool) (ms : Manifests) (l : Layer) (blobs : Blobs) :
    Blobs × Bool :=
  if l.digest = [] then (blobs, true)
  else if InUse ms l.digest then (blobs, true)
  else
    match blobsPath l.digest with
    | none => (blobs, false)
    | some p => ((osRemove fails blobs p).1, decide ((osRemove fails blobs p).2 = .removed))

/-- `deleteUnusedLayers`, of the keys of the map in some order, where the manifests can be listed. -/
def deleteUnusedLayers (fails : GoString → Bool) (ms : Manifests) (deleteMap : List GoString)
    (blobs : Blobs) : Blobs :=
  (deleteMap.filter fun k => decide (¬InUse ms k)).foldl
    (fun blobs k => (blobsPath k).elim blobs fun p => (osRemove fails blobs p).1) blobs

/-- The digest that `PruneLayers` makes of a file name. -/
def nameDigest (name : GoString) : GoString := name.map colon

/-- The candidates of `PruneLayers`. `old` are the files that are past the grace period. -/
def pruneCandidates (old : GoString → Bool) (blobs : Blobs) : List GoString :=
  (blobs.keys.filter fun p => old p && (blobsPath (nameDigest p)).isSome).map nameDigest

/-- `PruneLayers`. Files with names that are no digests are removed at once. -/
def pruneLayers (fails old : GoString → Bool) (ms : Manifests) (blobs : Blobs) : Blobs :=
  deleteUnusedLayers fails ms (pruneCandidates old blobs)
    ((blobs.keys.filter fun p => old p && (blobsPath (nameDigest p)).isNone).foldl
      (fun blobs p => (osRemove fails blobs p).1) blobs)

/-! ## Pulling -/

/-- What a call is at: the layers to download or to verify, or the faster transfer of a
model of tensors. -/
inductive Stage
  | downloading (todo : List Layer)
  | verifying (todo : List Layer)
  | transferring
  deriving DecidableEq

/-- A call of `PullModel` that has the new manifest. -/
structure Call where
  name : ModelName
  mf : Manifest
  deleteMap : List GoString
  skipVerify : GoMap GoString Bool
  stage : Stage

/-- The layers of a manifest, with the configuration if it has one. -/
def Manifest.allLayers (mf : Manifest) : List Layer :=
  mf.layers ++ if mf.config.digest ≠ [] then [mf.config] else []

def Manifest.digests (mf : Manifest) : List GoString := mf.allLayers.map Layer.digest

def mediaTypeImageTensor : GoString := lit "application/vnd.ollama.image.tensor"

def hasTensorLayers (layers : List Layer) : Bool :=
  layers.any fun l => l.mediaType == mediaTypeImageTensor

/-- `running` are the keys of `blobDownloadManager`. -/
structure State where
  blobs : Blobs
  manifests : Manifests
  running : List GoString
  call : Option Call

/-- How `downloadBlob` ends for a blob that is not there. A download that is cancelled
may go on behind the call. -/
inductive Download
  | failed
  | cancelled
  | done (bytes : File)
  deriving DecidableEq

/-- How a manifest file is written. -/
inductive Write
  | ok
  | unopened
  | torn
  deriving DecidableEq

inductive Label
  | pull (n : ModelName) (reply : Option Manifest)
  | download (o : Download)
  | verify (opened : Bool) (fails : GoString → Bool)
  | transfer (files : List (GoString × File)) (ok : Bool)
  | install (w : Write) (noPrune : Bool) (fails : GoString → Bool)
  | background (digest : GoString) (bytes : Option File)
  | stop
  | delete (n : ModelName) (removed : Bool) (fails : GoString → Bool)
  | removeLayer (l : Layer) (fails : GoString → Bool)
  | copy (src dst : ModelName) (w : Write)
  | prune (old fails : GoString → Bool)

/-- Where a call goes on with layers left to download. -/
def Call.next (c : Call) (rest : List Layer) : Call :=
  { c with stage := if rest = [] then .verifying c.mf.allLayers else .downloading rest }

/-- A layer is there: found, if `hit`, or downloaded. -/
def Call.cached (c : Call) (l : Layer) (rest : List Layer) (hit : Bool) : Call :=
  { c with
    skipVerify := AList.insert l.digest hit c.skipVerify
    deleteMap := c.deleteMap.filter (· ≠ l.digest) }.next rest

/-- The state behind a call that returns. -/
def State.ended (s : State) : State := { s with call := none }

/-- A download of a digest is over. -/
def State.finished (s : State) (digest : GoString) : State :=
  { s with running := s.running.filter (· ≠ digest) }

/-- What is left to collect when the manifest is written. -/
def Call.unused (c : Call) : List GoString :=
  c.deleteMap.filter fun k => decide (k ∉ c.mf.digests ∧ k ≠ c.mf.config.digest)

variable (sum : File → List UInt8)

/-- The check of `verifyBlob`. -/
def verifies (digest : GoString) (f : File) : Bool := digest == lit "sha256:" ++ hex (sum f)

/-- `downloadBlob`, of the next layer. -/
def State.download (s : State) (c : Call) (l : Layer) (rest : List Layer) (o : Download) :
    State :=
  if l.digest = [] then s.ended
  else
    match blobsPath l.digest with
    | none => s.ended
    | some p =>
      if (AList.lookup p s.blobs).isSome = true then
        if o = .failed then s.ended else { s with call := some (c.cached l rest true) }
      else
        match o with
        | .failed => (s.finished l.digest).ended
        | .cancelled => { s with running := l.digest :: s.running, call := none }
        | .done bytes =>
          { s.finished l.digest with
            blobs := AList.insert p bytes s.blobs
            call := some (c.cached l rest false) }

/-- `verifyBlob`, of the next layer, unless it was found in the cache. -/
def State.verify (s : State) (c : Call) (l : Layer) (rest : List Layer) (opened : Bool)
    (fails : GoString → Bool) : State :=
  if AList.lookup l.digest c.skipVerify = some true then
    { s with call := some { c with stage := .verifying rest } }
  else
    match blobsPath l.digest with
    | none => s.ended
    | some p =>
      match AList.lookup p s.blobs with
      | none => s.ended
      | some f =>
        if opened = false then s.ended
        else if verifies sum l.digest f = true then
          { s with call := some { c with stage := .verifying rest } }
        else { s.ended with blobs := (osRemove fails s.blobs p).1 }

/-- The end of `PullModel`. -/
def State.install (s : State) (c : Call) (w : Write) (noPrune : Bool)
    (fails : GoString → Bool) : State :=
  if c.name.isFullyQualified = false then s.ended
  else
    match w with
    | .unopened => s.ended
    | .torn => { s.ended with manifests := AList.insert c.name none s.manifests }
    | .ok =>
      let ms := AList.insert c.name (some c.mf) s.manifests
      { s.ended with
        manifests := ms
        blobs := if noPrune = true then s.blobs else deleteUnusedLayers fails ms c.unused s.blobs }

/-- `Manifest.Remove` and `RemoveLayers` -/
def State.delete (s : State) (n : ModelName) (removed : Bool) (fails : GoString → Bool) :
    State :=
  match parseNamedManifest s.manifests n with
  | none => s
  | some m =>
    if removed = false then s
    else
      let ms := AList.erase n s.manifests
      { s with manifests := ms, blobs := (m.removeLayers fails ms s.blobs).1 }

/-- `CopyModel` -/
def State.copy (s : State) (src dst : ModelName) (w : Write) : State :=
  if dst.isFullyQualified = false ∨ src.isFullyQualified = false ∨ src = dst then s
  else
    match AList.lookup src s.manifests with
    | none => s
    | some m =>
      match w with
      | .unopened => s
      | .torn => { s with manifests := AList.insert dst none s.manifests }
      | .ok => { s with manifests := AList.insert dst m s.manifests }

/-- One step of a call, a call at once, or the end of a download in the background. -/
def step (s : State) : Label → Option State
  | .pull n reply =>
    if s.call.isSome = true then none
    else
      match reply with
      | none => some s
      | some mf =>
        let c : Call := ⟨n, mf, (parseNamedManifest s.manifests n).elim [] Manifest.digests, ∅,
          .transferring⟩
        some { s with
          call := some (if hasTensorLayers mf.allLayers = true then c else c.next mf.allLayers) }
  | .download o =>
    match s.call with
    | some c =>
      match c.stage with
      | .downloading (l :: rest) => some (s.download c l rest o)
      | _ => none
    | none => none
  | .verify opened fails =>
    match s.call with
    | some c =>
      match c.stage with
      | .verifying (l :: rest) => some (s.verify sum c l rest opened fails)
      | _ => none
    | none => none
  | .transfer files ok =>
    match s.call with
    | some c =>
      if c.stage = .transferring ∧ ∀ e ∈ files, ∃ l ∈ c.mf.allLayers, blobsPath l.digest = some e.1
      then
        some { s with
          blobs := files.foldl (fun blobs e => AList.insert e.1 e.2 blobs) s.blobs
          call := if ok = true then some { c with deleteMap := [], stage := .verifying [] }
            else none }
      else none
    | none => none
  | .install w noPrune fails =>
    match s.call with
    | some c => if c.stage = .verifying [] then some (s.install c w noPrune fails) else none
    | none => none
  | .background digest bytes =>
    if digest ∈ s.running then
      match blobsPath digest, bytes with
      | some p, some f => some { s.finished digest with blobs := AList.insert p f s.blobs }
      | _, _ => some (s.finished digest)
    else none
  | .stop => some { s with running := [], call := none }
  | .delete n removed fails =>
    if s.call.isSome = true then none else some (s.delete n removed fails)
  | .removeLayer l fails =>
    if s.call.isSome = true then none
    else some { s with blobs := (l.remove fails s.manifests s.blobs).1 }
  | .copy src dst w => if s.call.isSome = true then none else some (s.copy src dst w)
  | .prune old fails =>
    if s.call.isSome = true then none
    else some { s with blobs := pruneLayers fails old s.manifests s.blobs }

/-- The runs from any files. -/
def sys : TSys State Label where
  init s := s.running = [] ∧ s.call = none
  step s a s' := step sum s a = some s'

end Prismalama.Server.Images
