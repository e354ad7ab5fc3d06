import Prismalama.Ollama.Names
import Prismalama.Lib.TSys

/-!
# The cache as a map from names to digests (`server/internal/cache/blob/cache.go`)

`Link`, `Unlink` and `Resolve` are meant to be the writing, the removal and the reading
of a map from names to digests (`NameMap`). They are, in every run whose links are sound
(`resolve_run`); a link that finds a manifest of the size of the new one keeps the old
one (`resolve_stale`).
-/

namespace Prismalama.Ollama

open Prismalama.Lib

/-- What the cache is for: names, up to letter case, and the digests they stand for. -/
abbrev NameMap (D : Type*) := Name → Option D

namespace NameMap

variable {D : Type*}

def link (m : NameMap D) (n : Name) (d : D) : NameMap D :=
  fun k => if k = n.fold then some d else m k

def unlink (m : NameMap D) (n : Name) : NameMap D :=
  fun k => if k = n.fold then none else m k

def resolve (m : NameMap D) (n : Name) : Option D := m n.fold

end NameMap

namespace DiskCache

variable {D : Type*} [DecidableEq D]

/-! ## The operations on names -/

/-- `splitNameDigest` -/
def splitNameDigest (s : GoString) : GoString × GoString :=
  match Name.cutLast (· == 0x40) s with
  | none => (s, [])
  | some (name, _, digest) => (name, digest)

inductive Err
  | invalidName
  | invalidDigest
  | notExist
  | failed
  deriving DecidableEq

/-- `Link`, of a name. -/
def linkName (sum : File → D) (c : DiskCache D) (name : GoString) (d : D) (o : Outcome) :
    DiskCache D × Bool :=
  match nameToPath name with
  | none => (c, false)
  | some np => c.link sum np d o

/-- `Unlink`: whether a manifest was removed, or an error. `removed` is whether the file
can be removed. -/
def unlink (c : DiskCache D) (name : GoString) (removed : Bool) :
    DiskCache D × Except Err Bool :=
  match nameToPath name with
  | none => (c, .error .invalidName)
  | some np =>
    if (AList.lookup (c.manifestPath np) c.links).isNone = true then (c, .ok false)
    else if removed = true then
      ({ c with links := AList.erase (c.manifestPath np) c.links }, .ok true)
    else (c, .error .failed)

/-- How much of a manifest `Resolve` reads. -/
def manifestLimit : Nat := 2 ^ 20

/-- `Resolve` -/
def resolve (sum : File → D) (parseDigest : GoString → Option D) (c : DiskCache D)
    (name : GoString) (o : Outcome) : DiskCache D × Except Err D :=
  match splitNameDigest name with
  | (name, digest) =>
    if digest ≠ [] then (c, (parseDigest digest).elim (.error .invalidDigest) .ok)
    else
      match nameToPath name with
      | none => (c, .error .invalidName)
      | some np =>
        match c.manifest np with
        | none => (c, .error .notExist)
        | some f =>
          let data := f.take manifestLimit
          let r := c.putBytes sum (sum data) data o
          (r.1, if r.2 = true then .ok (sum data) else .error .failed)

/-- A name without a digest that is fully qualified. -/
def FullyQualified (name : GoString) : Prop :=
  (Name.parse name).isFullyQualified = true ∧ 0x40 ∉ name

instance (name : GoString) : Decidable (FullyQualified name) :=
  inferInstanceAs (Decidable (_ ∧ _))

theorem cutLast_eq_none {p : UInt8 → Bool} {s : GoString} (h : ∀ b ∈ s, p b = false) :
    Name.cutLast p s = none := by
  induction s with
  | nil => rfl
  | cons b s ih =>
    rw [Name.cutLast, ih fun x hx => h x (List.mem_cons_of_mem _ hx)]
    show (if p b = true then _ else _) = _
    rw [h b List.mem_cons_self, if_neg Bool.false_ne_true]

theorem FullyQualified.split {name : GoString} (h : FullyQualified name) :
    splitNameDigest name = (name, []) := by
  have hcut : Name.cutLast (· == 0x40) name = none :=
    cutLast_eq_none fun b hb => beq_false_of_ne fun heq => h.2 (heq ▸ hb)
  rw [splitNameDigest, hcut]

theorem FullyQualified.nameToPath {name : GoString} (h : FullyQualified name) :
    nameToPath name = some (Name.parse name).path := if_pos h.1

/-! ## The runs -/

/-- The cache and the map it stands for. -/
structure Run (D : Type*) where
  cache : DiskCache D
  names : NameMap D

inductive Label (D : Type*)
  | put (d : D) (data : File) (o : Outcome)
  | link (name : GoString) (d : D) (o : Outcome)
  | unlink (name : GoString) (removed : Bool)
  | resolve (name : GoString) (o : Outcome)

namespace Run

variable (sum : File → D) (parseDigest : GoString → Option D)

/-- One operation. Only the links and the removals that succeed change the map. -/
def step (s : Run D) : Label D → Run D
  | .put d data o => { s with cache := (s.cache.putBytes sum d data o).1 }
  | .link name d o =>
    let r := s.cache.linkName sum name d o
    ⟨r.1, if r.2 = true then s.names.link (Name.parse name) d else s.names⟩
  | .unlink name removed =>
    let r := s.cache.unlink name removed
    ⟨r.1, if r.2 = .ok true then s.names.unlink (Name.parse name) else s.names⟩
  | .resolve name o => { s with cache := (s.cache.resolve sum parseDigest name o).1 }

/-- Blobs have their sums for digests and are not too long for a manifest; names are
fully qualified. -/
def Enabled : Label D → Prop
  | .put d data _ => sum data = d ∧ data.length ≤ manifestLimit
  | .link name _ _ => FullyQualified name
  | .unlink name _ => FullyQualified name
  | .resolve name _ => FullyQualified name

instance : DecidablePred (Enabled sum)
  | .put _ _ _ => inferInstanceAs (Decidable (_ ∧ _))
  | .link _ _ _ => inferInstanceAs (Decidable (FullyQualified _))
  | .unlink _ _ => inferInstanceAs (Decidable (FullyQualified _))
  | .resolve _ _ => inferInstanceAs (Decidable (FullyQualified _))

def empty : Run D := ⟨⟨∅, ∅⟩, fun _ => none⟩

/-- The runs from an empty cache. -/
def sys : TSys (Run D) (Label D) :=
  TSys.ofFn (fun s => s = empty) (fun _ => Enabled sum) (step sum parseDigest)

/-- A copy of a blob over a manifest `m` of another size, or over none, that can open it:
it writes all of a blob with the digest; or it fails and writes only what is there, empties
a manifest that is empty, or removes one that was not there. -/
def CopySound (m : Option File) (b : File) (d : D) : Outcome → Prop
  | .openFails => True
  | .ok => sum b = d ∨ b ≠ [] ∧ m = some []
  | .writeFails written truncated =>
    if b = [] then sum b = d
    else if truncated = true then m = some []
    else ∃ f ∈ m, f.length < b.length ∧
      b.take (if sum b = d then written else min written (b.length - 1)) <+: f
  | .closeFails removed =>
    if b = [] then sum b = d
    else if sum b = d then removed = true ∧ m = none
    else m = some []

instance (m : Option File) (b : File) (d : D) : DecidablePred (CopySound sum m b d)
  | .openFails => .isTrue trivial
  | .ok => inferInstanceAs (Decidable (_ ∨ _))
  | .writeFails _ _ | .closeFails _ => inferInstanceAs (Decidable (ite (b = []) _ _))

/-- A link finds a manifest of the size of the blob only if it has the digest already;
else its copy is sound. -/
def LinkSound (s : Run D) : Label D → Prop
  | .link name d o => ∀ b ∈ AList.lookup d s.cache.blobs,
      if (s.cache.manifest (Name.parse name).path).map List.length = some b.length then
        (s.cache.manifest (Name.parse name).path).map sum = some d
      else CopySound sum (s.cache.manifest (Name.parse name).path) b d o
  | _ => True

instance (s : Run D) : DecidablePred (LinkSound sum s)
  | .link _ d _ => inferInstanceAs (Decidable (∀ b ∈ AList.lookup d s.cache.blobs, _))
  | .put _ _ _ | .unlink _ _ | .resolve _ _ => .isTrue trivial

end Run

/-! ## Manifests -/

/-- The cache with a manifest written. -/
def setManifest (c : DiskCache D) (np : GoString) (f : File) : DiskCache D :=
  { c with links := AList.insert (c.manifestPath np) f c.links }

/-- No two links are equal up to letter case. -/
def UniqueLinks (c : DiskCache D) : Prop :=
  ∀ l ∈ c.links.keys, ∀ l' ∈ c.links.keys, equalFold l l' = true → l = l'

omit [DecidableEq D] in
theorem equalFold_iff {s t : GoString} :
    equalFold s t = true ↔ s.map foldByte = t.map foldByte := beq_iff_eq

omit [DecidableEq D] in
theorem equalFold_manifestPath (c : DiskCache D) (np : GoString) :
    equalFold np (c.manifestPath np) = true := by
  simp only [manifestPath]
  cases hfind : c.links.keys.find? (equalFold np) with
  | none => exact equalFold_self np
  | some p => exact List.find?_some hfind

omit [DecidableEq D] in
/-- The manifest of a path is the one of any path equal to it. -/
theorem manifest_eq_some {c : DiskCache D} (huniq : c.UniqueLinks) {np : GoString} {f : File} :
    c.manifest np = some f ↔ ∃ l, equalFold np l = true ∧ AList.lookup l c.links = some f := by
  constructor
  · intro h
    exact ⟨c.manifestPath np, equalFold_manifestPath c np, h⟩
  · rintro ⟨l, hfold, hlookup⟩
    have hmem : l ∈ c.links.keys := (GoMap.mem_keys_iff _ _).mpr ⟨f, hlookup⟩
    have hpath : c.manifestPath np = l := by
      rw [manifestPath]
      cases hfind : c.links.keys.find? (equalFold np) with
      | none => exact absurd hfold (List.find?_eq_none.mp hfind l hmem)
      | some p =>
        have hp := List.find?_some hfind
        refine huniq p (List.mem_of_find?_eq_some hfind) l hmem (equalFold_iff.mpr ?_)
        exact (equalFold_iff.mp hp).symm.trans (equalFold_iff.mp hfold)
    rw [manifest, hpath, hlookup]

omit [DecidableEq D] in
/-- Links whose manifests are read alike are no more than before. -/
theorem manifest_congr {c c' : DiskCache D} (huniq : c.UniqueLinks) (huniq' : c'.UniqueLinks)
    {np : GoString}
    (h : ∀ l, equalFold np l = true → AList.lookup l c'.links = AList.lookup l c.links) :
    c'.manifest np = c.manifest np := by
  refine Option.ext fun f => ?_
  rw [manifest_eq_some huniq', manifest_eq_some huniq]
  refine exists_congr fun l => and_congr_right fun hfold => ?_
  rw [h l hfold]

omit [DecidableEq D] in
/-- A path is linked under itself, or nothing is equal to it. -/
theorem manifestPath_mem (c : DiskCache D) (np : GoString) :
    c.manifestPath np ∈ c.links.keys ∨
      c.manifestPath np = np ∧ ∀ l ∈ c.links.keys, equalFold np l ≠ true := by
  simp only [manifestPath]
  cases hfind : c.links.keys.find? (equalFold np) with
  | none => exact .inr ⟨rfl, List.find?_eq_none.mp hfind⟩
  | some p => exact .inl (List.mem_of_find?_eq_some hfind)

omit [DecidableEq D] in
theorem mem_keys_setManifest {c : DiskCache D} {np l : GoString} {f : File} :
    l ∈ (c.setManifest np f).links.keys ↔ l = c.manifestPath np ∨ l ∈ c.links.keys := by
  rw [← AList.mem_keys, ← AList.mem_keys, setManifest, AList.mem_insert]

omit [DecidableEq D] in
theorem UniqueLinks.setManifest {c : DiskCache D} (huniq : c.UniqueLinks) (np : GoString)
    (f : File) : (c.setManifest np f).UniqueLinks := by
  -- a new key is equal to none of the old ones
  have hnew : ∀ l ∈ c.links.keys, equalFold l (c.manifestPath np) = true →
      l = c.manifestPath np := by
    intro l hl hfold
    rcases manifestPath_mem c np with hmem | ⟨heq, hnone⟩
    · exact huniq l hl _ hmem hfold
    · rw [heq] at hfold
      exact absurd (equalFold_iff.mpr (equalFold_iff.mp hfold).symm) (hnone l hl)
  intro l hl l' hl' hfold
  rcases mem_keys_setManifest.mp hl with rfl | hl <;>
    rcases mem_keys_setManifest.mp hl' with rfl | hl'
  · rfl
  · exact (hnew l' hl' (equalFold_iff.mpr (equalFold_iff.mp hfold).symm)).symm
  · exact hnew l hl hfold
  · exact huniq l hl l' hl' hfold

omit [DecidableEq D] in
theorem manifest_setManifest {c : DiskCache D} (huniq : c.UniqueLinks) (np np' : GoString)
    (f : File) : (c.setManifest np f).manifest np' =
      if equalFold np np' = true then some f else c.manifest np' := by
  have hpath := equalFold_iff.mp (equalFold_manifestPath c np)
  split
  · rename_i hfold
    refine (manifest_eq_some (huniq.setManifest np f)).mpr ⟨c.manifestPath np, ?_, ?_⟩
    · exact equalFold_iff.mpr ((equalFold_iff.mp hfold).symm.trans hpath)
    · exact AList.lookup_insert _
  · rename_i hfold
    refine manifest_congr huniq (huniq.setManifest np f) fun l hl => ?_
    have hne : l ≠ c.manifestPath np := by
      rintro rfl
      exact hfold (equalFold_iff.mpr (hpath.trans (equalFold_iff.mp hl).symm))
    exact AList.lookup_insert_ne hne

/-- The cache with a manifest removed. -/
def dropManifest (c : DiskCache D) (np : GoString) : DiskCache D :=
  { c with links := AList.erase (c.manifestPath np) c.links }

omit [DecidableEq D] in
theorem UniqueLinks.dropManifest {c : DiskCache D} (huniq : c.UniqueLinks) (np : GoString) :
    (c.dropManifest np).UniqueLinks := by
  have hsub : ∀ l ∈ (c.dropManifest np).links.keys, l ∈ c.links.keys := by
    intro l hl
    rw [← AList.mem_keys, DiskCache.dropManifest, AList.mem_erase] at hl
    exact AList.mem_keys.mp hl.2
  intro l hl l' hl' hfold
  exact huniq l (hsub l hl) l' (hsub l' hl') hfold

omit [DecidableEq D] in
theorem manifest_dropManifest {c : DiskCache D} (huniq : c.UniqueLinks) (np np' : GoString) :
    (c.dropManifest np).manifest np' =
      if equalFold np np' = true then none else c.manifest np' := by
  have hpath := equalFold_iff.mp (equalFold_manifestPath c np)
  split
  · rename_i hfold
    rw [Option.eq_none_iff_forall_ne_some]
    intro f hf
    obtain ⟨l, hl, hlookup⟩ := (manifest_eq_some (huniq.dropManifest np)).mp hf
    rw [dropManifest, GoMap.lookup_erase_ite] at hlookup
    split at hlookup
    · cases hlookup
    · rename_i hne
      -- the file left would be a second link of the name
      refine hne (huniq l ((GoMap.mem_keys_iff _ _).mpr ⟨f, hlookup⟩) _ ?_ ?_)
      · rcases manifestPath_mem c np with hmem | ⟨-, hnone⟩
        · exact hmem
        · refine absurd ?_ (hnone l ((GoMap.mem_keys_iff _ _).mpr ⟨f, hlookup⟩))
          exact equalFold_iff.mpr ((equalFold_iff.mp hfold).trans (equalFold_iff.mp hl))
      · exact equalFold_iff.mpr
          ((equalFold_iff.mp hl).symm.trans ((equalFold_iff.mp hfold).symm.trans hpath))
  · rename_i hfold
    refine manifest_congr huniq (huniq.dropManifest np) fun l hl => ?_
    have hne : l ≠ c.manifestPath np := by
      rintro rfl
      exact hfold (equalFold_iff.mpr (hpath.trans (equalFold_iff.mp hl).symm))
    exact AList.lookup_erase_ne hne

/-! ## What an operation does -/

theorem link_some {sum : File → D} {c : DiskCache D} {np : GoString} {d : D} {o : Outcome}
    {b : File} (hb : AList.lookup d c.blobs = some b) :
    c.link sum np d o =
      ({ c with links := (copyNamedFile sum c.links (c.manifestPath np) b d o).1 },
        (copyNamedFile sum c.links (c.manifestPath np) b d o).2) := by
  simp only [link, hb]

/-- A link finds no blob or cannot open the manifest; or it keeps a manifest of the size
of the blob; or it writes the blob; or it fails and leaves another file, or none. -/
theorem link_cases (sum : File → D) (c : DiskCache D) (np : GoString) (d : D) (o : Outcome) :
    c.link sum np d o = (c, false) ∨
      ∃ b, AList.lookup d c.blobs = some b ∧
        ((c.manifest np).map List.length = some b.length ∧ c.link sum np d o = (c, true) ∨
        (c.manifest np).map List.length ≠ some b.length ∧ o ≠ .openFails ∧
          (c.link sum np d o = (c.setManifest np b, true) ∧ (b = [] ∨ sum b = d) ∨
            (∃ f, c.link sum np d o = (c.setManifest np f, false) ∧ f.length ≤ b.length) ∨
            c.link sum np d o = (c.dropManifest np, false))) := by
  cases hb : AList.lookup d c.blobs with
  | none =>
    refine .inl ?_
    simp only [link, hb]
  | some b =>
    rw [link_some hb]
    rcases copyNamedFile_cases sum c.links (c.manifestPath np) b d o with ⟨hsize, heq⟩ |
      ⟨hsize, ⟨-, heq⟩ | ⟨ho, ⟨heq, hsum⟩ | ⟨-, ⟨f, heq, hlen⟩ | heq⟩⟩⟩ <;> rw [heq]
    · exact .inr ⟨b, rfl, .inl ⟨hsize, rfl⟩⟩
    · exact .inl rfl
    · exact .inr ⟨b, rfl, .inr ⟨hsize, ho, .inl ⟨rfl, hsum⟩⟩⟩
    · exact .inr ⟨b, rfl, .inr ⟨hsize, ho, .inr (.inl ⟨f, rfl, hlen⟩)⟩⟩
    · exact .inr ⟨b, rfl, .inr ⟨hsize, ho, .inr (.inr rfl)⟩⟩

omit [DecidableEq D] in
/-- Unless the file cannot be removed, a manifest that exists is, and the one of a name
without a link is not there to begin with. -/
theorem unlink_cases (c : DiskCache D) {name np : GoString} (removed : Bool)
    (hnp : nameToPath name = some np) :
    c.manifest np = none ∧ c.unlink name removed = (c, .ok false) ∨
      (removed = true ∧ c.unlink name removed = (c.dropManifest np, .ok true)) ∨
      (removed = false ∧ c.unlink name removed = (c, .error .failed)) := by
  have hmanifest : c.manifest np = AList.lookup (c.manifestPath np) c.links := rfl
  simp only [unlink, hnp]
  split
  · rename_i hnone
    exact .inl ⟨Option.isNone_iff_eq_none.mp hnone, rfl⟩
  · split
    · exact .inr (.inl ⟨‹_›, rfl⟩)
    · exact .inr (.inr ⟨Bool.eq_false_iff.mpr ‹_›, rfl⟩)

/-- A put of bytes under their own sum only fails when the file cannot be written. -/
theorem putBytes_self {sum : File → D} {c : DiskCache D} {data : File} :
    (c.putBytes sum (sum data) data .ok).2 = true := by
  show (copyNamedFile sum c.blobs (sum data) data (sum data) .ok).2 = true
  rw [copyNamedFile]
  split
  · rfl
  split
  · cases ‹Outcome.ok = .openFails›
  split
  · rfl
  · show (if sum data ≠ sum data then _ else _ : _ × Bool).2 = true
    rw [if_neg (not_not.mpr rfl)]

/-- What a name resolves to is the sum of its manifest. -/
theorem resolve_eq {sum : File → D} {parseDigest : GoString → Option D} {c : DiskCache D}
    {name : GoString} (hname : FullyQualified name) (o : Outcome) :
    c.resolve sum parseDigest name o =
      match c.manifest (Name.parse name).path with
      | none => (c, .error .notExist)
      | some f =>
        ((c.putBytes sum (sum (f.take manifestLimit)) (f.take manifestLimit) o).1,
          if (c.putBytes sum (sum (f.take manifestLimit)) (f.take manifestLimit) o).2 = true then
            .ok (sum (f.take manifestLimit)) else .error .failed) := by
  simp only [resolve, hname.split, hname.nameToPath, ne_eq, not_true_eq_false, if_false]

/-! ## Runs -/

namespace Run

/-- No file is longer than `Resolve` reads. -/
def Short (c : DiskCache D) : Prop :=
  (∀ d f, AList.lookup d c.blobs = some f → f.length ≤ manifestLimit) ∧
    ∀ l f, AList.lookup l c.links = some f → f.length ≤ manifestLimit

structure Inv (c : DiskCache D) : Prop where
  unique : c.UniqueLinks
  short : Short c

/-- The manifests have the digests that the names are linked to. -/
def Refines (sum : File → D) (s : Run D) : Prop :=
  ∀ n : Name, n.isFullyQualified = true → (s.cache.manifest n.path).map sum = s.names.resolve n

theorem equalFold_path {a b : Name} (ha : a.isFullyQualified = true)
    (hb : b.isFullyQualified = true) : equalFold a.path b.path = true ↔ a.fold = b.fold :=
  equalFold_iff.trans (Name.path_fold_inj ha hb)

section Steps

variable {sum : File → D} {parseDigest : GoString → Option D} {c : DiskCache D}

/-- A put of a short blob changes no link. -/
theorem Inv.putBytes (hinv : Inv c) {d : D} {data : File} (hlen : data.length ≤ manifestLimit)
    (o : Outcome) : Inv (c.putBytes sum d data o).1 := by
  refine ⟨hinv.unique, fun d' f hf => ?_, hinv.short.2⟩
  rcases lookup_copyNamedFile hf with hold | ⟨-, hle⟩
  · exact hinv.short.1 d' f hold
  · exact hle.trans hlen

theorem Inv.setManifest (hinv : Inv c) (np : GoString) {f : File}
    (hlen : f.length ≤ manifestLimit) : Inv (c.setManifest np f) := by
  refine ⟨hinv.unique.setManifest np f, hinv.short.1, fun l g hg => ?_⟩
  rw [DiskCache.setManifest, GoMap.lookup_insert_ite] at hg
  split at hg
  · obtain rfl := Option.some.inj hg
    exact hlen
  · exact hinv.short.2 l g hg

theorem Inv.dropManifest (hinv : Inv c) (np : GoString) : Inv (c.dropManifest np) := by
  refine ⟨hinv.unique.dropManifest np, hinv.short.1, fun l g hg => ?_⟩
  rw [DiskCache.dropManifest, GoMap.lookup_erase_ite] at hg
  split at hg
  · cases hg
  · exact hinv.short.2 l g hg

theorem Inv.link (hinv : Inv c) (np : GoString) (d : D) (o : Outcome) :
    Inv (c.link sum np d o).1 := by
  rcases link_cases sum c np d o with heq |
    ⟨b, hb, ⟨-, heq⟩ | ⟨-, -, ⟨heq, -⟩ | ⟨f, heq, hlen⟩ | heq⟩⟩ <;> rw [heq]
  · exact hinv
  · exact hinv
  · exact hinv.setManifest np (hinv.short.1 d b hb)
  · exact hinv.setManifest np (hlen.trans (hinv.short.1 d b hb))
  · exact hinv.dropManifest np

/-- Resolving a name may put its manifest among the blobs. -/
theorem resolve_fst (hinv : Inv c) {name : GoString} (hname : FullyQualified name)
    (o : Outcome) : Inv (c.resolve sum parseDigest name o).1 ∧
      (c.resolve sum parseDigest name o).1.links = c.links := by
  rw [resolve_eq hname]
  cases hf : c.manifest (Name.parse name).path with
  | none => exact ⟨hinv, rfl⟩
  | some f =>
    refine ⟨hinv.putBytes ?_ o, rfl⟩
    rw [List.length_take]
    exact Nat.min_le_left _ _

theorem Inv.manifest_length (hinv : Inv c) {np : GoString} {f : File}
    (hf : c.manifest np = some f) : f.length ≤ manifestLimit :=
  hinv.short.2 _ f hf

/-- Without a failure, a name resolves to the sum of its manifest. -/
theorem resolve_snd (hinv : Inv c) {name : GoString} (hname : FullyQualified name) :
    (c.resolve sum parseDigest name .ok).2 =
      ((c.manifest (Name.parse name).path).map sum).elim (.error .notExist) .ok := by
  rw [resolve_eq hname]
  cases hf : c.manifest (Name.parse name).path with
  | none => rfl
  | some f =>
    show (if (c.putBytes _ _ _ _).2 = true then _ else _) = _
    rw [putBytes_self, if_pos rfl, List.take_of_length_le (hinv.manifest_length hf)]
    rfl

/-- With one, it resolves to that or to nothing. -/
theorem resolve_snd_any (hinv : Inv c) {name : GoString} (hname : FullyQualified name)
    (o : Outcome) : (c.resolve sum parseDigest name o).2 =
        (c.resolve sum parseDigest name .ok).2 ∨
      (c.resolve sum parseDigest name o).2 = .error .failed := by
  rw [resolve_snd hinv hname, resolve_eq hname]
  cases hf : c.manifest (Name.parse name).path with
  | none => exact .inl rfl
  | some f =>
    have htake : f.take manifestLimit = f := List.take_of_length_le (hinv.manifest_length hf)
    simp only [htake]
    split
    · exact .inl rfl
    · exact .inr rfl

/-- What a link or a removal leaves alone. -/
theorem manifest_link_other (hinv : Inv c) {np np' : GoString} (hne : equalFold np np' ≠ true)
    (d : D) (o : Outcome) : (c.link sum np d o).1.manifest np' = c.manifest np' := by
  rcases link_cases sum c np d o with heq |
    ⟨b, hb, ⟨-, heq⟩ | ⟨-, -, ⟨heq, -⟩ | ⟨f, heq, -⟩ | heq⟩⟩ <;> rw [heq]
  · exact (manifest_setManifest hinv.unique np np' b).trans (if_neg hne)
  · exact (manifest_setManifest hinv.unique np np' f).trans (if_neg hne)
  · exact (manifest_dropManifest hinv.unique np np').trans (if_neg hne)

theorem link_blobs (c : DiskCache D) (np : GoString) (d : D) (o : Outcome) :
    (c.link sum np d o).1.blobs = c.blobs := by
  rcases link_cases sum c np d o with heq |
    ⟨b, hb, ⟨-, heq⟩ | ⟨-, -, ⟨heq, -⟩ | ⟨f, heq, -⟩ | heq⟩⟩ <;> rw [heq] <;> rfl

/-- A sound copy that fails leaves the file under the name as it was. -/
theorem copyNamedFile_spares {files : GoMap GoString File} {name : GoString} {b : File} {d : D}
    {o : Outcome} (hsize : (AList.lookup name files).map List.length ≠ some b.length)
    (hsound : CopySound sum (AList.lookup name files) b d o)
    (hfails : (copyNamedFile sum files name b d o).2 = false) :
    AList.lookup name (copyNamedFile sum files name b d o).1 = AList.lookup name files := by
  rw [copyNamedFile, if_neg hsize] at hfails ⊢
  by_cases ho : o = .openFails
  · rw [if_pos ho]
  rw [if_neg ho] at hfails ⊢
  by_cases hempty : b.length = 0
  · rw [if_pos hempty] at hfails
    cases hfails
  have hne : b ≠ [] := fun h => hempty (by rw [h, List.length_nil])
  rw [if_neg hempty] at hfails ⊢
  cases o with
  | openFails => exact absurd rfl ho
  | ok =>
    by_cases hsum : sum b = d
    · rw [fillFile, if_neg (not_not.mpr hsum)] at hfails
      cases hfails
    · rw [fillFile, if_pos hsum, (hsound.resolve_left hsum).2]
      exact AList.lookup_insert _
  | writeFails written truncated =>
    rw [CopySound, if_neg hne] at hsound
    cases truncated with
    | true =>
      rw [if_pos rfl] at hsound
      rw [hsound]
      exact AList.lookup_insert _
    | false =>
      rw [if_neg Bool.false_ne_true] at hsound
      obtain ⟨f, hf, hlt, hprefix⟩ := hsound
      have hopen : openFile files name b.length = f := by
        rw [openFile, Option.mem_def.mp hf, Option.filter_some, if_pos (decide_eq_true hlt)]
        rfl
      show AList.lookup name (AList.insert name _ files) = _
      rw [hopen, File.write_prefix hprefix, Option.mem_def.mp hf]
      exact AList.lookup_insert _
  | closeFails removed =>
    rw [CopySound, if_neg hne] at hsound
    by_cases hsum : sum b = d
    · rw [if_pos hsum] at hsound
      obtain ⟨rfl, hnone⟩ := hsound
      rw [fillFile, if_neg (not_not.mpr hsum), if_pos rfl, hnone]
      exact AList.lookup_erase _ _
    · rw [if_neg hsum] at hsound
      rw [fillFile, if_pos hsum, hsound]
      exact AList.lookup_insert _

/-- An empty blob is written whenever its file can be opened. -/
theorem CopySound.nil {m : Option File} {d : D} {o : Outcome} (h : CopySound sum m [] d o)
    (ho : o ≠ .openFails) : sum [] = d := by
  cases o with
  | openFails => exact absurd rfl ho
  | ok => exact h.resolve_right fun hne => hne.1 rfl
  | writeFails written truncated => exact h
  | closeFails removed => exact h

/-- The manifests of paths that are equal up to letter case are one. -/
theorem manifest_fold (hinv : Inv c) {np np' : GoString} (h : equalFold np np' = true) :
    c.manifest np' = c.manifest np := by
  refine Option.ext fun f => ?_
  rw [manifest_eq_some hinv.unique, manifest_eq_some hinv.unique]
  refine exists_congr fun l => and_congr_left fun _ => ?_
  rw [equalFold_iff, equalFold_iff, equalFold_iff.mp h]

omit [DecidableEq D] in
/-- A put, and a name resolved, leave every manifest as it was. -/
theorem Refines.of_links {s : Run D} (href : Refines sum s) {c' : DiskCache D}
    (hlinks : c'.links = s.cache.links) : Refines sum { s with cache := c' } := by
  intro n hn
  have hmanifest : c'.manifest n.path = s.cache.manifest n.path := by
    rw [manifest, manifest, manifestPath, manifestPath, hlinks]
  show (c'.manifest n.path).map sum = _
  rw [hmanifest]
  exact href n hn

/-- A manifest written with the digest of its bytes is a name linked. -/
theorem Refines.setManifest {s : Run D} (hinv : Inv s.cache) (href : Refines sum s) {n : Name}
    (hn : n.isFullyQualified = true) (f : File) :
    Refines sum ⟨s.cache.setManifest n.path f, s.names.link n (sum f)⟩ := by
  intro m hm
  show ((s.cache.setManifest n.path f).manifest m.path).map sum =
    if m.fold = n.fold then some (sum f) else s.names m.fold
  rw [manifest_setManifest hinv.unique]
  by_cases hfold : n.fold = m.fold
  · rw [if_pos ((equalFold_path hn hm).mpr hfold), if_pos hfold.symm]
    rfl
  · rw [if_neg (fun h => hfold ((equalFold_path hn hm).mp h)), if_neg (fun h => hfold h.symm)]
    exact href m hm

theorem Refines.dropManifest {s : Run D} (hinv : Inv s.cache) (href : Refines sum s) {n : Name}
    (hn : n.isFullyQualified = true) :
    Refines sum ⟨s.cache.dropManifest n.path, s.names.unlink n⟩ := by
  intro m hm
  show ((s.cache.dropManifest n.path).manifest m.path).map sum =
    if m.fold = n.fold then none else s.names m.fold
  rw [manifest_dropManifest hinv.unique]
  by_cases hfold : n.fold = m.fold
  · rw [if_pos ((equalFold_path hn hm).mpr hfold), if_pos hfold.symm]
    rfl
  · rw [if_neg (fun h => hfold ((equalFold_path hn hm).mp h)), if_neg (fun h => hfold h.symm)]
    exact href m hm

omit [DecidableEq D] in
/-- Linking a name to the digest it has already changes nothing. -/
theorem link_self {s : Run D} (href : Refines sum s) {n : Name} (hn : n.isFullyQualified = true)
    {d : D} (hd : (s.cache.manifest n.path).map sum = some d) : s.names.link n d = s.names := by
  funext k
  show (if k = n.fold then some d else s.names k) = s.names k
  split
  · rename_i hk
    rw [hk, ← hd]
    exact href n hn
  · rfl

omit [DecidableEq D] in
/-- Nor does unlinking a name without a manifest. -/
theorem unlink_self {s : Run D} (href : Refines sum s) {n : Name} (hn : n.isFullyQualified = true)
    (hnone : s.cache.manifest n.path = none) : s.names.unlink n = s.names := by
  funext k
  show (if k = n.fold then none else s.names k) = s.names k
  split
  · rename_i hk
    rw [hk]
    exact (congrArg (Option.map sum) hnone).symm.trans (href n hn)
  · rfl

/-- A link that is sound. -/
theorem Refines.link {s : Run D} (hinv : Inv s.cache) (href : Refines sum s) {name : GoString}
    (hname : FullyQualified name) {d : D} {o : Outcome}
    (hsound : LinkSound sum s (.link name d o)) :
    Refines sum (step sum parseDigest s (.link name d o)) := by
  have hlink : s.cache.linkName sum name d o = s.cache.link sum (Name.parse name).path d o := by
    rw [linkName, hname.nameToPath]
  simp only [step, hlink]
  rcases link_cases sum s.cache (Name.parse name).path d o with heq |
    ⟨b, hb, ⟨hsize, heq⟩ | ⟨hsize, ho, hcopy⟩⟩
  · rw [heq, if_neg Bool.false_ne_true]
    exact href
  · -- the manifest is kept, and the name had the digest before
    have hkept := hsound b hb
    rw [if_pos hsize] at hkept
    rw [heq, if_pos rfl, link_self href hname.1 hkept]
    exact href
  · have hcopied := hsound b hb
    rw [if_neg hsize] at hcopied
    -- when the copy fails, the file under the name is the one from before
    have hspared : (s.cache.link sum (Name.parse name).path d o).2 = false →
        AList.lookup (s.cache.manifestPath (Name.parse name).path)
            (s.cache.link sum (Name.parse name).path d o).1.links =
          s.cache.manifest (Name.parse name).path := by
      rw [link_some hb]
      exact copyNamedFile_spares hsize hcopied
    rcases hcopy with ⟨heq, hwhole⟩ | ⟨f, heq, -⟩ | heq
    · have hsum : sum b = d := by
        rcases hwhole with rfl | hsum
        · exact hcopied.nil ho
        · exact hsum
      rw [heq, if_pos rfl, ← hsum]
      exact href.setManifest hinv hname.1 b
    · have hold : s.cache.manifest (Name.parse name).path = some f := by
        rw [heq] at hspared
        exact (hspared rfl).symm.trans (AList.lookup_insert _)
      have hd : (s.cache.manifest (Name.parse name).path).map sum = some (sum f) := by
        rw [hold]
        rfl
      rw [heq, if_neg Bool.false_ne_true]
      have hset := href.setManifest hinv hname.1 f
      rw [link_self href hname.1 hd] at hset
      exact hset
    · have hold : s.cache.manifest (Name.parse name).path = none := by
        rw [heq] at hspared
        exact (hspared rfl).symm.trans (AList.lookup_erase _ _)
      rw [heq, if_neg Bool.false_ne_true]
      have hdrop := href.dropManifest hinv hname.1
      rw [unlink_self href hname.1 hold] at hdrop
      exact hdrop

/-- One operation, of a link only if it is sound. -/
theorem step_refines {s : Run D} {a : Label D} (hinv : Inv s.cache) (href : Refines sum s)
    (hen : Enabled sum a) (hsound : LinkSound sum s a) :
    Refines sum (step sum parseDigest s a) := by
  cases a with
  | put d data o => exact href.of_links rfl
  | link name d o => exact href.link hinv hen hsound
  | unlink name removed =>
    simp only [step]
    rcases unlink_cases s.cache removed hen.nameToPath with
      ⟨hnone, heq⟩ | ⟨-, heq⟩ | ⟨-, heq⟩
    · rw [heq, if_neg (nofun : (.ok false : Except Err Bool) ≠ .ok true)]
      exact href
    · rw [heq, if_pos rfl]
      exact href.dropManifest hinv hen.1
    · rw [heq, if_neg (nofun : (.error .failed : Except Err Bool) ≠ .ok true)]
      exact href
  | resolve name o => exact href.of_links (resolve_fst hinv hen o).2

theorem step_inv {s : Run D} {a : Label D} (hinv : Inv s.cache) (hen : Enabled sum a) :
    Inv (step sum parseDigest s a).cache := by
  cases a with
  | put d data o => exact hinv.putBytes hen.2 o
  | link name d o =>
    show Inv (s.cache.linkName sum name d o).1
    rw [linkName, hen.nameToPath]
    exact hinv.link _ d o
  | unlink name removed =>
    show Inv (s.cache.unlink name removed).1
    rcases unlink_cases s.cache removed hen.nameToPath with
      ⟨-, heq⟩ | ⟨-, heq⟩ | ⟨-, heq⟩
    · rw [heq]
      exact hinv
    · rw [heq]
      exact hinv.dropManifest _
    · rw [heq]
      exact hinv
  | resolve name o => exact (resolve_fst hinv hen o).1

end Steps

/-- The runs keep the links unique, and the runs with sound links the map. -/
theorem inv_invariant (sum : File → D) (parseDigest : GoString → Option D) :
    (sys sum parseDigest).Invariant fun s => Inv s.cache := by
  refine TSys.Inductive.invariant ⟨?_, ?_⟩
  · rintro s rfl
    refine ⟨fun l hl => ?_, fun d f hf => ?_, fun l f hf => ?_⟩
    · cases hl
    · rw [empty, GoMap.lookup_empty] at hf
      cases hf
    · rw [empty, GoMap.lookup_empty] at hf
      cases hf
  · rintro s a s' hinv ⟨hen, rfl⟩
    exact step_inv hinv hen

theorem refines_invariant (sum : File → D) (parseDigest : GoString → Option D) :
    ((sys sum parseDigest).restrict (LinkSound sum)).Invariant (Refines sum) := by
  refine TSys.Invariant.relative ((inv_invariant sum parseDigest).restrict _) ?_ ?_
  · rintro s rfl n -
    rfl
  · rintro s a s' hinv href ⟨hsound, hen, rfl⟩
    exact step_refines hinv href hen hsound

/-- What resolving a name gives goes by its manifest and the blobs. -/
theorem resolve_congr {sum : File → D} {parseDigest : GoString → Option D} {c c' : DiskCache D}
    {name : GoString} (hname : FullyQualified name) (hblobs : c'.blobs = c.blobs)
    (hmanifest : c'.manifest (Name.parse name).path = c.manifest (Name.parse name).path)
    (o : Outcome) :
    (c'.resolve sum parseDigest name o).2 = (c.resolve sum parseDigest name o).2 := by
  rw [resolve_eq hname, resolve_eq hname, hmanifest]
  cases hf : c.manifest (Name.parse name).path with
  | none => rfl
  | some f =>
    simp only [putBytes, hblobs]
    rfl

/-- In every run with sound links, a name resolves to the digest it was last linked to
and to no other one; and linking or unlinking a name leaves the other names alone. -/
theorem resolve_run {sum : File → D} {parseDigest : GoString → Option D} {s : Run D}
    (h : ((sys sum parseDigest).restrict (LinkSound sum)).Reachable s) :
    (∀ name, FullyQualified name →
      (s.cache.resolve sum parseDigest name .ok).2 =
          (s.names.resolve (Name.parse name)).elim (.error .notExist) .ok ∧
        ∀ o, (s.cache.resolve sum parseDigest name o).2 =
            (s.cache.resolve sum parseDigest name .ok).2 ∨
          (s.cache.resolve sum parseDigest name o).2 = .error .failed) ∧
      ∀ name name', FullyQualified name → FullyQualified name' →
        (Name.parse name).fold ≠ (Name.parse name').fold → ∀ o',
        (∀ d o, ((s.cache.linkName sum name d o).1.resolve sum parseDigest name' o').2 =
            (s.cache.resolve sum parseDigest name' o').2) ∧
          ∀ removed, ((s.cache.unlink name removed).1.resolve sum parseDigest name' o').2 =
            (s.cache.resolve sum parseDigest name' o').2 := by
  have hinv := inv_invariant sum parseDigest s h.of_restrict
  have href := refines_invariant sum parseDigest s h
  refine ⟨fun name hname => ⟨?_, resolve_snd_any hinv hname⟩, ?_⟩
  · rw [resolve_snd hinv hname, href _ hname.1]
  · intro name name' hname hname' hne o'
    have hfold : equalFold (Name.parse name).path (Name.parse name').path ≠ true :=
      fun heq => hne ((equalFold_path hname.1 hname'.1).mp heq)
    constructor
    · intro d o
      rw [linkName, hname.nameToPath]
      exact resolve_congr hname' (link_blobs s.cache _ d o) (manifest_link_other hinv hfold d o) o'
    · intro removed
      rcases unlink_cases s.cache removed hname.nameToPath with
        ⟨-, heq⟩ | ⟨-, heq⟩ | ⟨-, heq⟩
      · rw [heq]
      · rw [heq]
        have hblobs : (s.cache.dropManifest (Name.parse name).path).blobs = s.cache.blobs := rfl
        refine resolve_congr hname' hblobs ?_ o'
        exact (manifest_dropManifest hinv.unique _ _).trans (if_neg hfold)
      · rw [heq]

theorem reachable_run {sum : File → D} {parseDigest : GoString → Option D} (as : List (Label D))
    (h : TSys.Runs (fun _ => Enabled sum) (step sum parseDigest) empty as) :
    (sys sum parseDigest).Reachable (as.foldl (step sum parseDigest) empty) :=
  have hinit : (sys sum parseDigest).Reachable empty := .init rfl
  hinit.run as h

theorem reachable_restrict {sum : File → D} {parseDigest : GoString → Option D}
    (as : List (Label D))
    (h : TSys.Runs (fun s a => LinkSound sum s a ∧ Enabled sum a) (step sum parseDigest) empty as) :
    ((sys sum parseDigest).restrict (LinkSound sum)).Reachable
      (as.foldl (step sum parseDigest) empty) :=
  have hinit : ((sys sum parseDigest).restrict (LinkSound sum)).Reachable empty := .init rfl
  hinit.run_restrict as h

/-- Two manifests of one size are put, and a name is linked to the first one. -/
def relinked (second : Label File) : List (Label File) :=
  [.put [1] [1] .ok, .put [2] [2] .ok, .link (lit "h/n/m:t") [1] .ok, second]

/-- The state after them, where the sum of a file is the file. -/
def afterRelinked (second : Label File) : Run File :=
  (relinked second).foldl (step (D := File) id fun _ => none) empty

theorem resolve_run_unlinked :
    ((afterRelinked (.unlink (lit "H/N/m:t") true)).cache.resolve id (fun _ => none)
      (lit "h/n/m:t") .ok).2 = .error .notExist := by
  have hreach : ((sys id fun _ => none).restrict (LinkSound id)).Reachable
      (afterRelinked (.unlink (lit "H/N/m:t") true)) :=
    reachable_restrict _ (by decide)
  rw [((resolve_run hreach).1 (lit "h/n/m:t") (by decide)).1]
  decide

/-- The name is linked to a manifest of the same size as the one it has, and resolves to
the one it had. -/
theorem resolve_stale : ∃ s : Run File, (sys id fun _ => none).Reachable s ∧
    FullyQualified (lit "h/n/m:t") ∧
    s.names.resolve (Name.parse (lit "h/n/m:t")) = some [2] ∧
    (s.cache.resolve id (fun _ => none) (lit "h/n/m:t") .ok).2 = .ok [1] :=
  ⟨afterRelinked (.link (lit "h/n/m:t") [2] .ok), reachable_run _
    (by decide), by decide, by decide, by decide⟩

end Run

end DiskCache

end Prismalama.Ollama
