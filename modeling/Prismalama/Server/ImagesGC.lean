import Prismalama.Server.Images

/-!
# Collecting layers (`server/images.go`, `manifest/manifest.go`, `manifest/layer.go`)

Layers are collected when no readable manifest lists their digests. The lists are
compared as strings, while a colon and a dash in a digest name the same file: where
digests of one file are spelled alike, and what is downloaded for a manifest passes its
check, no file a manifest needs is deleted and none that could be is left (`collect_safe`).
-/

namespace Prismalama.Server.Images

open Prismalama.Lib Prismalama.Ollama

/-! ## Digests and files -/

theorem dash_eq_self {c : UInt8} (h : isHex c = true) : dash c = c := by
  unfold isHex at h
  unfold dash
  grind

theorem colon_eq_self {c : UInt8} (h : isHex c = true) : colon c = c := by
  unfold isHex at h
  unfold colon
  grind

theorem map_eq_self {f : UInt8 → UInt8} {s : GoString} (h : ∀ c ∈ s, f c = c) : s.map f = s := by
  have hmap := List.map_congr_left h
  rwa [List.map_id'] at hmap

theorem isDigest_iff {s : GoString} : isDigest s = true ↔ s.take 6 = lit "sha256" ∧
    (s[6]? = some 0x3A ∨ s[6]? = some 0x2D) ∧ (s.drop 7).length = 64 ∧
      ∀ c ∈ s.drop 7, isHex c = true := by
  simp only [isDigest, Bool.and_eq_true, Bool.or_eq_true, beq_iff_eq, List.all_eq_true, and_assoc]

/-- The name of the file of a digest is the digest spelled with a dash. -/
theorem isDigest_nameDigest {s : GoString} (h : isDigest s = true) :
    isDigest (nameDigest (s.map dash)) = true := by
  obtain ⟨hfront, hsep, hlen, hhex⟩ := isDigest_iff.mp h
  have hdrop : (nameDigest (s.map dash)).drop 7 = s.drop 7 := by
    rw [nameDigest, ← List.map_drop, ← List.map_drop,
      map_eq_self fun c hc => dash_eq_self (hhex c hc),
      map_eq_self fun c hc => colon_eq_self (hhex c hc)]
  refine isDigest_iff.mpr ⟨?_, .inl ?_, hdrop ▸ hlen, hdrop ▸ hhex⟩
  · rw [nameDigest, ← List.map_take, ← List.map_take, hfront]
    decide
  · rw [nameDigest, List.getElem?_map, List.getElem?_map]
    rcases hsep with hsep | hsep <;> rw [hsep] <;> rfl

theorem blobsPath_eq_some {k p : GoString} (h : blobsPath k = some p) :
    (k = [] ∨ isDigest k = true) ∧ p = k.map dash := by
  rw [blobsPath] at h
  split at h
  · exact ⟨‹_›, (Option.some.inj h).symm⟩
  · cases h

theorem blobsPath_nameDigest {k p : GoString} (h : blobsPath k = some p) :
    (blobsPath (nameDigest p)).isSome = true := by
  obtain ⟨hk, rfl⟩ := blobsPath_eq_some h
  rcases hk with rfl | hk
  · rfl
  · rw [blobsPath, if_pos (.inr (isDigest_nameDigest hk))]
    rfl

/-! ## What a removal does -/

theorem lookup_osRemove (fails : GoString → Bool) (blobs : Blobs) (p q : GoString) :
    AList.lookup q (osRemove fails blobs p).1 =
      if q = p ∧ fails p = false then none else AList.lookup q blobs := by
  simp only [osRemove]
  split
  · rename_i hnone
    split
    · rename_i heq
      rw [heq.1]
      exact Option.isNone_iff_eq_none.mp hnone
    · rfl
  · split
    · rename_i hfails
      rw [if_neg fun heq => by rw [hfails] at heq; cases heq.2]
    · rename_i hfails
      show AList.lookup q (AList.erase p blobs) = _
      rw [GoMap.lookup_erase_ite, Bool.eq_false_of_not_eq_true hfails]
      simp only [and_true]

/-- The files of some digests are removed, one after the other. -/
def removeEach (fails : GoString → Bool) (path : GoString → Option GoString)
    (ks : List GoString) (blobs : Blobs) : Blobs :=
  ks.foldl (fun blobs k => (path k).elim blobs fun p => (osRemove fails blobs p).1) blobs

section RemoveEach

variable {fails : GoString → Bool} {path : GoString → Option GoString} {p : GoString}

theorem removeEach_cons (k : GoString) (ks : List GoString) (blobs : Blobs) :
    removeEach fails path (k :: ks) blobs =
      removeEach fails path ks ((path k).elim blobs fun p => (osRemove fails blobs p).1) := rfl

theorem lookup_removeEach (ks : List GoString) (blobs : Blobs) :
    AList.lookup p (removeEach fails path ks blobs) = AList.lookup p blobs ∨
      AList.lookup p (removeEach fails path ks blobs) = none ∧ fails p = false ∧
        ∃ k ∈ ks, path k = some p := by
  induction ks generalizing blobs with
  | nil => exact .inl rfl
  | cons k ks ih =>
    rw [removeEach_cons]
    cases hk : path k with
    | none =>
      rcases ih blobs with hkept | ⟨hgone, hfails, k', hk', hpath⟩
      · exact .inl hkept
      · exact .inr ⟨hgone, hfails, k', List.mem_cons_of_mem _ hk', hpath⟩
    | some q =>
      rw [Option.elim_some]
      rcases ih (osRemove fails blobs q).1 with hkept | ⟨hgone, hfails, k', hk', hpath⟩
      · rw [hkept, lookup_osRemove]
        split
        · rename_i heq
          exact .inr ⟨rfl, heq.1 ▸ heq.2, k, List.mem_cons_self, heq.1 ▸ hk⟩
        · exact .inl rfl
      · exact .inr ⟨hgone, hfails, k', List.mem_cons_of_mem _ hk', hpath⟩

theorem lookup_removeEach_none {ks : List GoString} {blobs : Blobs}
    (h : AList.lookup p blobs = none) : AList.lookup p (removeEach fails path ks blobs) = none := by
  rcases @lookup_removeEach fails path p ks blobs with hkept | ⟨hgone, -⟩
  · rw [hkept, h]
  · exact hgone

theorem removeEach_gone {ks : List GoString} {blobs : Blobs} {k : GoString} (hk : k ∈ ks)
    (hpath : path k = some p) (hfails : fails p = false) :
    AList.lookup p (removeEach fails path ks blobs) = none := by
  induction ks generalizing blobs with
  | nil => cases hk
  | cons k' ks ih =>
    rw [removeEach_cons]
    rcases List.mem_cons.mp hk with rfl | hk
    · refine lookup_removeEach_none ?_
      rw [hpath]
      show AList.lookup p (osRemove fails blobs p).1 = none
      rw [lookup_osRemove, if_pos ⟨rfl, hfails⟩]
    · exact ih hk

end RemoveEach

/-! ## Collections -/

/-- A collection: what is listed, what may go, and which files cannot be removed. -/
structure Collection where
  manifests : Manifests
  candidates : List GoString
  fails : GoString → Bool

/-- Some digest that a readable manifest lists names the file. -/
def Refers (ms : Manifests) (p : GoString) : Prop :=
  ∃ m ∈ readable ms, ∃ k ∈ m.digests, blobsPath k = some p

instance (ms : Manifests) (p : GoString) : Decidable (Refers ms p) :=
  inferInstanceAs (Decidable (∃ m ∈ readable ms, _))

/-- The collection a step makes, if it makes one. -/
def State.collection (s : State) : Label → Option Collection
  | .install .ok false fails => s.call.map fun c =>
      ⟨AList.insert c.name (some c.mf) s.manifests,
        if c.name.isFullyQualified = true then c.unused else [], fails⟩
  | .delete n true fails => (parseNamedManifest s.manifests n).map fun m =>
      ⟨AList.erase n s.manifests, m.digests, fails⟩
  | .removeLayer l fails => some ⟨s.manifests, [l.digest], fails⟩
  | .prune old fails => some ⟨s.manifests, pruneCandidates old s.blobs, fails⟩
  | _ => none

/-- The layer a call is to download. -/
def State.nextLayer (s : State) : Option Layer :=
  s.call.bind fun c =>
    match c.stage with
    | .downloading (l :: _) => some l
    | _ => none

/-- A download into a file that a readable manifest refers to brings what `verifyBlob` lets
through: the digest has a colon and is in lower case, and the bytes have it. So does one
that ends behind its call, into the file of a layer that the next call has downloaded. -/
def VerifiesReferred (sum : File → List UInt8) (s : State) : Label → Prop
  | .download (.done bytes) => ∀ l ∈ s.nextLayer, ∀ p ∈ blobsPath l.digest,
      AList.lookup p s.blobs = none → Refers s.manifests p →
        l.digest = lit "sha256:" ++ hex (sum bytes)
  | .background digest (some bytes) => ∀ c ∈ s.call, ∀ l ∈ c.mf.allLayers,
      AList.lookup l.digest c.skipVerify = some false → ∀ p ∈ blobsPath l.digest,
        blobsPath digest = some p → Refers s.manifests p →
          l.digest = lit "sha256:" ++ hex (sum bytes)
  | _ => True

instance (sum : File → List UInt8) (s : State) : DecidablePred (VerifiesReferred sum s)
  | .download (.done bytes) => inferInstanceAs (Decidable (∀ l ∈ s.nextLayer,
      ∀ p ∈ blobsPath l.digest, AList.lookup p s.blobs = none → Refers s.manifests p →
        l.digest = lit "sha256:" ++ hex (sum bytes)))
  | .background _ (some _) => inferInstanceAs (Decidable (∀ c ∈ s.call, _))
  | .download .failed | .download .cancelled | .background _ none | .pull _ _ | .verify _ _
  | .transfer _ _ | .install _ _ _ | .stop | .delete _ _ _ | .removeLayer _ _ | .copy _ _ _
  | .prune _ _ => .isTrue trivial

/-- A candidate that names the file of a listed digest is that digest, or another one that
is listed; and what is downloaded for a listed digest passes its check. -/
def SpelledAlike (sum : File → List UInt8) (s : State) (a : Label) : Prop :=
  (∀ g ∈ s.collection a, ∀ k ∈ g.candidates, ∀ p ∈ blobsPath k,
      Refers g.manifests p → InUse g.manifests k) ∧ VerifiesReferred sum s a

instance (sum : File → List UInt8) (s : State) (a : Label) : Decidable (SpelledAlike sum s a) :=
  inferInstanceAs (Decidable ((∀ g ∈ s.collection a, _) ∧ _))

/-- No file is gone that a readable manifest refers to. -/
def Safe (s s' : State) : Prop :=
  ∀ p, (AList.lookup p s.blobs).isSome = true → Refers s'.manifests p →
    (AList.lookup p s'.blobs).isSome = true

/-- The candidates of a collection that no readable manifest refers to are gone, if their
files can be removed. -/
def Complete (s : State) (a : Label) (s' : State) : Prop :=
  ∀ g ∈ s.collection a, (∀ p, g.fails p = false) → (∀ k ∈ g.candidates, isDigest k = true) →
    ∀ k ∈ g.candidates, ∀ p ∈ blobsPath k, ¬Refers g.manifests p → AList.lookup p s'.blobs = none

theorem digests_eq {m : Manifest} : m.digests =
    (m.layers ++ if m.config.digest ≠ [] then [m.config] else []).map Layer.digest := rfl

/-- A digest in use is one that is referred to, if it is not the empty one. -/
theorem refers_of_inUse {ms : Manifests} {k p : GoString} (huse : InUse ms k)
    (hpath : blobsPath k = some p) (hne : k ≠ []) : Refers ms p := by
  obtain ⟨m, hm, huses⟩ := huse
  refine ⟨m, hm, k, ?_, hpath⟩
  rw [digests_eq, List.map_append, List.mem_append]
  rcases huses with ⟨l, hl, heq⟩ | heq
  · exact .inl (List.mem_map.mpr ⟨l, hl, heq⟩)
  · rw [if_pos (heq ▸ hne)]
    exact .inr (List.mem_singleton.mpr heq.symm)

theorem ne_nil_of_isDigest {k : GoString} (h : isDigest k = true) : k ≠ [] := by
  rintro rfl
  cases h

section Collect

variable {fails : GoString → Bool} {ms : Manifests} {p : GoString}

/-- Where only files of candidates that are not in use go, none goes that is needed. -/
theorem isSome_of_collected {cands : List GoString} {blobs blobs' : Blobs}
    (halike : ∀ k ∈ cands, ∀ p ∈ blobsPath k, Refers ms p → InUse ms k)
    (hkept : AList.lookup p blobs' = AList.lookup p blobs ∨
      ∃ k ∈ cands, ¬InUse ms k ∧ blobsPath k = some p)
    (hsome : (AList.lookup p blobs).isSome = true) (hrefers : Refers ms p) :
    (AList.lookup p blobs').isSome = true := by
  rcases hkept with hkept | ⟨k, hk, hunused, hpath⟩
  · rw [hkept]
    exact hsome
  · exact absurd (halike k hk p hpath hrefers) hunused

theorem deleteUnusedLayers_eq (deleteMap : List GoString) (blobs : Blobs) :
    deleteUnusedLayers fails ms deleteMap blobs =
      removeEach fails blobsPath (deleteMap.filter fun k => decide (¬InUse ms k)) blobs := rfl

theorem deleteUnusedLayers_kept (deleteMap : List GoString) (blobs : Blobs) :
    AList.lookup p (deleteUnusedLayers fails ms deleteMap blobs) = AList.lookup p blobs ∨
      fails p = false ∧ ∃ k ∈ deleteMap, ¬InUse ms k ∧ blobsPath k = some p := by
  rw [deleteUnusedLayers_eq]
  rcases lookup_removeEach _ blobs with hkept | ⟨-, hfails, k, hk, hpath⟩
  · exact .inl hkept
  · obtain ⟨hmem, hunused⟩ := List.mem_filter.mp hk
    exact .inr ⟨hfails, k, hmem, of_decide_eq_true hunused, hpath⟩

theorem deleteUnusedLayers_gone {deleteMap : List GoString} {blobs : Blobs} {k : GoString}
    (hk : k ∈ deleteMap) (hunused : ¬InUse ms k) (hpath : blobsPath k = some p)
    (hfails : fails p = false) :
    AList.lookup p (deleteUnusedLayers fails ms deleteMap blobs) = none := by
  rw [deleteUnusedLayers_eq]
  exact removeEach_gone (List.mem_filter.mpr ⟨hk, decide_eq_true hunused⟩) hpath hfails

/-- Pruning keeps the files of digests that are in use, and those that have no names of
digests are no one's. -/
theorem pruneLayers_kept (old : GoString → Bool) (blobs : Blobs)
    (hname : (blobsPath (nameDigest p)).isSome = true) :
    AList.lookup p (pruneLayers fails old ms blobs) = AList.lookup p blobs ∨
      ∃ k ∈ pruneCandidates old blobs, ¬InUse ms k ∧ blobsPath k = some p := by
  have hdirect := @lookup_removeEach fails some p
    (blobs.keys.filter fun p => old p && (blobsPath (nameDigest p)).isNone) blobs
  rcases @deleteUnusedLayers_kept fails ms p (pruneCandidates old blobs)
    (removeEach fails some (blobs.keys.filter fun p => old p && (blobsPath (nameDigest p)).isNone)
      blobs) with hkept | ⟨-, hgone⟩
  · rcases hdirect with hsame | ⟨-, -, k, hk, hpath⟩
    · exact .inl (hkept.trans hsame)
    · -- a file with a digest for its name is not removed at once
      obtain rfl := Option.some.inj hpath
      have hnone := (Bool.and_eq_true_iff.mp (List.mem_filter.mp hk).2).2
      rw [Option.isNone_iff_eq_none] at hnone
      rw [hnone] at hname
      cases hname
  · exact .inr hgone

theorem lookup_removeLoop (ls : List Layer) (blobs : Blobs) :
    AList.lookup p (removeLoop fails ms ls blobs).1 = AList.lookup p blobs ∨
      AList.lookup p (removeLoop fails ms ls blobs).1 = none ∧
        ∃ l ∈ ls, l.digest ≠ [] ∧ ¬InUse ms l.digest ∧ blobsPath l.digest = some p := by
  induction ls generalizing blobs with
  | nil => exact .inl rfl
  | cons l ls ih =>
    have hlater : ∀ blobs, AList.lookup p (removeLoop fails ms ls blobs).1 = AList.lookup p blobs ∨
        AList.lookup p (removeLoop fails ms ls blobs).1 = none ∧
          ∃ l' ∈ l :: ls, l'.digest ≠ [] ∧ ¬InUse ms l'.digest ∧ blobsPath l'.digest = some p := by
      intro blobs
      rcases ih blobs with hkept | ⟨hgone, l', hl', hrest⟩
      · exact .inl hkept
      · exact .inr ⟨hgone, l', List.mem_cons_of_mem _ hl', hrest⟩
    simp only [removeLoop]
    split
    · exact hlater blobs
    rename_i hne
    split
    · exact hlater blobs
    rename_i hunused
    cases hpath : blobsPath l.digest with
    | none => exact .inl rfl
    | some q =>
      have hremoved : AList.lookup p (osRemove fails blobs q).1 = AList.lookup p blobs ∨
          AList.lookup p (osRemove fails blobs q).1 = none ∧
            ∃ l' ∈ l :: ls, l'.digest ≠ [] ∧ ¬InUse ms l'.digest ∧ blobsPath l'.digest = some p := by
        rw [lookup_osRemove]
        split
        · rename_i heq
          exact .inr ⟨rfl, l, List.mem_cons_self, hne, hunused, heq.1 ▸ hpath⟩
        · exact .inl rfl
      simp only
      split
      · exact hremoved
      · rcases hlater (osRemove fails blobs q).1 with hkept | hgone
        · rw [hkept]
          exact hremoved
        · exact .inr hgone

theorem osRemove_snd (hfails : ∀ p, fails p = false) (blobs : Blobs) (p : GoString) :
    (osRemove fails blobs p).2 ≠ .failed := by
  simp only [osRemove]
  split
  · nofun
  · rw [if_neg (by rw [hfails]; exact Bool.false_ne_true)]
    nofun

/-- Without a failure all layers of the loop go that are not in use. -/
theorem removeLoop_gone (hfails : ∀ p, fails p = false) {ls : List Layer}
    (hdigest : ∀ l ∈ ls, l.digest = [] ∨ isDigest l.digest = true) {blobs : Blobs} {l : Layer}
    (hl : l ∈ ls) (hne : l.digest ≠ []) (hunused : ¬InUse ms l.digest)
    (hpath : blobsPath l.digest = some p) :
    AList.lookup p (removeLoop fails ms ls blobs).1 = none := by
  induction ls generalizing blobs with
  | nil => cases hl
  | cons l' ls ih =>
    have htail : ∀ l ∈ ls, l.digest = [] ∨ isDigest l.digest = true :=
      fun l hl => hdigest l (List.mem_cons_of_mem _ hl)
    simp only [removeLoop]
    rcases List.mem_cons.mp hl with rfl | hl
    · rw [if_neg hne, if_neg hunused, hpath]
      simp only
      rw [if_neg (osRemove_snd hfails blobs p)]
      rcases @lookup_removeLoop fails ms p ls (osRemove fails blobs p).1 with
        hkept | ⟨hgone, -⟩
      · rw [hkept, lookup_osRemove, if_pos ⟨rfl, hfails p⟩]
      · exact hgone
    · split
      · exact ih htail hl
      rename_i hne'
      split
      · exact ih htail hl
      have hsome : blobsPath l'.digest = some (l'.digest.map dash) := by
        rw [blobsPath, if_pos]
        exact hdigest l' List.mem_cons_self
      rw [hsome]
      simp only
      rw [if_neg (osRemove_snd hfails blobs _)]
      exact ih htail hl

theorem layer_of_mem_digests {m : Manifest} {k : GoString} (hk : k ∈ m.digests) :
    ∃ l ∈ m.layers ++ [m.config], l.digest = k := by
  rw [digests_eq, List.map_append, List.mem_append] at hk
  rcases hk with hk | hk
  · obtain ⟨l, hl, rfl⟩ := List.mem_map.mp hk
    exact ⟨l, List.mem_append_left _ hl, rfl⟩
  · split at hk
    · obtain rfl := List.mem_singleton.mp hk
      exact ⟨m.config, List.mem_append_right _ List.mem_cons_self, rfl⟩
    · cases hk

theorem mem_digests_of_layer {m : Manifest} {l : Layer} (hl : l ∈ m.layers ++ [m.config])
    (hne : l.digest ≠ []) : l.digest ∈ m.digests := by
  rw [digests_eq, List.map_append, List.mem_append]
  rcases List.mem_append.mp hl with hl | hl
  · exact .inl (List.mem_map.mpr ⟨l, hl, rfl⟩)
  · obtain rfl := List.mem_singleton.mp hl
    rw [if_pos hne]
    exact .inr List.mem_cons_self

theorem removeLayers_kept (m : Manifest) (blobs : Blobs) :
    AList.lookup p (m.removeLayers fails ms blobs).1 = AList.lookup p blobs ∨
      ∃ k ∈ m.digests, ¬InUse ms k ∧ blobsPath k = some p := by
  rcases @lookup_removeLoop fails ms p (m.layers ++ [m.config]) blobs with
    hkept | ⟨-, l, hl, hne, hunused, hpath⟩
  · exact .inl hkept
  · exact .inr ⟨l.digest, mem_digests_of_layer hl hne, hunused, hpath⟩

theorem remove_kept (l : Layer) (blobs : Blobs) :
    AList.lookup p (l.remove fails ms blobs).1 = AList.lookup p blobs ∨
      ∃ k ∈ [l.digest], ¬InUse ms k ∧ blobsPath k = some p := by
  simp only [Layer.remove]
  split
  · exact .inl rfl
  split
  · exact .inl rfl
  rename_i hunused
  cases hpath : blobsPath l.digest with
  | none => exact .inl rfl
  | some q =>
    simp only
    rw [lookup_osRemove]
    split
    · rename_i heq
      exact .inr ⟨l.digest, List.mem_cons_self, hunused, heq.1 ▸ hpath⟩
    · exact .inl rfl

end Collect

/-! ## The steps -/

section Steps

variable {sum : File → List UInt8} {s s' : State}

theorem nextLayer_eq {c : Call} {l : Layer} {rest : List Layer} (hcall : s.call = some c)
    (hstage : c.stage = .downloading (l :: rest)) : s.nextLayer = some l := by
  rw [State.nextLayer, hcall, Option.bind_some, hstage]

theorem call_install (c : Call) (w : Write) (noPrune : Bool) (fails : GoString → Bool) :
    (s.install c w noPrune fails).call = none := by
  simp only [State.install]
  split
  · rfl
  · cases w <;> rfl

theorem call_delete (n : ModelName) (removed : Bool) (fails : GoString → Bool) :
    (s.delete n removed fails).call = s.call := by
  simp only [State.delete]
  cases parseNamedManifest s.manifests n with
  | none => rfl
  | some m => cases removed <;> rfl

theorem call_copy (src dst : ModelName) (w : Write) : (s.copy src dst w).call = s.call := by
  simp only [State.copy]
  split
  · rfl
  cases AList.lookup src s.manifests with
  | none => rfl
  | some m => cases w <;> rfl

/-- A step ends the call or is one of the call, of a new one or of a download behind it. -/
theorem step_cases {a : Label} (hstep : step sum s a = some s') :
    s'.call = none ∨
    (s'.call = s.call ∧ s'.blobs = s.blobs ∧ s'.manifests = s.manifests) ∨
    (∃ n mf deleteMap, s' = { s with
      call := some (if hasTensorLayers mf.allLayers = true
        then ⟨n, mf, deleteMap, ∅, .transferring⟩
        else Call.next ⟨n, mf, deleteMap, ∅, .transferring⟩ mf.allLayers) }) ∨
    (∃ c l rest o, s.call = some c ∧ c.stage = .downloading (l :: rest) ∧ a = .download o ∧
      s' = s.download c l rest o) ∨
    (∃ c l rest opened fails, s.call = some c ∧ c.stage = .verifying (l :: rest) ∧
      s' = s.verify sum c l rest opened fails) ∨
    (∃ c blobs, s.call = some c ∧ c.stage = .transferring ∧ s' = { s with
      blobs := blobs
      call := some { c with deleteMap := [], stage := .verifying [] } }) ∨
    ∃ digest p f, a = .background digest (some f) ∧ blobsPath digest = some p ∧
      s' = { s.finished digest with blobs := AList.insert p f s.blobs } := by
  have hidle : ¬s.call.isSome = true → s.call = none := Option.not_isSome_iff_eq_none.mp
  cases a with
  | pull n reply =>
    simp only [step] at hstep
    split at hstep
    · cases hstep
    · cases reply with
      | none =>
        obtain rfl := Option.some.inj hstep
        exact .inr (.inl ⟨rfl, rfl, rfl⟩)
      | some mf =>
        obtain rfl := Option.some.inj hstep
        exact .inr (.inr (.inl ⟨n, mf, _, rfl⟩))
  | download o =>
    simp only [step] at hstep
    split at hstep
    · rename_i c hcall
      split at hstep
      · rename_i l rest hstage
        obtain rfl := Option.some.inj hstep
        exact .inr (.inr (.inr (.inl ⟨c, l, rest, o, hcall, hstage, rfl, rfl⟩)))
      · cases hstep
    · cases hstep
  | verify opened fails =>
    simp only [step] at hstep
    split at hstep
    · rename_i c hcall
      split at hstep
      · rename_i l rest hstage
        obtain rfl := Option.some.inj hstep
        exact .inr (.inr (.inr (.inr (.inl ⟨c, l, rest, opened, fails, hcall, hstage, rfl⟩))))
      · cases hstep
    · cases hstep
  | transfer files ok =>
    simp only [step] at hstep
    split at hstep
    · rename_i c hcall
      split at hstep
      · rename_i hguard
        obtain rfl := Option.some.inj hstep
        cases ok with
        | false => exact .inl rfl
        | true => exact .inr (.inr (.inr (.inr (.inr (.inl ⟨c, _, hcall, hguard.1, rfl⟩)))))
      · cases hstep
    · cases hstep
  | install w noPrune fails =>
    simp only [step] at hstep
    split at hstep
    · split at hstep
      · obtain rfl := Option.some.inj hstep
        exact .inl (call_install _ w noPrune fails)
      · cases hstep
    · cases hstep
  | background digest bytes =>
    simp only [step] at hstep
    split at hstep
    · split at hstep
      · rename_i p f hpath
        obtain rfl := Option.some.inj hstep
        exact .inr (.inr (.inr (.inr (.inr (.inr ⟨digest, p, f, rfl, hpath, rfl⟩)))))
      · obtain rfl := Option.some.inj hstep
        exact .inr (.inl ⟨rfl, rfl, rfl⟩)
    · cases hstep
  | stop =>
    obtain rfl := Option.some.inj hstep
    exact .inl rfl
  | delete n removed fails =>
    simp only [step] at hstep
    split at hstep
    · cases hstep
    · obtain rfl := Option.some.inj hstep
      exact .inl ((call_delete n removed fails).trans (hidle ‹_›))
  | removeLayer l fails =>
    simp only [step] at hstep
    split at hstep
    · cases hstep
    · obtain rfl := Option.some.inj hstep
      exact .inl (hidle ‹_›)
  | copy src dst w =>
    simp only [step] at hstep
    split at hstep
    · cases hstep
    · obtain rfl := Option.some.inj hstep
      exact .inl ((call_copy src dst w).trans (hidle ‹_›))
  | prune old fails =>
    simp only [step] at hstep
    split at hstep
    · cases hstep
    · obtain rfl := Option.some.inj hstep
      exact .inl (hidle ‹_›)

/-! ### What a call has downloaded -/

/-- Every layer of a call is still to come or is there, and the ones it verifies are its
own. -/
def Call.Settles (c : Call) : Stage → Prop
  | .downloading todo => ∀ l ∈ c.mf.allLayers, l ∈ todo ∨
      (AList.lookup l.digest c.skipVerify).isSome = true
  | .verifying todo => ∀ l ∈ todo, l ∈ c.mf.allLayers ∧
      (AList.lookup l.digest c.skipVerify).isSome = true
  | .transferring => c.skipVerify = ∅

/-- What a call has downloaded is there, and passes its check if it is referred to. -/
structure Call.Fetched (sum : File → List UInt8) (s : State) (c : Call) : Prop where
  file : ∀ l ∈ c.mf.allLayers, AList.lookup l.digest c.skipVerify = some false →
    ∀ p ∈ blobsPath l.digest, ∃ f ∈ AList.lookup p s.blobs,
      Refers s.manifests p → verifies sum l.digest f = true
  settles : c.Settles c.stage

def Fetches (sum : File → List UInt8) (s : State) : Prop := ∀ c ∈ s.call, c.Fetched sum s

theorem Fetches.of_none (h : s.call = none) : Fetches sum s := by
  intro c hc
  rw [h] at hc
  cases hc

theorem mem_cached {c : Call} {l : Layer} {rest : List Layer} {hit : Bool}
    (h : ∀ l' ∈ c.mf.allLayers, l' ∈ l :: rest ∨
      (AList.lookup l'.digest c.skipVerify).isSome = true) :
    ∀ l' ∈ c.mf.allLayers, l' ∈ rest ∨
      (AList.lookup l'.digest (AList.insert l.digest hit c.skipVerify)).isSome = true := by
  intro l' hl'
  rcases h l' hl' with hmem | hsome
  · rcases List.mem_cons.mp hmem with rfl | hmem
    · rw [AList.lookup_insert]
      exact .inr rfl
    · exact .inl hmem
  · exact .inr (GoMap.isSome_lookup_insert hsome)

theorem settles_cached {c : Call} {l : Layer} {rest : List Layer} {hit : Bool}
    (hstage : c.stage = .downloading (l :: rest)) (h : c.Settles c.stage) :
    (c.cached l rest hit).Settles (c.cached l rest hit).stage := by
  rw [hstage] at h
  have hkey := @mem_cached c l rest hit h
  simp only [Call.cached, Call.next]
  split
  · rename_i hrest
    subst hrest
    exact fun l' hl' => ⟨hl', (hkey l' hl').resolve_left List.not_mem_nil⟩
  · exact hkey

theorem verifies_self (sum : File → List UInt8) {digest : GoString} {f : File}
    (h : digest = lit "sha256:" ++ hex (sum f)) : verifies sum digest f = true :=
  beq_iff_eq.mpr h

theorem fetches_download {c : Call} {l : Layer} {rest : List Layer} {o : Download}
    (hinv : Fetches sum s) (hcall : s.call = some c) (hstage : c.stage = .downloading (l :: rest))
    (hsound : VerifiesReferred sum s (.download o)) : Fetches sum (s.download c l rest o) := by
  simp only [State.download]
  split
  · exact .of_none rfl
  cases hpath : blobsPath l.digest with
  | none => exact .of_none rfl
  | some p =>
    simp only
    split
    · split
      · exact .of_none rfl
      -- a layer that is found is not verified
      intro c' hc'
      obtain rfl := Option.some.inj hc'
      obtain ⟨hfile, hsettles⟩ := hinv c hcall
      refine ⟨fun l' hl' hfalse => ?_, settles_cached hstage hsettles⟩
      rw [show (c.cached l rest true).skipVerify = AList.insert l.digest true c.skipVerify from rfl,
        GoMap.lookup_insert_ite] at hfalse
      split at hfalse
      · cases Option.some.inj hfalse
      · exact hfile l' hl' hfalse
    · rename_i hmissing
      have hnone : AList.lookup p s.blobs = none := Option.not_isSome_iff_eq_none.mp hmissing
      cases o with
      | failed => exact .of_none rfl
      | cancelled => exact .of_none rfl
      | done bytes =>
        intro c' hc'
        obtain rfl := Option.some.inj hc'
        obtain ⟨hfile, hsettles⟩ := hinv c hcall
        refine ⟨fun l' hl' hfalse p' hp' => ?_, settles_cached hstage hsettles⟩
        rw [show (c.cached l rest false).skipVerify = AList.insert l.digest false c.skipVerify
          from rfl, GoMap.lookup_insert_ite] at hfalse
        split at hfalse
        · rename_i hdigest
          rw [hdigest] at hp' ⊢
          obtain rfl : p = p' := Option.some.inj (hpath.symm.trans hp')
          refine ⟨bytes, AList.lookup_insert _, fun hrefers => verifies_self sum ?_⟩
          exact hsound l (nextLayer_eq hcall hstage) p hpath hnone hrefers
        · -- the new file was not there, so it is no other layer's
          obtain ⟨f, hf, hverifies⟩ := hfile l' hl' hfalse p' hp'
          have hne : p' ≠ p := by
            rintro rfl
            rw [show AList.lookup p' s.blobs = some f from hf] at hnone
            cases hnone
          exact ⟨f, (AList.lookup_insert_ne hne).trans hf, hverifies⟩

theorem fetches_verify {c : Call} {l : Layer} {rest : List Layer} {opened : Bool}
    {fails : GoString → Bool} (hinv : Fetches sum s) (hcall : s.call = some c)
    (hstage : c.stage = .verifying (l :: rest)) :
    Fetches sum (s.verify sum c l rest opened fails) := by
  have hnext : Fetches sum { s with call := some { c with stage := .verifying rest } } := by
    intro c' hc'
    obtain rfl := Option.some.inj hc'
    obtain ⟨hfile, hsettles⟩ := hinv c hcall
    rw [hstage] at hsettles
    exact ⟨hfile, fun l' hl' => hsettles l' (List.mem_cons_of_mem _ hl')⟩
  simp only [State.verify]
  split
  · exact hnext
  split
  · exact .of_none rfl
  split
  · exact .of_none rfl
  split
  · exact .of_none rfl
  split
  · exact hnext
  · exact .of_none rfl

theorem fetches_pull (n : ModelName) (mf : Manifest) (deleteMap : List GoString) :
    Fetches sum { s with
      call := some (if hasTensorLayers mf.allLayers = true
        then ⟨n, mf, deleteMap, ∅, .transferring⟩
        else Call.next ⟨n, mf, deleteMap, ∅, .transferring⟩ mf.allLayers) } := by
  have hnone : ∀ l : Layer, AList.lookup l.digest (∅ : GoMap GoString Bool) ≠ some false := by
    intro l h
    rw [GoMap.lookup_empty] at h
    cases h
  intro c hc
  obtain rfl := Option.some.inj hc
  split
  · exact ⟨fun l _ hfalse => absurd hfalse (hnone l), rfl⟩
  · refine ⟨fun l _ hfalse => absurd hfalse (hnone l), ?_⟩
    simp only [Call.next]
    split
    · rename_i hnil
      intro l hl
      rw [show (Call.mk n mf deleteMap ∅ (.verifying mf.allLayers)).mf.allLayers = [] from hnil] at hl
      cases hl
    · exact fun l hl => .inl hl

theorem fetches_background {digest p : GoString} {f : File} (hinv : Fetches sum s)
    (hpath : blobsPath digest = some p)
    (hsound : VerifiesReferred sum s (.background digest (some f))) :
    Fetches sum { s.finished digest with blobs := AList.insert p f s.blobs } := by
  intro c hc
  obtain ⟨hfile, hsettles⟩ := hinv c hc
  refine ⟨fun l hl hfalse p' hp' => ?_, hsettles⟩
  by_cases heq : p' = p
  · subst heq
    exact ⟨f, AList.lookup_insert _, fun hrefers =>
      verifies_self sum (hsound c hc l hl hfalse p' hp' hpath hrefers)⟩
  · obtain ⟨g, hg, hverifies⟩ := hfile l hl hfalse p' hp'
    exact ⟨g, (AList.lookup_insert_ne heq).trans hg, hverifies⟩

theorem step_fetches {a : Label} (hinv : Fetches sum s) (hsound : VerifiesReferred sum s a)
    (hstep : step sum s a = some s') : Fetches sum s' := by
  rcases step_cases hstep with hnone | ⟨hcall, hblobs, hmanifests⟩ | ⟨n, mf, deleteMap, rfl⟩ |
    ⟨c, l, rest, o, hcall, hstage, rfl, rfl⟩ | ⟨c, l, rest, opened, fails, hcall, hstage, rfl⟩ |
    ⟨c, blobs, hcall, hstage, rfl⟩ | ⟨digest, p, f, rfl, hpath, rfl⟩
  · exact .of_none hnone
  · intro c hc
    obtain ⟨hfile, hsettles⟩ := hinv c (hcall ▸ hc)
    rw [← hblobs, ← hmanifests] at hfile
    exact ⟨hfile, hsettles⟩
  · exact fetches_pull n mf deleteMap
  · exact fetches_download hinv hcall hstage hsound
  · exact fetches_verify hinv hcall hstage
  · intro c' hc'
    obtain rfl := Option.some.inj hc'
    have hempty := (hinv c hcall).settles
    rw [hstage] at hempty
    refine ⟨fun l _ hfalse => ?_, nofun⟩
    rw [show c.skipVerify = ∅ from hempty, GoMap.lookup_empty] at hfalse
    cases hfalse
  · exact fetches_background hinv hpath hsound

/-! ### What a step loses -/

theorem Safe.of_blobs (h : s'.blobs = s.blobs) : Safe s s' := by
  intro p hsome _
  rw [h]
  exact hsome

theorem safe_download (c : Call) (l : Layer) (rest : List Layer) (o : Download) :
    Safe s (s.download c l rest o) := by
  simp only [State.download]
  split
  · exact .of_blobs rfl
  split
  · exact .of_blobs rfl
  split
  · split
    · exact .of_blobs rfl
    · exact .of_blobs rfl
  · cases o with
    | failed => exact .of_blobs rfl
    | cancelled => exact .of_blobs rfl
    | done bytes => exact fun p hsome _ => GoMap.isSome_lookup_insert hsome

theorem safe_verify {c : Call} {l : Layer} {rest : List Layer} {opened : Bool}
    {fails : GoString → Bool} (hinv : Fetches sum s) (hcall : s.call = some c)
    (hstage : c.stage = .verifying (l :: rest)) :
    Safe s (s.verify sum c l rest opened fails) := by
  simp only [State.verify]
  split
  · exact .of_blobs rfl
  rename_i hskip
  cases hpath : blobsPath l.digest with
  | none => exact .of_blobs rfl
  | some p =>
    simp only
    cases hf : AList.lookup p s.blobs with
    | none => exact .of_blobs rfl
    | some f =>
      simp only
      split
      · exact .of_blobs rfl
      split
      · exact .of_blobs rfl
      rename_i hwrong
      -- the blob was downloaded and is wrong, so it is none that is needed
      obtain ⟨hfile, hsettles⟩ := hinv c hcall
      rw [hstage] at hsettles
      obtain ⟨hl, hsome⟩ := hsettles l List.mem_cons_self
      have hfalse : AList.lookup l.digest c.skipVerify = some false := by
        obtain ⟨hit, hhit⟩ := Option.isSome_iff_exists.mp hsome
        cases hit with
        | true => exact absurd hhit hskip
        | false => exact hhit
      obtain ⟨g, hg, hverifies⟩ := hfile l hl hfalse p hpath
      obtain rfl : f = g := Option.some.inj (hf.symm.trans hg)
      intro q hq hrefers
      show (AList.lookup q (osRemove fails s.blobs p).1).isSome = true
      rw [lookup_osRemove, if_neg]
      · exact hq
      · rintro ⟨rfl, -⟩
        exact hwrong (hverifies hrefers)

theorem safe_install {c : Call} {w : Write} {noPrune : Bool} {fails : GoString → Bool}
    (hcall : s.call = some c) (halike : SpelledAlike sum s (.install w noPrune fails)) :
    Safe s (s.install c w noPrune fails) := by
  simp only [State.install]
  split
  · exact .of_blobs rfl
  rename_i hname
  cases w with
  | unopened => exact .of_blobs rfl
  | torn => exact .of_blobs rfl
  | ok =>
    cases noPrune with
    | true => exact .of_blobs rfl
    | false =>
      intro p hsome hrefers
      refine isSome_of_collected (fun k hk => ?_)
        ((deleteUnusedLayers_kept c.unused s.blobs).imp id And.right) hsome hrefers
      have hcollection := halike.1 ⟨AList.insert c.name (some c.mf) s.manifests, c.unused, fails⟩
      refine hcollection ?_ k hk
      rw [State.collection, hcall, Option.map_some, if_pos (Bool.eq_true_of_not_eq_false hname)]
      exact rfl

theorem safe_delete {n : ModelName} {removed : Bool} {fails : GoString → Bool}
    (halike : SpelledAlike sum s (.delete n removed fails)) :
    Safe s (s.delete n removed fails) := by
  simp only [State.delete]
  cases hm : parseNamedManifest s.manifests n with
  | none => exact .of_blobs rfl
  | some m =>
    cases removed with
    | false => exact .of_blobs rfl
    | true =>
      intro p hsome hrefers
      refine isSome_of_collected (fun k hk => ?_) (removeLayers_kept m s.blobs) hsome hrefers
      refine halike.1 ⟨AList.erase n s.manifests, m.digests, fails⟩ ?_ k hk
      rw [State.collection, hm]
      exact rfl

theorem safe_copy (src dst : ModelName) (w : Write) : Safe s (s.copy src dst w) := by
  simp only [State.copy]
  split
  · exact .of_blobs rfl
  split
  · exact .of_blobs rfl
  · cases w <;> exact .of_blobs rfl

theorem isSome_insertAll {p : GoString} (files : List (GoString × File)) (blobs : Blobs)
    (h : (AList.lookup p blobs).isSome = true) :
    (AList.lookup p
      (files.foldl (fun (blobs : Blobs) e => AList.insert e.1 e.2 blobs) blobs)).isSome = true := by
  induction files generalizing blobs with
  | nil => exact h
  | cons e files ih => exact ih _ (GoMap.isSome_lookup_insert h)

/-- A step loses nothing where the spelling agrees. -/
theorem step_safe {a : Label} (hinv : Fetches sum s) (hstep : step sum s a = some s')
    (halike : SpelledAlike sum s a) : Safe s s' := by
  cases a with
  | pull n reply =>
    simp only [step] at hstep
    split at hstep
    · cases hstep
    · split at hstep <;> obtain rfl := Option.some.inj hstep <;> exact .of_blobs rfl
  | download o =>
    simp only [step] at hstep
    split at hstep
    · split at hstep
      · obtain rfl := Option.some.inj hstep
        exact safe_download _ _ _ o
      · cases hstep
    · cases hstep
  | verify opened fails =>
    simp only [step] at hstep
    split at hstep
    · rename_i c hcall
      split at hstep
      · rename_i l rest hstage
        obtain rfl := Option.some.inj hstep
        exact safe_verify hinv hcall hstage
      · cases hstep
    · cases hstep
  | transfer files ok =>
    simp only [step] at hstep
    split at hstep
    · split at hstep
      · obtain rfl := Option.some.inj hstep
        exact fun p hsome _ => isSome_insertAll files s.blobs hsome
      · cases hstep
    · cases hstep
  | install w noPrune fails =>
    simp only [step] at hstep
    split at hstep
    · rename_i c hcall
      split at hstep
      · obtain rfl := Option.some.inj hstep
        exact safe_install hcall halike
      · cases hstep
    · cases hstep
  | background digest bytes =>
    simp only [step] at hstep
    split at hstep
    · split at hstep
      · obtain rfl := Option.some.inj hstep
        exact fun p hsome _ => GoMap.isSome_lookup_insert hsome
      · obtain rfl := Option.some.inj hstep
        exact .of_blobs rfl
    · cases hstep
  | stop =>
    obtain rfl := Option.some.inj hstep
    exact .of_blobs rfl
  | delete n removed fails =>
    simp only [step] at hstep
    split at hstep
    · cases hstep
    · obtain rfl := Option.some.inj hstep
      exact safe_delete halike
  | removeLayer l fails =>
    simp only [step] at hstep
    split at hstep
    · cases hstep
    · obtain rfl := Option.some.inj hstep
      intro p hsome hrefers
      exact isSome_of_collected (halike.1 _ rfl) (remove_kept l s.blobs) hsome hrefers
  | copy src dst w =>
    simp only [step] at hstep
    split at hstep
    · cases hstep
    · obtain rfl := Option.some.inj hstep
      exact safe_copy src dst w
  | prune old fails =>
    simp only [step] at hstep
    split at hstep
    · cases hstep
    · obtain rfl := Option.some.inj hstep
      intro p hsome hrefers
      have hrefers' : Refers s.manifests p := hrefers
      obtain ⟨m, -, k, -, hpath⟩ := hrefers'
      exact isSome_of_collected (halike.1 _ rfl)
        (pruneLayers_kept old s.blobs (blobsPath_nameDigest hpath)) hsome hrefers

/-- A collection leaves nothing that could go. -/
theorem step_complete {a : Label} (hstep : step sum s a = some s') : Complete s a s' := by
  intro g hg hfails hdigest k hk p hpath hrefers
  have hunused : ¬InUse g.manifests k := fun huse =>
    hrefers (refers_of_inUse huse hpath (ne_nil_of_isDigest (hdigest k hk)))
  cases a with
  | install w noPrune fails =>
    cases w <;> cases noPrune <;> try cases hg
    obtain ⟨c, hcall, rfl⟩ := Option.map_eq_some_iff.mp hg
    simp only [step, hcall] at hstep
    split at hstep
    · obtain rfl := Option.some.inj hstep
      simp only at hk
      split at hk
      · rename_i hname
        have hqualified : ¬c.name.isFullyQualified = false := by
          rw [hname]
          nofun
        simp only [State.install, if_neg hqualified]
        exact deleteUnusedLayers_gone hk hunused hpath (hfails p)
      · cases hk
    · cases hstep
  | delete n removed fails =>
    cases removed <;> try cases hg
    obtain ⟨m, hm, rfl⟩ := Option.map_eq_some_iff.mp hg
    simp only [step] at hstep
    split at hstep
    · cases hstep
    · obtain rfl := Option.some.inj hstep
      obtain ⟨l, hl, rfl⟩ := layer_of_mem_digests hk
      simp only [State.delete, hm]
      refine removeLoop_gone hfails (fun l' hl' => ?_) hl (ne_nil_of_isDigest (hdigest _ hk))
        hunused hpath
      by_cases hne : l'.digest = []
      · exact .inl hne
      · exact .inr (hdigest _ (mem_digests_of_layer hl' hne))
  | removeLayer l fails =>
    obtain rfl := Option.some.inj hg
    simp only [step] at hstep
    split at hstep
    · cases hstep
    · obtain rfl := Option.some.inj hstep
      obtain rfl := List.mem_singleton.mp hk
      simp only [Layer.remove, if_neg (ne_nil_of_isDigest (hdigest _ hk)), if_neg hunused]
      rw [show blobsPath l.digest = some p from hpath]
      simp only
      rw [lookup_osRemove, if_pos ⟨rfl, hfails p⟩]
  | prune old fails =>
    obtain rfl := Option.some.inj hg
    simp only [step] at hstep
    split at hstep
    · cases hstep
    · obtain rfl := Option.some.inj hstep
      exact deleteUnusedLayers_gone hk hunused hpath (hfails p)
  | _ => cases hg

end Steps

theorem fetches_invariant (sum : File → List UInt8) :
    ((sys sum).restrict (SpelledAlike sum)).Invariant (Fetches sum) := by
  refine TSys.Inductive.invariant ⟨fun s hs => .of_none hs.2, ?_⟩
  rintro s a s' hinv ⟨halike, hstep⟩
  exact step_fetches hinv halike.2 hstep

/-- In every run whose steps find the digests of a file spelled alike, and download for a
manifest what passes its check, no file goes that a readable manifest refers to, and a
collection leaves no candidate that none refers to. -/
theorem collect_safe {sum : File → List UInt8} {ts : List (State × Label × State)} {s : State}
    (h : ((sys sum).restrict (SpelledAlike sum)).Trace ts s) :
    ∀ t ∈ ts, Safe t.1 t.2.2 ∧ Complete t.1 t.2.1 t.2.2 := by
  refine h.forall_mem (Q := fun s a s' => Safe s s' ∧ Complete s a s') ?_
  rintro s a s' hreach ⟨halike, hstep⟩
  exact ⟨step_safe (fetches_invariant sum s hreach) hstep halike, step_complete hstep⟩

/-- A digest, with its separator. -/
def digestOf (sep : UInt8) : GoString := lit "sha256" ++ sep :: List.replicate 64 0x61

def modelName (model : String) : ModelName := ⟨lit "h", lit "n", lit model, lit "t"⟩

/-- A model whose configuration is its only layer. -/
def modelOf (digest : GoString) : Manifest := ⟨⟨lit "config", digest⟩, []⟩

/-- One blob, and two models of it. -/
def shared (first second : UInt8) : State where
  blobs := AList.insert (digestOf 0x2D) [1] ∅
  manifests := AList.insert (modelName "a") (some (modelOf (digestOf first)))
    (AList.insert (modelName "b") (some (modelOf (digestOf second))) ∅)
  running := []
  call := none

/-- The model "b" is deleted. -/
def deleteSecond : Label := .delete (modelName "b") true fun _ => false

theorem collect_safe_shared : (step id (shared 0x3A 0x3A) deleteSecond).any (fun s' =>
    decide ((AList.lookup (digestOf 0x2D) s'.blobs).isSome = true)) = true := by
  obtain ⟨s', hs'⟩ : ∃ s', step id (shared 0x3A 0x3A) deleteSecond = some s' := ⟨_, rfl⟩
  have halike : SpelledAlike id (shared 0x3A 0x3A) deleteSecond := by decide
  have htrace : ((sys id).restrict (SpelledAlike id)).Trace
      [(shared 0x3A 0x3A, deleteSecond, s')] s' := .step (.init ⟨rfl, rfl⟩) ⟨halike, hs'⟩
  have hthere : (AList.lookup (digestOf 0x2D) (shared 0x3A 0x3A).blobs).isSome = true := by
    decide
  have hsafe := (collect_safe htrace _ List.mem_cons_self).1 (digestOf 0x2D) hthere
  rw [hs']
  refine decide_eq_true (hsafe ?_)
  obtain rfl := Option.some.inj hs'
  decide

/-- A model lists the blob with a dash, another one with a colon: deleting the second one
deletes the blob. -/
theorem collect_unsafe : ∃ s', (sys id).Reachable (shared 0x2D 0x3A) ∧
    step id (shared 0x2D 0x3A) deleteSecond = some s' ∧ ¬Safe (shared 0x2D 0x3A) s' := by
  refine ⟨_, .init ⟨rfl, rfl⟩, rfl, fun hsafe => ?_⟩
  have hkept := hsafe (digestOf 0x2D) (by decide) (by decide)
  revert hkept
  decide

end Prismalama.Server.Images
