import Prismalama.Server.ImagesGC

/-!
# What a pull installs (`server/images.go`)

A blob that was downloaded is verified, one that was found is taken for good: by the
digest, so that a layer that is listed twice is never verified. Where the files that are
found are the blobs, every layer of an installed manifest is there (`pull_installs`).
-/

namespace Prismalama.Server.Images

open Prismalama.Lib Prismalama.Ollama

variable (sum : File → List UInt8)

/-- A file has the sum that its name gives, in upper or in lower case. -/
def Intact (p : GoString) (f : File) : Prop :=
  p.map DiskCache.foldByte = lit "sha256-" ++ hex (sum f)

instance (p : GoString) (f : File) : Decidable (Intact sum p f) :=
  inferInstanceAs (Decidable (_ = _))

/-- The file of a digest is there and intact. -/
def Has (blobs : Blobs) (digest : GoString) : Prop :=
  ∃ p ∈ blobsPath digest, ∃ f ∈ AList.lookup p blobs, Intact sum p f

instance (blobs : Blobs) (digest : GoString) : Decidable (Has sum blobs digest) :=
  inferInstanceAs (Decidable (∃ p ∈ blobsPath digest, ∃ f ∈ AList.lookup p blobs, _))

/-- The layers that are still to be verified. -/
def Stage.toVerify : Stage → Option (List Layer)
  | .verifying todo => some todo
  | _ => none

/-- A call goes by the file of a layer: it was found in the cache, or verified. -/
def Call.Relies (c : Call) (l : Layer) : Prop :=
  AList.lookup l.digest c.skipVerify = some true ∨
    AList.lookup l.digest c.skipVerify = some false ∧ ∃ todo ∈ c.stage.toVerify, l ∉ todo

instance (c : Call) (l : Layer) : Decidable (c.Relies l) :=
  inferInstanceAs (Decidable (_ ∨ _))

/-- The files that the end of a call removes. -/
def State.collected (s : State) : Label → List GoString
  | .install .ok false fails => s.call.elim [] fun c =>
      ((c.unused.filter fun k =>
        decide (¬InUse (AList.insert c.name (some c.mf) s.manifests) k)).filterMap blobsPath).filter
          fun p => !fails p
  | _ => []

/-- A file that is found is the blob; a download that ends behind its call brings the blob
or no file that a call goes by; and no file of a layer is collected, under another
spelling. -/
def Trusted (s : State) : Label → Prop
  | .download o => o ≠ .failed → ∀ l ∈ s.nextLayer, ∀ p ∈ blobsPath l.digest,
      ∀ f ∈ AList.lookup p s.blobs, Intact sum p f
  | .background digest bytes => ∀ p ∈ blobsPath digest, ∀ f ∈ bytes, Intact sum p f ∨
      ∀ c ∈ s.call, ∀ l ∈ c.mf.allLayers, blobsPath l.digest = some p → ¬c.Relies l
  | .install w noPrune fails => ∀ c ∈ s.call, ∀ p ∈ s.collected (.install w noPrune fails),
      ∀ l ∈ c.mf.allLayers, blobsPath l.digest ≠ some p
  | _ => True

instance (s : State) : DecidablePred (Trusted sum s)
  | .download o => inferInstanceAs (Decidable (o ≠ .failed → ∀ l ∈ s.nextLayer,
      ∀ p ∈ blobsPath l.digest, ∀ f ∈ AList.lookup p s.blobs, Intact sum p f))
  | .background digest bytes =>
    inferInstanceAs (Decidable (∀ p ∈ blobsPath digest, ∀ f ∈ bytes, _))
  | .install _ _ _ => inferInstanceAs (Decidable (∀ c ∈ s.call, _))
  | .pull _ _ | .verify _ _ | .transfer _ _ | .stop | .delete _ _ _ | .removeLayer _ _
  | .copy _ _ _ | .prune _ _ => .isTrue trivial

/-- The manifest that a step installs when `PullModel` returns nil, but for the transfer of
a model of tensors. -/
def State.installs (s : State) : Label → Option Manifest
  | .install .ok _ _ => s.call.bind fun c =>
      if c.stage = .verifying [] ∧ c.name.isFullyQualified = true ∧
        hasTensorLayers c.mf.allLayers = false then some c.mf else none
  | _ => none

/-! ## The invariant -/

/-- Every layer of a call is one that is still to come or that is there. -/
def Call.Covers (c : Call) : Stage → Prop
  | .downloading todo => ∀ l ∈ c.mf.allLayers, l ∈ todo ∨
      (AList.lookup l.digest c.skipVerify).isSome = true
  | .verifying _ => ∀ l ∈ c.mf.allLayers, (AList.lookup l.digest c.skipVerify).isSome = true
  | .transferring => False

structure Call.Sound (c : Call) (blobs : Blobs) : Prop where
  has : ∀ l ∈ c.mf.allLayers, c.Relies l → Has sum blobs l.digest
  covers : c.Covers c.stage

def Inv (s : State) : Prop :=
  ∀ c ∈ s.call, hasTensorLayers c.mf.allLayers = false → c.Sound sum s.blobs

variable {sum} {s s' : State}

theorem Inv.of_none (h : s.call = none) : Inv sum s := by
  intro c hc
  rw [h] at hc
  cases hc

theorem fold_hexChar {n : UInt8} (h : n < 16) :
    DiskCache.foldByte (dash (hexChar n)) = hexChar n := by
  unfold hexChar dash DiskCache.foldByte
  grind

theorem fold_hex (bytes : List UInt8) :
    (hex bytes).map (fun c => DiskCache.foldByte (dash c)) = hex bytes := by
  refine map_eq_self fun c hc => ?_
  obtain ⟨b, -, hb⟩ := List.mem_flatMap.mp hc
  have hdiv : b / 16 < 16 := by grind
  have hmod : b % 16 < 16 := by grind
  rcases List.mem_cons.mp hb with rfl | hb
  · exact fold_hexChar hdiv
  · obtain rfl := List.mem_singleton.mp hb
    exact fold_hexChar hmod

/-- What `verifyBlob` lets through is intact. -/
theorem intact_of_verifies {digest p : GoString} {f : File} (hpath : blobsPath digest = some p)
    (h : verifies sum digest f = true) : Intact sum p f := by
  obtain ⟨-, rfl⟩ := blobsPath_eq_some hpath
  obtain rfl := beq_iff_eq.mp h
  have hprefix : (lit "sha256:").map (fun c => DiskCache.foldByte (dash c)) = lit "sha256-" := by
    decide
  rw [Intact, List.map_map]
  show (lit "sha256:" ++ hex (sum f)).map (fun c => DiskCache.foldByte (dash c)) = _
  rw [List.map_append, fold_hex, hprefix]

/-- A file that is written is none that another digest needs, or is intact. -/
theorem Has.insert {blobs : Blobs} {digest p : GoString} {f : File} (h : Has sum blobs digest)
    (hf : blobsPath digest = some p → Intact sum p f) : Has sum (AList.insert p f blobs) digest := by
  obtain ⟨q, hq, g, hg, hintact⟩ := h
  by_cases heq : q = p
  · subst q
    exact ⟨p, hq, f, AList.lookup_insert _, hf hq⟩
  · exact ⟨q, hq, g, (AList.lookup_insert_ne heq).trans hg, hintact⟩

/-- A call that goes on relies on no layer it did not rely on before, apart from one that
was found. -/
theorem relies_cached {c : Call} {l l' : Layer} {rest : List Layer} {hit : Bool}
    (hl' : l' ∈ c.mf.allLayers) (h : (c.cached l rest hit).Relies l') :
    l'.digest = l.digest ∧ hit = true ∨ l'.digest ≠ l.digest ∧ c.Relies l' := by
  have hstage : ∀ todo ∈ (c.cached l rest hit).stage.toVerify, l' ∈ todo := by
    intro todo htodo
    simp only [Call.cached, Call.next] at htodo
    split at htodo
    · obtain rfl := Option.some.inj htodo
      exact hl'
    · cases htodo
  rcases h with h | ⟨-, todo, htodo, hnot⟩
  · rw [show (c.cached l rest hit).skipVerify = AList.insert l.digest hit c.skipVerify from rfl,
      GoMap.lookup_insert_ite] at h
    split at h
    · exact .inl ⟨‹_›, Option.some.inj h⟩
    · exact .inr ⟨‹_›, .inl h⟩
  · exact absurd (hstage todo htodo) hnot

theorem covers_cached {c : Call} {l : Layer} {rest : List Layer} {hit : Bool}
    (hstage : c.stage = .downloading (l :: rest)) (h : c.Covers c.stage) :
    (c.cached l rest hit).Covers (c.cached l rest hit).stage := by
  rw [hstage] at h
  have hkey := @mem_cached c l rest hit h
  simp only [Call.cached, Call.next]
  split
  · rename_i hrest
    subst hrest
    exact fun l' hl' => (hkey l' hl').resolve_left List.not_mem_nil
  · exact hkey

/-! ## The steps -/

theorem inv_download {c : Call} {l : Layer} {rest : List Layer} {o : Download}
    (hinv : Inv sum s) (hcall : s.call = some c) (hstage : c.stage = .downloading (l :: rest))
    (htrusted : Trusted sum s (.download o)) : Inv sum (s.download c l rest o) := by
  simp only [State.download]
  split
  · exact .of_none rfl
  cases hpath : blobsPath l.digest with
  | none => exact .of_none rfl
  | some p =>
    simp only
    split
    · rename_i hsome
      split
      · exact .of_none rfl
      rename_i hok
      -- the file is there, and is trusted
      intro c' hc' htensor
      obtain rfl := Option.some.inj hc'
      obtain ⟨hhas, hcovers⟩ := hinv c hcall htensor
      refine ⟨fun l' hl' hrelies => ?_, covers_cached hstage hcovers⟩
      rcases relies_cached (c := c) hl' hrelies with ⟨heq, -⟩ | ⟨-, hold⟩
      · obtain ⟨f, hf⟩ := Option.isSome_iff_exists.mp hsome
        rw [heq]
        exact ⟨p, hpath, f, hf, htrusted hok l (nextLayer_eq hcall hstage) p hpath f hf⟩
      · exact hhas l' hl' hold
    · rename_i hnone
      cases o with
      | failed => exact .of_none rfl
      | cancelled => exact .of_none rfl
      | done bytes =>
        intro c' hc' htensor
        obtain rfl := Option.some.inj hc'
        obtain ⟨hhas, hcovers⟩ := hinv c hcall htensor
        refine ⟨fun l' hl' hrelies => ?_, covers_cached hstage hcovers⟩
        rcases relies_cached (c := c) hl' hrelies with ⟨-, hhit⟩ | ⟨-, hold⟩
        · cases hhit
        · -- the new file was not there, so no layer went by it
          have hold := hhas l' hl' hold
          refine hold.insert fun hpath' => ?_
          obtain ⟨q, hq, f, hf, -⟩ := hold
          obtain rfl : p = q := Option.some.inj (hpath'.symm.trans hq)
          rw [show AList.lookup p s.blobs = some f from hf] at hnone
          exact absurd rfl hnone

theorem inv_verify {c : Call} {l : Layer} {rest : List Layer} {opened : Bool}
    {fails : GoString → Bool} (hinv : Inv sum s) (hcall : s.call = some c)
    (hstage : c.stage = .verifying (l :: rest)) :
    Inv sum (s.verify sum c l rest opened fails) := by
  -- the layer that is done is there, and the others are as before
  have hnext : (AList.lookup l.digest c.skipVerify = some true ∨ Has sum s.blobs l.digest) →
      Inv sum { s with call := some { c with stage := .verifying rest } } := by
    intro hdone c' hc' htensor
    obtain rfl := Option.some.inj hc'
    obtain ⟨hhas, hcovers⟩ := hinv c hcall htensor
    rw [hstage] at hcovers
    refine ⟨fun l' hl' hrelies => ?_, hcovers⟩
    rcases hrelies with htrue | ⟨hfalse, todo, htodo, hnot⟩
    · exact hhas l' hl' (.inl htrue)
    · obtain rfl := Option.some.inj htodo
      by_cases heq : l' = l
      · subst l'
        rcases hdone with htrue | hthere
        · exact hhas l hl' (.inl htrue)
        · exact hthere
      · refine hhas l' hl' (.inr ⟨hfalse, l :: rest, ?_, ?_⟩)
        · rw [hstage]
          exact rfl
        · exact fun hmem => (List.mem_cons.mp hmem).elim heq hnot
  simp only [State.verify]
  split
  · exact hnext (.inl ‹_›)
  cases hpath : blobsPath l.digest with
  | none => exact .of_none rfl
  | some p =>
    simp only
    cases hf : AList.lookup p s.blobs with
    | none => exact .of_none rfl
    | some f =>
      simp only
      split
      · exact .of_none rfl
      split
      · rename_i hverifies
        exact hnext (.inr ⟨p, hpath, f, hf, intact_of_verifies hpath hverifies⟩)
      · exact .of_none rfl

theorem inv_background {digest p : GoString} {f : File} (hinv : Inv sum s)
    (hpath : blobsPath digest = some p) (htrusted : Trusted sum s (.background digest (some f))) :
    Inv sum { s.finished digest with blobs := AList.insert p f s.blobs } := by
  intro c hc htensor
  obtain ⟨hhas, hcovers⟩ := hinv c hc htensor
  refine ⟨fun l hl hrelies => (hhas l hl hrelies).insert fun hpath' => ?_, hcovers⟩
  rcases htrusted p hpath f rfl with hintact | hnot
  · exact hintact
  · exact absurd hrelies (hnot c hc l hl hpath')

theorem inv_pull {n : ModelName} {mf : Manifest} {deleteMap : List GoString} :
    Inv sum { s with
      call := some (if hasTensorLayers mf.allLayers = true
        then ⟨n, mf, deleteMap, ∅, .transferring⟩
        else Call.next ⟨n, mf, deleteMap, ∅, .transferring⟩ mf.allLayers) } := by
  have hrelies : ∀ (stage : Stage) (l : Layer), ¬(Call.mk n mf deleteMap ∅ stage).Relies l := by
    rintro stage l (h | ⟨h, -⟩) <;> rw [GoMap.lookup_empty] at h <;> cases h
  intro c hc htensor
  obtain rfl := Option.some.inj hc
  split
  · rename_i htensor'
    rw [if_pos htensor'] at htensor
    rw [htensor'] at htensor
    cases htensor
  · refine ⟨fun l hl hr => absurd hr (hrelies _ l), ?_⟩
    simp only [Call.next]
    split
    · rename_i hnil
      intro l hl
      rw [show (Call.mk n mf deleteMap ∅ (.verifying mf.allLayers)).mf.allLayers = [] from hnil] at hl
      cases hl
    · exact fun l hl => .inl hl

/-- One step, of a run that can be trusted. -/
theorem step_inv {a : Label} (hinv : Inv sum s) (htrusted : Trusted sum s a)
    (hstep : step sum s a = some s') : Inv sum s' := by
  rcases step_cases hstep with hnone | ⟨hcall, hblobs, -⟩ | ⟨n, mf, deleteMap, rfl⟩ |
    ⟨c, l, rest, o, hcall, hstage, rfl, rfl⟩ | ⟨c, l, rest, opened, fails, hcall, hstage, rfl⟩ |
    ⟨c, blobs, hcall, hstage, rfl⟩ | ⟨digest, p, f, rfl, hpath, rfl⟩
  · exact .of_none hnone
  · intro c hc htensor
    rw [hblobs]
    exact hinv c (hcall ▸ hc) htensor
  · exact inv_pull
  · exact inv_download hinv hcall hstage htrusted
  · exact inv_verify hinv hcall hstage
  · -- only a model of tensors is transferred
    intro c' hc' htensor
    obtain rfl := Option.some.inj hc'
    have hcovers := (hinv c hcall htensor).covers
    rw [hstage] at hcovers
    exact hcovers.elim
  · exact inv_background hinv hpath htrusted

theorem inv_invariant (sum : File → List UInt8) :
    ((sys sum).restrict (Trusted sum)).Invariant (Inv sum) := by
  refine TSys.Inductive.invariant ⟨fun s hs => .of_none hs.2, ?_⟩
  rintro s a s' hinv ⟨htrusted, hstep⟩
  exact step_inv hinv htrusted hstep

/-- The collection at the end of a call keeps the files of its layers. -/
theorem Has.install {c : Call} {noPrune : Bool} {fails : GoString → Bool} {l : Layer}
    (hhas : Has sum s.blobs l.digest) (hcall : s.call = some c) (hl : l ∈ c.mf.allLayers)
    (htrusted : Trusted sum s (.install .ok noPrune fails)) :
    Has sum (s.install c .ok noPrune fails).blobs l.digest := by
  simp only [State.install]
  split
  · exact hhas
  cases noPrune with
  | true => exact hhas
  | false =>
    obtain ⟨p, hp, f, hf, hintact⟩ := hhas
    refine ⟨p, hp, f, ?_, hintact⟩
    show AList.lookup p (deleteUnusedLayers fails _ c.unused s.blobs) = some f
    rcases @deleteUnusedLayers_kept fails _ p c.unused s.blobs with
      hkept | ⟨hfails, k, hk, hunused, hpath⟩
    · rw [hkept]
      exact hf
    · have hmem : p ∈ s.collected (.install .ok false fails) := by
        rw [State.collected, hcall, Option.elim_some]
        refine List.mem_filter.mpr ⟨List.mem_filterMap.mpr ⟨k, ?_, hpath⟩, ?_⟩
        · exact List.mem_filter.mpr ⟨hk, decide_eq_true hunused⟩
        · rw [hfails]
          rfl
      exact absurd hp (htrusted c hcall p hmem l hl)

/-- In every run that can be trusted, when `PullModel` returns nil every layer of the
manifest it has installed, and its configuration, is there and intact. -/
theorem pull_installs {ts : List (State × Label × State)} {s : State}
    (h : ((sys sum).restrict (Trusted sum)).Trace ts s) :
    ∀ t ∈ ts, ∀ mf ∈ t.1.installs t.2.1, ∀ l ∈ mf.allLayers, Has sum t.2.2.blobs l.digest := by
  refine h.forall_mem (Q := fun s a s' =>
    ∀ mf ∈ s.installs a, ∀ l ∈ mf.allLayers, Has sum s'.blobs l.digest) ?_
  rintro s a s' hreach ⟨htrusted, hstep⟩ mf hmf l hl
  have hinv := inv_invariant sum s hreach
  cases a with
  | install w noPrune fails =>
    cases w with
    | ok =>
      obtain ⟨c, hcall, hc⟩ := Option.bind_eq_some_iff.mp hmf
      split at hc
      · rename_i hends
        obtain ⟨hstage, -, htensor⟩ := hends
        obtain rfl := Option.some.inj hc
        have hinstall : step sum s (.install .ok noPrune fails) = some s' := hstep
        simp only [step, hcall] at hinstall
        rw [if_pos hstage] at hinstall
        obtain rfl := Option.some.inj hinstall
        obtain ⟨hhas, hcovers⟩ := hinv c hcall htensor
        rw [hstage] at hcovers
        -- nothing is left to verify, so the call goes by all of its layers
        refine (hhas l hl ?_).install hcall hl htrusted
        obtain ⟨hit, hhit⟩ := Option.isSome_iff_exists.mp (hcovers l hl)
        cases hit with
        | true => exact .inl hhit
        | false =>
          refine .inr ⟨hhit, [], ?_, List.not_mem_nil⟩
          rw [hstage]
          exact rfl
      · cases hc
    | unopened => cases hmf
    | torn => cases hmf
  | _ => cases hmf

/-! ## Runs of one pull -/

/-- A sum of 32 bytes, of a file by its first byte. -/
def firstByte (f : File) : List UInt8 := List.replicate 32 (f.headD 0)

/-- The digest of the files whose first byte is this one. -/
def digestOfByte (b : UInt8) : GoString := lit "sha256:" ++ hex (List.replicate 32 b)

def emptyDisk : State := ⟨∅, ∅, [], none⟩

/-- A manifest that lists the layer of a byte some times. -/
def manifestOf (b : UInt8) (times : Nat) : Manifest :=
  ⟨⟨[], []⟩, List.replicate times ⟨lit "m", digestOfByte b⟩⟩

/-- A pull of a layer, listed some times, that is downloaded once. -/
def pullOf (times : Nat) (bytes : File) (checks : Nat) : List Label :=
  [.pull (modelName "m") (some (manifestOf 7 times)), .download (.done bytes)] ++
    List.replicate (times - 1) (.download (.done bytes)) ++
      List.replicate checks (.verify true fun _ => false)

/-- The end of a pull, where nothing fails. -/
def installed : Label := .install .ok false fun _ => false

theorem pull_installs_one : ∃ ts s, ((sys firstByte).restrict (Trusted firstByte)).Trace ts s ∧
    Has firstByte s.blobs (digestOfByte 7) := by
  obtain ⟨ts, s, htrace, hmf, htrusted, hnext⟩ := TSys.Trace.exists_of_run
    (T := (sys firstByte).restrict (Trusted firstByte))
    (f := TSys.guarded (Trusted firstByte) (step firstByte))
    (P := fun s => s.installs installed = some (manifestOf 7 1) ∧ Trusted firstByte s installed ∧
      (step firstByte s installed).isSome = true)
    (fun _ _ _ => TSys.guarded_eq_some.mp) (.init (s := emptyDisk) ⟨rfl, rfl⟩) (pullOf 1 [7] 1)
    (by decide)
  obtain ⟨s', hs'⟩ := Option.isSome_iff_exists.mp hnext
  have hrun := htrace.step ⟨htrusted, hs'⟩
  exact ⟨_, s', hrun, pull_installs hrun (s, installed, s') List.mem_cons_self (manifestOf 7 1)
    hmf ⟨lit "m", digestOfByte 7⟩ (by decide)⟩

/-- A manifest that lists a layer twice is installed with the wrong file. And a layer that
was downloaded wrong by a call that failed is installed by the next one. -/
theorem pull_unverified :
    (∃ s s', (sys firstByte).Reachable s ∧ step firstByte s installed = some s' ∧
      s.installs installed = some (manifestOf 7 2) ∧
      ¬Has firstByte s'.blobs (digestOfByte 7)) ∧
    ∃ s s', (sys firstByte).Reachable s ∧ step firstByte s installed = some s' ∧
      s.installs installed = some (manifestOf 7 1) ∧
      ¬Has firstByte s'.blobs (digestOfByte 7) := by
  have hend : ∀ (as : List Label) (times : Nat),
      (as.foldlM (step firstByte) emptyDisk).any (fun s => decide
        (s.installs installed = some (manifestOf 7 times) ∧
          (step firstByte s installed).any (fun s' =>
            decide (¬Has firstByte s'.blobs (digestOfByte 7))) = true)) = true →
      ∃ s s', (sys firstByte).Reachable s ∧ step firstByte s installed = some s' ∧
        s.installs installed = some (manifestOf 7 times) ∧
        ¬Has firstByte s'.blobs (digestOfByte 7) := by
    intro as times h
    obtain ⟨s, hreach, hmf, hwrong⟩ := TSys.Reachable.exists_of_run (T := sys firstByte)
      (fun _ _ _ hstep => hstep) (.init (s := emptyDisk) ⟨rfl, rfl⟩) as h
    obtain ⟨s', hs', hhas⟩ := (Option.any_eq_true _ _).mp hwrong
    exact ⟨s, s', hreach, hs', hmf, of_decide_eq_true hhas⟩
  refine ⟨hend (pullOf 2 [8] 2) 2 (by decide), hend ?_ 1 ?_⟩
  · exact [.pull (modelName "m") (some ⟨⟨[], []⟩, [⟨lit "m", digestOfByte 7⟩,
      ⟨lit "m", digestOfByte 9⟩]⟩), .download (.done [8]), .download .failed] ++ pullOf 1 [] 1
  · decide

end Prismalama.Server.Images
