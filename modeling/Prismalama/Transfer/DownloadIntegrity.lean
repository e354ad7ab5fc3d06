import Prismalama.Transfer.Download

/-!
# What a download renames (`x/transfer/download.go`)

The length and the hash of an attempt are those of the bytes it received. They are those
of its file where its writes were complete and no other goroutine has worked on the file:
then every renamed file is its blob (`download_intact`). A write that fails is not seen, a
file that was given up stays in the hash, and goroutines of one digest share a file
(`download_corrupts`).
-/

namespace Prismalama.Transfer

open Prismalama.Lib Prismalama.Ollama

/-- A goroutine is at work on its `.tmp` file: it has looked at its length, to resume it,
or has it open. -/
def Goroutine.holds (g : Goroutine) : Bool :=
  match g.phase with
  | .requesting existing => existing != 0
  | .saving existing => existing != 0
  | .copying _ _ _ _ _ => true
  | .copied _ _ _ _ => true
  | .verified _ _ => true
  | _ => false

/-- No other goroutine is at work on the file. -/
def Alone (s : State) (i : Nat) (g : Goroutine) : Prop :=
  ∀ j < s.gs.length, ∀ g' ∈ s.gs[j]?, j ≠ i → g'.holds = true → g'.path ≠ g.path

instance (s : State) (i : Nat) (g : Goroutine) : Decidable (Alone s i g) :=
  inferInstanceAs (Decidable (∀ j < s.gs.length, _))

/-- The `.tmp` file exists. -/
def Disk.HasTmp (k : Disk) (p : GoString) : Prop := (k.tmp p).isSome = true

instance (k : Disk) (p : GoString) : Decidable (k.HasTmp p) :=
  inferInstanceAs (Decidable (_ = true))

/-- An attempt that passes for the blob, although one of its writes was not complete or a
file that was given up is in its hash. -/
def Goroutine.Lossy (h : File → List UInt8) (g : Goroutine) : Prop :=
  match g.phase with
  | .copied _ stale hashed short => (short = true ∨ stale ≠ []) ∧
    sum h (stale ++ hashed) = g.blob.digest ∧ (hashed.length : Int) = g.blob.size
  | _ => False

instance (h : File → List UInt8) (g : Goroutine) : Decidable (g.Lossy h) := by
  unfold Goroutine.Lossy
  cases g.phase <;> infer_instance

/-- A goroutine looks at, opens and removes a `.tmp` file only when no other one is at work
on it, and what passes for the blob is what was written. -/
def Careful (h : File → List UInt8) (s : State) (a : Label) : Prop :=
  ∀ g ∈ s.gs[a.index]?,
    match a with
    | .stat i => resumeThreshold ≤ g.blob.size → s.disk.HasTmp g.path → Alone s i g
    | .save i _ _ _ => Alone s i g
    | .check _ => ¬g.Lossy h
    | .retry i => g.blob.size < resumeThreshold → s.disk.HasTmp g.path → Alone s i g
    | _ => True

instance (h : File → List UInt8) (s : State) (a : Label) : Decidable (Careful h s a) :=
  match a with
  | .stat i => inferInstanceAs (Decidable (∀ g ∈ s.gs[i]?, resumeThreshold ≤ g.blob.size →
      s.disk.HasTmp g.path → Alone s i g))
  | .save i _ _ _ => inferInstanceAs (Decidable (∀ g ∈ s.gs[i]?, Alone s i g))
  | .check i => inferInstanceAs (Decidable (∀ g ∈ s.gs[i]?, ¬g.Lossy h))
  | .retry i => inferInstanceAs (Decidable (∀ g ∈ s.gs[i]?, g.blob.size < resumeThreshold →
      s.disk.HasTmp g.path → Alone s i g))
  | .resolve _ _ | .quit _ | .respond _ _ | .read _ _ _ | .readError _ _ | .eof _ | .rename _ _ =>
    .isTrue fun _ _ => trivial

/-! ## Files -/

theorem tmpFile_eq_some {k : Disk} {p : GoString} {f : File} :
    k.tmpFile p = some f ↔ ∃ ino, k.tmp p = some ino ∧ k.data ino = f := Option.map_eq_some_iff

theorem data_setData_self (k : Disk) (ino : Nat) (f : File) :
    (k.setData ino f).data ino = f := by
  show Function.update k.data ino f ino = f
  rw [Function.update_self]

/-- A change that is about the `.tmp` file at one path. -/
structure OnlyTmp (p : GoString) (k k' : Disk) : Prop where
  wf : k'.Wf
  tmp : ∀ q, q ≠ p → k'.tmp q = k.tmp q
  dest : k'.dest = k.dest
  data : ∀ ino, ino < k.next → k.tmp p ≠ some ino → k'.data ino = k.data ino
  next : k.next ≤ k'.next
  old : ∀ ino, ino < k.next → k'.tmp p = some ino → k.tmp p = some ino

theorem OnlyTmp.refl {k : Disk} (hwf : k.Wf) (p : GoString) : OnlyTmp p k k :=
  ⟨hwf, fun _ _ => rfl, rfl, fun _ _ _ => rfl, le_rfl, fun _ _ => id⟩

theorem OnlyTmp.trans {k k₁ k₂ : Disk} {p : GoString} (h₁ : OnlyTmp p k k₁)
    (h₂ : OnlyTmp p k₁ k₂) : OnlyTmp p k k₂ where
  wf := h₂.wf
  tmp q hq := (h₂.tmp q hq).trans (h₁.tmp q hq)
  dest := h₂.dest.trans h₁.dest
  data ino hlt hne := (h₂.data ino (hlt.trans_le h₁.next) fun heq => hne (h₁.old ino hlt heq)).trans
    (h₁.data ino hlt hne)
  next := h₁.next.trans h₂.next
  old ino hlt heq := h₁.old ino hlt (h₂.old ino (hlt.trans_le h₁.next) heq)

theorem OnlyTmp.setData {k : Disk} (hwf : k.Wf) {p : GoString} {ino : Nat}
    (hino : k.tmp p = some ino) (f : File) : OnlyTmp p k (k.setData ino f) := by
  refine ⟨⟨hwf.tmp_lt, hwf.dest_lt, hwf.tmp_inj, hwf.tmp_dest⟩, fun _ _ => rfl, rfl, ?_, le_rfl,
    fun _ _ => id⟩
  intro ino' _ hne
  have hne' : ino' ≠ ino := fun heq => hne (heq ▸ hino)
  exact Function.update_of_ne hne' _ _

theorem OnlyTmp.removeTmp {k : Disk} (hwf : k.Wf) (p : GoString) :
    OnlyTmp p k (k.removeTmp p) := by
  have htmp : ∀ q ino, (k.removeTmp p).tmp q = some ino → k.tmp q = some ino := by
    intro q ino hq
    by_cases heq : q = p
    · subst q
      rw [show (k.removeTmp p).tmp p = none from Function.update_self _ _ _] at hq
      cases hq
    · rwa [show (k.removeTmp p).tmp q = k.tmp q from Function.update_of_ne heq _ _] at hq
  refine ⟨⟨?_, hwf.dest_lt, ?_, ?_⟩, fun q hq => Function.update_of_ne hq _ _, rfl,
    fun _ _ _ => rfl, le_rfl, fun ino _ hino => htmp p ino hino⟩
  · exact fun q ino hq => hwf.tmp_lt q ino (htmp q ino hq)
  · exact fun q q' ino hq hq' => hwf.tmp_inj q q' ino (htmp q ino hq) (htmp q' ino hq')
  · exact fun q q' ino hq => hwf.tmp_dest q q' ino (htmp q ino hq)

theorem create_spec {k : Disk} (hwf : k.Wf) (p : GoString) :
    OnlyTmp p k (k.create p).1 ∧ (k.create p).1.tmp p = some (k.create p).2 ∧
      (k.create p).1.data (k.create p).2 = [] := by
  rw [Disk.create]
  cases hp : k.tmp p with
  | some ino => exact ⟨.setData hwf hp [], hp, data_setData_self k ino []⟩
  | none =>
    -- a number that no file has
    have htmp : ∀ q, q ≠ p → Function.update k.tmp p (some k.next) q = k.tmp q :=
      fun q hq => Function.update_of_ne hq _ _
    have hself : Function.update k.tmp p (some k.next) p = some k.next := Function.update_self _ _ _
    have hcases : ∀ q ino, Function.update k.tmp p (some k.next) q = some ino →
        q = p ∧ ino = k.next ∨ q ≠ p ∧ k.tmp q = some ino := by
      intro q ino hq
      by_cases heq : q = p
      · subst q
        rw [hself] at hq
        exact .inl ⟨rfl, (Option.some.inj hq).symm⟩
      · exact .inr ⟨heq, (htmp q heq).symm.trans hq⟩
    refine ⟨⟨⟨?_, ?_, ?_, ?_⟩, htmp, rfl, ?_, Nat.le_succ _, ?_⟩, hself,
      data_setData_self k k.next []⟩
    · intro q ino hq
      show ino < k.next + 1
      rcases hcases q ino hq with ⟨-, rfl⟩ | ⟨-, hold⟩
      · exact Nat.lt_succ_self _
      · exact (hwf.tmp_lt q ino hold).trans (Nat.lt_succ_self _)
    · exact fun q ino hq => (hwf.dest_lt q ino hq).trans (Nat.lt_succ_self _)
    · intro q q' ino hq hq'
      rcases hcases q ino hq with ⟨hqp, hnew⟩ | ⟨hne, hold⟩ <;>
        rcases hcases q' ino hq' with ⟨hqp', hnew'⟩ | ⟨hne', hold'⟩
      · exact hqp.trans hqp'.symm
      · exact absurd (hwf.tmp_lt q' ino hold') (by omega)
      · exact absurd (hwf.tmp_lt q ino hold) (by omega)
      · exact hwf.tmp_inj q q' ino hold hold'
    · intro q q' ino hq hdest
      rcases hcases q ino hq with ⟨-, rfl⟩ | ⟨-, hold⟩
      · exact Nat.lt_irrefl _ (hwf.dest_lt q' k.next hdest)
      · exact hwf.tmp_dest q q' ino hold hdest
    · intro ino hlt _
      exact Function.update_of_ne hlt.ne _ _
    · intro ino hlt hino
      exact absurd (Option.some.inj (hself.symm.trans hino)) hlt.ne'

/-! ## The invariant -/

section

variable (h : File → List UInt8) (content : GoString → File)

/-- The file of a blob is there and is the blob. -/
def Right (k : Disk) (b : Blob) : Prop :=
  ∃ f ∈ k.destFile (digestToPath b.digest), sum h f = b.digest ∧ (f.length : Int) = b.size ∧
    f = content b.digest

/-- What a goroutine finds in its `.tmp` file. -/
def Goroutine.Sound (k : Disk) (g : Goroutine) : Prop :=
  match g.phase with
  | .requesting existing => existing ≠ 0 → ∃ f ∈ k.tmpFile g.path, f.length = existing
  | .saving existing => existing ≠ 0 → ∃ f ∈ k.tmpFile g.path, f.length = existing
  | .copying ino off _ hashed short => k.tmp g.path = some ino ∧
      (short = false → k.data ino = hashed ∧ off = hashed.length)
  | .copied ino _ hashed short => k.tmp g.path = some ino ∧ (short = false → k.data ino = hashed)
  | .verified ino hashed => k.tmp g.path = some ino ∧ k.data ino = hashed ∧
      sum h hashed = g.blob.digest ∧ (hashed.length : Int) = g.blob.size ∧
      hashed = content g.blob.digest
  | _ => True

/-- A blob whose file is to be there: it was, its goroutine has returned nil, or its file
was renamed last. -/
def State.Done (s : State) (b : Blob) : Prop :=
  b ∈ s.skipped ∨ (∃ g ∈ s.gs, g.phase = .returned true ∧ g.blob = b) ∨
    s.made (digestToPath b.digest) = some b

structure Inv (s : State) : Prop where
  wf : s.disk.Wf
  apart : ∀ (i j : Nat) (g g' : Goroutine), s.gs[i]? = some g → s.gs[j]? = some g' → i ≠ j →
    g.holds = true → g'.holds = true → g.path ≠ g'.path
  sound : ∀ g ∈ s.gs, g.Sound h content s.disk
  right : ∀ b, s.Done b → Right h content s.disk b
  made : ∀ p b, s.made p = some b → digestToPath b.digest = p

end

variable {h : File → List UInt8} {content : GoString → File} {s : State} {k' : Disk} {i : Nat}
  {g g' : Goroutine}

/-- A goroutine that works on another path does not see the change. -/
theorem Goroutine.Sound.onlyTmp {k : Disk} {p : GoString} (hwf : k.Wf)
    (hg : g.Sound h content k) (honly : OnlyTmp p k k') (hp : g.holds = true → g.path ≠ p) :
    g.Sound h content k' := by
  have hfile : g.holds = true → ∀ ino, k.tmp g.path = some ino →
      k'.tmp g.path = some ino ∧ k'.data ino = k.data ino := by
    intro hholds ino hino
    refine ⟨(honly.tmp _ (hp hholds)).trans hino, honly.data ino (hwf.tmp_lt _ _ hino) ?_⟩
    exact fun hpino => hp hholds (hwf.tmp_inj _ _ ino hino hpino)
  have hresume : ∀ existing : Nat, (existing ≠ 0 → g.holds = true) →
      (existing ≠ 0 → ∃ f ∈ k.tmpFile g.path, f.length = existing) →
      existing ≠ 0 → ∃ f ∈ k'.tmpFile g.path, f.length = existing := by
    intro existing hholds hold hne
    obtain ⟨f, hf, hlen⟩ := hold hne
    obtain ⟨ino, hino, hdata⟩ := tmpFile_eq_some.mp hf
    obtain ⟨hino', hdata'⟩ := hfile (hholds hne) ino hino
    exact ⟨f, tmpFile_eq_some.mpr ⟨ino, hino', hdata'.trans hdata⟩, hlen⟩
  cases hphase : g.phase with
  | requesting existing =>
    simp only [Goroutine.Sound, hphase] at hg ⊢
    refine hresume existing (fun hne => ?_) hg
    simp only [Goroutine.holds, hphase, bne_iff_ne]
    exact hne
  | saving existing =>
    simp only [Goroutine.Sound, hphase] at hg ⊢
    refine hresume existing (fun hne => ?_) hg
    simp only [Goroutine.holds, hphase, bne_iff_ne]
    exact hne
  | copying ino off stale hashed short =>
    simp only [Goroutine.Sound, hphase] at hg ⊢
    obtain ⟨hino, hdata⟩ := hfile (by simp only [Goroutine.holds, hphase]) ino hg.1
    exact ⟨hino, hdata ▸ hg.2⟩
  | copied ino stale hashed short =>
    simp only [Goroutine.Sound, hphase] at hg ⊢
    obtain ⟨hino, hdata⟩ := hfile (by simp only [Goroutine.holds, hphase]) ino hg.1
    exact ⟨hino, hdata ▸ hg.2⟩
  | verified ino hashed =>
    simp only [Goroutine.Sound, hphase] at hg ⊢
    obtain ⟨hino, hdata⟩ := hfile (by simp only [Goroutine.holds, hphase]) ino hg.1
    exact ⟨hino, hdata ▸ hg.2⟩
  | _ =>
    simp only [Goroutine.Sound, hphase]

theorem Right.onlyTmp {k : Disk} {p : GoString} {b : Blob} (hwf : k.Wf)
    (hb : Right h content k b) (honly : OnlyTmp p k k') : Right h content k' b := by
  obtain ⟨f, hf, hrest⟩ := hb
  refine ⟨f, ?_, hrest⟩
  obtain ⟨ino, hino, hdata⟩ := Option.map_eq_some_iff.mp hf
  rw [Disk.destFile, honly.dest]
  refine Option.map_eq_some_iff.mpr ⟨ino, hino, ?_⟩
  rw [honly.data ino (hwf.dest_lt _ _ hino) fun htmp => hwf.tmp_dest _ _ ino htmp hino]
  exact hdata

theorem Inv.alone (hinv : Inv h content s) (hi : s.gs[i]? = some g) (hholds : g.holds = true) :
    Alone s i g := by
  intro j _ gj hj hne hholds'
  exact (hinv.apart i j g gj hi hj hne.symm hholds hholds').symm

theorem lt_of_getElem? {α : Type*} {l : List α} {j : Nat} {a : α} (hj : l[j]? = some a) :
    j < l.length := (List.getElem?_eq_some_iff.mp hj).1

/-- One goroutine goes on. -/
theorem Inv.set (hinv : Inv h content s) (hi : s.gs[i]? = some g) (hblob : g'.blob = g.blob)
    (hwf : k'.Wf) (hapart : g'.holds = true → Alone s i g)
    (hothers : ∀ j gj, s.gs[j]? = some gj → j ≠ i → gj.Sound h content k')
    (hright : ∀ b, s.Done b → Right h content k' b) (hsound : g'.Sound h content k')
    (hphase : g'.phase ≠ .returned true) :
    Inv h content { s with disk := k', gs := s.gs.set i g' } := by
  have hlt := lt_of_getElem? hi
  have hpath : g'.path = g.path := congrArg (fun b : Blob => digestToPath b.digest) hblob
  have hget : ∀ j gj, (s.gs.set i g')[j]? = some gj → j = i ∧ gj = g' ∨ j ≠ i ∧ s.gs[j]? = some gj := by
    intro j gj hj
    by_cases heq : j = i
    · subst j
      rw [List.getElem?_set_self hlt] at hj
      exact .inl ⟨rfl, (Option.some.inj hj).symm⟩
    · rw [List.getElem?_set_ne (Ne.symm heq)] at hj
      exact .inr ⟨heq, hj⟩
  refine ⟨hwf, ?_, ?_, ?_, hinv.made⟩
  · intro j l gj gl hj hl hne hholds hholds'
    rcases hget j gj hj with ⟨hji, hgj⟩ | ⟨hji, hold⟩ <;>
      rcases hget l gl hl with ⟨hli, hgl⟩ | ⟨hli, hold'⟩
    · exact absurd (hji.trans hli.symm) hne
    · subst hgj
      rw [hpath]
      exact (hapart hholds l (lt_of_getElem? hold') gl hold' hli hholds').symm
    · subst hgl
      rw [hpath]
      exact hapart hholds' j (lt_of_getElem? hold) gj hold hji hholds
    · exact hinv.apart j l gj gl hold hold' hne hholds hholds'
  · intro gj hmem
    obtain ⟨j, hj⟩ := List.mem_iff_getElem?.mp hmem
    rcases hget j gj hj with ⟨-, rfl⟩ | ⟨hji, hj⟩
    · exact hsound
    · exact hothers j gj hj hji
  · intro b hb
    refine hright b ?_
    rcases hb with hskipped | ⟨gj, hmem, hret, hb⟩ | hmade
    · exact .inl hskipped
    · rcases List.mem_or_eq_of_mem_set hmem with hold | rfl
      · exact .inr (.inl ⟨gj, hold, hret, hb⟩)
      · exact absurd hret hphase
    · exact .inr (.inr hmade)

/-- The goroutine leaves the files alone. -/
theorem Inv.quiet (hinv : Inv h content s) (hi : s.gs[i]? = some g) (hblob : g'.blob = g.blob)
    (hholds : g'.holds = true → g.holds = true) (hsound : g'.Sound h content s.disk)
    (hphase : g'.phase ≠ .returned true) :
    Inv h content { s with gs := s.gs.set i g' } :=
  hinv.set hi hblob hinv.wf (fun hh => hinv.alone hi (hholds hh))
    (fun _ gj hj _ => hinv.sound gj (List.mem_of_getElem? hj)) hinv.right hsound hphase

/-- The goroutine works on its `.tmp` file, alone. -/
theorem Inv.work (hinv : Inv h content s) (hi : s.gs[i]? = some g) (hblob : g'.blob = g.blob)
    (halone : Alone s i g) (honly : OnlyTmp g.path s.disk k') (hsound : g'.Sound h content k')
    (hphase : g'.phase ≠ .returned true) :
    Inv h content { s with disk := k', gs := s.gs.set i g' } := by
  refine hinv.set hi hblob honly.wf (fun _ => halone) (fun j gj hj hne => ?_)
    (fun b hb => (hinv.right b hb).onlyTmp hinv.wf honly) hsound hphase
  refine (hinv.sound gj (List.mem_of_getElem? hj)).onlyTmp hinv.wf honly fun hholds => ?_
  exact halone j (lt_of_getElem? hj) gj hj hne hholds

theorem sound_of_not_holds {k : Disk} (hholds : g.holds = false) : g.Sound h content k := by
  cases hphase : g.phase with
  | requesting existing =>
    simp only [Goroutine.holds, hphase, bne_eq_false_iff_eq] at hholds
    simp only [Goroutine.Sound, hphase]
    exact fun hne => absurd hholds hne
  | saving existing =>
    simp only [Goroutine.holds, hphase, bne_eq_false_iff_eq] at hholds
    simp only [Goroutine.Sound, hphase]
    exact fun hne => absurd hholds hne
  | copying ino off stale hashed short => simp only [Goroutine.holds, hphase, Bool.true_eq_false] at hholds
  | copied ino stale hashed short => simp only [Goroutine.holds, hphase, Bool.true_eq_false] at hholds
  | verified ino hashed => simp only [Goroutine.holds, hphase, Bool.true_eq_false] at hholds
  | _ => simp only [Goroutine.Sound, hphase]

/-- A goroutine that lets go of its file, or has none. -/
theorem Inv.idle (hinv : Inv h content s) (hi : s.gs[i]? = some g) {ph : Phase}
    (hholds : ({ g with phase := ph } : Goroutine).holds = false) (hphase : ph ≠ .returned true) :
    Inv h content (s.setPhase i g ph) :=
  hinv.quiet hi rfl (fun hh => absurd hh (by rw [hholds]; exact Bool.false_ne_true))
    (sound_of_not_holds hholds) hphase

/-! ## The steps -/

theorem Inv.stat (hinv : Inv h content s) (hi : s.gs[i]? = some g)
    (hcareful : resumeThreshold ≤ g.blob.size → s.disk.HasTmp g.path → Alone s i g) :
    Inv h content (s.stat i g) := by
  simp only [State.stat]
  split
  · exact hinv.idle hi rfl nofun
  rename_i hsize
  cases hf : s.disk.tmpFile g.path with
  | none => exact hinv.idle hi rfl nofun
  | some f =>
    obtain ⟨ino, hino, hdata⟩ := tmpFile_eq_some.mp hf
    have halone := hcareful (not_lt.mp hsize) (by rw [Disk.HasTmp, hino]; rfl)
    simp only
    split
    · -- the length is that of the file
      refine hinv.work hi rfl halone (OnlyTmp.refl hinv.wf _) ?_ nofun
      exact fun _ => ⟨f, hf, rfl⟩
    · split
      · exact hinv.work hi rfl halone (.removeTmp hinv.wf _) (sound_of_not_holds rfl) nofun
      · exact hinv.idle hi rfl nofun

theorem Inv.fresh (hinv : Inv h content s) (hi : s.gs[i]? = some g) (halone : Alone s i g)
    (honly : OnlyTmp g.path s.disk k') (stale : File) (created : Bool) :
    Inv h content ({ s with disk := k' }.fresh i g stale created) := by
  simp only [State.fresh]
  split
  · obtain ⟨hcreate, htmp, hdata⟩ := create_spec honly.wf g.path
    exact hinv.work hi rfl halone (honly.trans hcreate) ⟨htmp, fun _ => ⟨hdata, rfl⟩⟩ nofun
  · exact hinv.work hi rfl halone honly (sound_of_not_holds rfl) nofun

/-- The goroutine removes its `.tmp` file and lets go of it. -/
theorem Inv.removed (hinv : Inv h content s) (hi : s.gs[i]? = some g) (hblob : g'.blob = g.blob)
    (halone : Alone s i g) (hholds : g'.holds = false) (hphase : g'.phase ≠ .returned true) :
    Inv h content { s with disk := s.disk.removeTmp g.path, gs := s.gs.set i g' } :=
  hinv.work hi hblob halone (.removeTmp hinv.wf _) (sound_of_not_holds hholds) hphase

theorem Inv.save (hinv : Inv h content s) (hi : s.gs[i]? = some g) {existing : Nat}
    (hphase : g.phase = .saving existing) (halone : Alone s i g)
    (opened : Bool) (readable : Nat) (created : Bool) :
    Inv h content (s.save i g existing opened readable created) := by
  have hg := hinv.sound g (List.mem_of_getElem? hi)
  simp only [Goroutine.Sound, hphase] at hg
  simp only [State.save]
  cases hino : s.disk.tmp g.path with
  | none => exact hinv.fresh hi halone (.refl hinv.wf _) [] created
  | some ino =>
    simp only
    split
    · exact hinv.fresh hi halone (.refl hinv.wf _) [] created
    rename_i hopen
    rw [not_or] at hopen
    split
    · -- what is hashed is all of the file
      rename_i hgot
      obtain ⟨f, hf, hlen⟩ := hg hopen.1
      obtain ⟨ino', hino', hdata⟩ := tmpFile_eq_some.mp hf
      obtain rfl := Option.some.inj (hino.symm.trans hino')
      refine hinv.quiet hi rfl (fun _ => ?_) ⟨hino, fun _ => ?_⟩ nofun
      · simp only [Goroutine.holds, hphase, bne_iff_ne]
        exact hopen.1
      · have hall : (s.disk.data ino).take existing = s.disk.data ino := by
          rw [hdata, ← hlen, List.take_length]
        rw [hall] at hgot ⊢
        have heq : (s.disk.data ino).take readable = s.disk.data ino := by
          refine (List.take_prefix _ _).eq_of_length ?_
          rw [hgot, hdata, hlen]
        rw [heq, hdata]
        exact ⟨rfl, hlen.symm⟩
    · exact hinv.fresh hi halone (.removeTmp hinv.wf _) _ created

theorem write_end (f p : File) : f.write f.length p = f ++ p := by
  rw [File.write]
  split
  · rename_i hnil
    rw [hnil, List.append_nil]
  · rw [File.writeAt, List.take_length, Nat.sub_self, List.replicate_zero, List.append_nil,
      List.drop_eq_nil_of_le (Nat.le_add_right _ _), List.append_nil]

theorem Inv.read (hinv : Inv h content s) (hi : s.gs[i]? = some g) {ino off : Nat}
    {stale hashed p : File} {short : Bool} (hphase : g.phase = .copying ino off stale hashed short)
    {written : Nat} :
    Inv h content { s with
      disk := s.disk.setData ino ((s.disk.data ino).write off (p.take written))
      gs := s.gs.set i { g with
        phase := .copying ino (off + (p.take written).length) stale (hashed ++ p)
          (short || decide (written < p.length)) } } := by
  have hg := hinv.sound g (List.mem_of_getElem? hi)
  simp only [Goroutine.Sound, hphase] at hg
  have halone := hinv.alone hi (by simp only [Goroutine.holds, hphase])
  refine hinv.work hi rfl halone (.setData hinv.wf hg.1 _) ⟨hg.1, fun hshort => ?_⟩ nofun
  obtain ⟨hold, hall⟩ := Bool.or_eq_false_iff.mp hshort
  obtain ⟨hdata, hoff⟩ := hg.2 hold
  rw [data_setData_self, List.take_of_length_le (not_lt.mp (of_decide_eq_false hall)), hdata, hoff,
    write_end, List.length_append]
  exact ⟨rfl, rfl⟩

theorem Inv.check (hinv : Inv h content s) (hi : s.gs[i]? = some g) {ino : Nat}
    {stale hashed : File} {short : Bool} (hphase : g.phase = .copied ino stale hashed short)
    (hlossy : ¬g.Lossy h)
    (hcontent : sum h (stale ++ hashed) = g.blob.digest → stale ++ hashed = content g.blob.digest)
    (hpasses : sum h (stale ++ hashed) = g.blob.digest ∧ (hashed.length : Int) = g.blob.size) :
    Inv h content (s.setPhase i g (.verified ino hashed)) := by
  have hg := hinv.sound g (List.mem_of_getElem? hi)
  simp only [Goroutine.Sound, hphase] at hg
  simp only [Goroutine.Lossy, hphase] at hlossy
  have hshort : short = false := by
    cases short with
    | false => rfl
    | true => exact absurd ⟨.inl rfl, hpasses⟩ hlossy
  have hstale : stale = [] := by
    by_contra hne
    exact hlossy ⟨.inr hne, hpasses⟩
  subst hstale
  refine hinv.quiet hi rfl (fun _ => by simp only [Goroutine.holds, hphase]) ?_ nofun
  exact ⟨hg.1, hg.2 hshort, hpasses.1, hpasses.2, hcontent hpasses.1⟩

/-- The path of a hash gives the hash. -/
theorem digestToPath_sum {f f' : File}
    (heq : digestToPath (sum h f) = digestToPath (sum h f')) : sum h f = sum h f' := by
  have hdrop : ∀ x : GoString, (digestToPath (lit "sha256:" ++ x)).drop 7 = x := by
    intro x
    rw [digestToPath]
    split
    · rfl
    · rfl
  have hx := congrArg (List.drop 7) heq
  rw [sum, sum, hdrop, hdrop] at hx
  rw [sum, sum, hx]

/-- The file that is renamed. -/
theorem Inv.rename (hinv : Inv h content s) (hi : s.gs[i]? = some g) {ino : Nat} {hashed : File}
    (hphase : g.phase = .verified ino hashed) :
    Inv h content { s.setPhase i g (.returned true) with
      disk := s.disk.rename g.path ino
      made := Function.update s.made g.path (some g.blob) } := by
  have hg := hinv.sound g (List.mem_of_getElem? hi)
  simp only [Goroutine.Sound, hphase] at hg
  obtain ⟨hino, hdata, hsum, hsize, hcontent⟩ := hg
  have halone := hinv.alone hi (by simp only [Goroutine.holds, hphase])
  -- apart from the new name of the file, it is removed
  have hremoved : Inv h content { s with
      disk := s.disk.removeTmp g.path
      gs := s.gs.set i { g with phase := .failed .other } } :=
    hinv.removed hi rfl halone rfl nofun
  have hdest : (s.disk.rename g.path ino).destFile g.path = some hashed := by
    rw [Disk.destFile, show (s.disk.rename g.path ino).dest g.path = some ino from
      Function.update_self _ _ _]
    exact congrArg some hdata
  have hnew : Right h content (s.disk.rename g.path ino) g.blob :=
    ⟨hashed, hdest, hsum, hsize, hcontent⟩
  -- a blob with the same path has the same digest
  have hkept : ∀ b, Right h content s.disk b → Right h content (s.disk.rename g.path ino) b := by
    rintro b ⟨f, hf, hsum', hsize', hcontent'⟩
    by_cases hpath : digestToPath b.digest = g.path
    · have hdigest : b.digest = g.blob.digest := by
        rw [← hsum', ← hsum]
        refine digestToPath_sum ?_
        rw [hsum', hsum]
        exact hpath
      rw [hdigest, ← hcontent] at hcontent'
      subst hcontent'
      exact ⟨f, hpath ▸ hdest, hsum', hsize', hdigest ▸ hcontent⟩
    · refine ⟨f, ?_, hsum', hsize', hcontent'⟩
      show ((Function.update s.disk.dest g.path (some ino)) (digestToPath b.digest)).map _ = some f
      rw [Function.update_of_ne hpath]
      exact hf
  have hget : ∀ (j : Nat) (gj : Goroutine),
      (s.gs.set i { g with phase := .returned true })[j]? = some gj →
      gj.holds = true → (s.gs.set i { g with phase := .failed .other })[j]? = some gj := by
    intro j gj hj hholds
    by_cases heq : j = i
    · subst j
      rw [List.getElem?_set_self (lt_of_getElem? hi)] at hj
      rw [← Option.some.inj hj] at hholds
      cases hholds
    · rw [List.getElem?_set_ne (Ne.symm heq)] at hj ⊢
      exact hj
  refine ⟨⟨hremoved.wf.tmp_lt, ?_, hremoved.wf.tmp_inj, ?_⟩, ?_, ?_, ?_, ?_⟩
  · intro p ino' hp
    by_cases heq : p = g.path
    · subst p
      rw [show (s.disk.rename g.path ino).dest g.path = some ino from
        Function.update_self _ _ _] at hp
      exact Option.some.inj hp ▸ hinv.wf.tmp_lt _ _ hino
    · rw [show (s.disk.rename g.path ino).dest p = s.disk.dest p from
        Function.update_of_ne heq _ _] at hp
      exact hinv.wf.dest_lt p ino' hp
  · intro p q ino' hp hq
    by_cases heq : q = g.path
    · subst q
      rw [show (s.disk.rename g.path ino).dest g.path = some ino from
        Function.update_self _ _ _] at hq
      obtain rfl := Option.some.inj hq
      by_cases hpp : p = g.path
      · subst p
        rw [show (s.disk.rename g.path ino).tmp g.path = none from
          Function.update_self _ _ _] at hp
        cases hp
      · rw [show (s.disk.rename g.path ino).tmp p = s.disk.tmp p from
          Function.update_of_ne hpp _ _] at hp
        exact hpp (hinv.wf.tmp_inj p _ ino hp hino)
    · rw [show (s.disk.rename g.path ino).dest q = s.disk.dest q from
        Function.update_of_ne heq _ _] at hq
      exact hremoved.wf.tmp_dest p q ino' hp hq
  · intro j l gj gl hj hl hne hholds hholds'
    exact hremoved.apart j l gj gl (hget j gj hj hholds) (hget l gl hl hholds') hne hholds hholds'
  · intro gj hmem
    cases hholds : gj.holds with
    | false => exact sound_of_not_holds hholds
    | true =>
      obtain ⟨j, hj⟩ := List.mem_iff_getElem?.mp hmem
      exact hremoved.sound gj (List.mem_of_getElem? (hget j gj hj hholds))
  · rintro b (hskipped | ⟨gj, hmem, hret, rfl⟩ | hmade)
    · exact hkept b (hinv.right b (.inl hskipped))
    · rcases List.mem_or_eq_of_mem_set hmem with hold | rfl
      · exact hkept _ (hinv.right _ (.inr (.inl ⟨gj, hold, hret, rfl⟩)))
      · exact hnew
    · by_cases hpath : digestToPath b.digest = g.path
      · have hb : Function.update s.made g.path (some g.blob) (digestToPath b.digest) = some b :=
          hmade
        rw [hpath, Function.update_self] at hb
        exact Option.some.inj hb ▸ hnew
      · have hb : Function.update s.made g.path (some g.blob) (digestToPath b.digest) = some b :=
          hmade
        rw [Function.update_of_ne hpath] at hb
        exact hkept b (hinv.right b (.inr (.inr hb)))
  · intro p b hp
    have hb : Function.update s.made g.path (some g.blob) p = some b := hp
    by_cases heq : p = g.path
    · subst p
      rw [Function.update_self] at hb
      exact Option.some.inj hb ▸ rfl
    · rw [Function.update_of_ne heq] at hb
      exact hinv.made p b hb

theorem removeTmp_of_none {k : Disk} {p : GoString} (hp : k.tmp p = none) :
    k.removeTmp p = k := by
  rw [Disk.removeTmp, ← hp, Function.update_eq_self]

/-- Behind an error the goroutine starts over or returns. -/
theorem Inv.retry (hinv : Inv h content s) (hi : s.gs[i]? = some g) (e : Err)
    (hcareful : g.blob.size < resumeThreshold → s.disk.HasTmp g.path → Alone s i g) :
    Inv h content { s with
      disk := if g.blob.size < resumeThreshold then s.disk.removeTmp g.path else s.disk
      gs := s.gs.set i (g.retry e) } := by
  have hphase : (g.retry e).phase = .returned false ∨ (g.retry e).phase = .waiting := by
    exact ite_eq_or_eq _ _ _
  have hholds : (g.retry e).holds = false := by
    rcases hphase with hp | hp <;> simp only [Goroutine.holds, hp]
  have hret : (g.retry e).phase ≠ .returned true := by
    rcases hphase with hp | hp <;> rw [hp] <;> nofun
  have hquiet : Inv h content { s with gs := s.gs.set i (g.retry e) } :=
    hinv.quiet hi rfl (fun hh => absurd hh (by rw [hholds]; exact Bool.false_ne_true))
      (sound_of_not_holds hholds) hret
  split
  · rename_i hsize
    cases htmp : s.disk.tmp g.path with
    | none =>
      rw [removeTmp_of_none htmp]
      exact hquiet
    | some ino =>
      have halone := hcareful hsize (by rw [Disk.HasTmp, htmp]; rfl)
      exact hinv.removed hi rfl halone hholds hret
  · exact hquiet

theorem step_inv {s' : State} {a : Label} (hinv : Inv h content s) (hcareful : Careful h s a)
    (henabled : Enabled h content s a) (hstep : step h s a = some s') : Inv h content s' := by
  obtain ⟨g, hi, hg⟩ := Option.bind_eq_some_iff.mp hstep
  have hcareful := hcareful g hi
  cases a with
  | resolve i r =>
    simp only [Goroutine.step] at hg
    split at hg
    · obtain rfl := Option.some.inj hg
      cases r with
      | none => exact hinv.idle hi rfl nofun
      | some e => exact hinv.idle hi rfl nofun
    · cases hg
  | quit i =>
    simp only [Goroutine.step] at hg
    split at hg
    · obtain rfl := Option.some.inj hg
      exact hinv.idle hi rfl nofun
    · cases hg
  | stat i =>
    simp only [Goroutine.step] at hg
    split at hg
    · obtain rfl := Option.some.inj hg
      exact hinv.stat hi hcareful
    · cases hg
  | respond i r =>
    simp only [Goroutine.step] at hg
    cases hphase : g.phase with
    | requesting existing =>
      rw [hphase] at hg
      cases r with
      | full =>
        obtain rfl := Option.some.inj hg
        exact hinv.idle hi rfl nofun
      | partialContent =>
        obtain rfl := Option.some.inj hg
        have hsound := hinv.sound g (List.mem_of_getElem? hi)
        simp only [Goroutine.Sound, hphase] at hsound
        refine hinv.quiet hi rfl (fun hh => ?_) hsound nofun
        simp only [Goroutine.holds, hphase]
        exact hh
      | error e =>
        obtain rfl := Option.some.inj hg
        exact hinv.idle hi rfl nofun
    | _ =>
      rw [hphase] at hg
      cases hg
  | save i opened readable created =>
    simp only [Goroutine.step] at hg
    split at hg
    · rename_i existing hphase
      obtain rfl := Option.some.inj hg
      exact hinv.save hi hphase hcareful opened readable created
    · cases hg
  | read i p written =>
    simp only [Goroutine.step] at hg
    split at hg
    · rename_i ino off stale hashed short hphase
      obtain rfl := Option.some.inj hg
      exact hinv.read hi hphase
    · cases hg
  | readError i e =>
    simp only [Goroutine.step] at hg
    split at hg
    · obtain rfl := Option.some.inj hg
      exact hinv.idle hi rfl nofun
    · cases hg
  | eof i =>
    simp only [Goroutine.step] at hg
    split at hg
    · rename_i ino off stale hashed short hphase
      obtain rfl := Option.some.inj hg
      have hsound := hinv.sound g (List.mem_of_getElem? hi)
      simp only [Goroutine.Sound, hphase] at hsound
      refine hinv.quiet hi rfl (fun _ => ?_) ⟨hsound.1, fun hs => (hsound.2 hs).1⟩ nofun
      simp only [Goroutine.holds, hphase]
    · cases hg
  | check i =>
    simp only [Goroutine.step] at hg
    split at hg
    · rename_i ino stale hashed short hphase
      split at hg
      · rename_i hpasses
        obtain rfl := Option.some.inj hg
        exact hinv.check hi hphase hcareful (henabled g hi (stale ++ hashed) (by rw [Goroutine.received, hphase]; rfl))
          hpasses
      · obtain rfl := Option.some.inj hg
        have halone := hinv.alone hi (by simp only [Goroutine.holds, hphase])
        exact hinv.removed hi rfl halone rfl nofun
    · cases hg
  | rename i ok =>
    simp only [Goroutine.step] at hg
    split at hg
    · rename_i ino hashed hphase
      have hsound := hinv.sound g (List.mem_of_getElem? hi)
      simp only [Goroutine.Sound, hphase] at hsound
      rw [hsound.1] at hg
      simp only at hg
      split at hg
      · obtain rfl := Option.some.inj hg
        exact hinv.rename hi hphase
      · obtain rfl := Option.some.inj hg
        exact hinv.idle hi rfl nofun
    · cases hg
  | retry i =>
    simp only [Goroutine.step] at hg
    split at hg
    · rename_i e hphase
      obtain rfl := Option.some.inj hg
      exact hinv.retry hi e hcareful
    · cases hg

/-! ## The runs -/

theorem start_inv {k : Disk} {blobs : List Blob} (hwf : k.Wf)
    (hintact : k.Intact h content blobs) : Inv h content (start k blobs) := by
  have hphase : ∀ g ∈ (start k blobs).gs, g.phase = .waiting := by
    intro g hmem
    obtain ⟨b, -, rfl⟩ := List.mem_map.mp hmem
    rfl
  refine ⟨hwf, ?_, ?_, ?_, nofun⟩
  · intro i j g g' hi hj _ hholds
    simp only [Goroutine.holds, hphase g (List.mem_of_getElem? hi)] at hholds
    cases hholds
  · intro g hmem
    simp only [Goroutine.Sound, hphase g hmem]
  · rintro b (hskipped | ⟨g, hmem, hret, -⟩ | hmade)
    · obtain ⟨hmem, hpresent⟩ := List.mem_filter.mp hskipped
      obtain ⟨f, hf, hlen⟩ := (Option.any_eq_true _ _).mp hpresent
      have hlen := of_decide_eq_true hlen
      obtain ⟨hsum, hcontent⟩ := hintact b hmem f hf hlen
      exact ⟨f, hf, hsum, hlen, hcontent⟩
    · rw [hphase g hmem] at hret
      cases hret
    · cases hmade

/-- The blobs stay those of the list. -/
def State.Lists (s : State) (blobs : List Blob) : Prop :=
  ∀ b ∈ blobs, b ∈ s.skipped ∨ ∃ g ∈ s.gs, g.blob = b

theorem start_lists (k : Disk) (blobs : List Blob) : (start k blobs).Lists blobs := by
  intro b hmem
  by_cases hb : k.present b = true
  · exact .inl (List.mem_filter.mpr ⟨hmem, hb⟩)
  · refine .inr ⟨_, List.mem_map.mpr ⟨b, List.mem_filter.mpr ⟨hmem, ?_⟩, rfl⟩, rfl⟩
    rw [Bool.eq_false_of_not_eq_true hb]
    rfl

/-- A step is one of a goroutine, which keeps its blob. -/
theorem step_gs {s' : State} {a : Label} (hstep : step h s a = some s') :
    s'.skipped = s.skipped ∧ ∃ g g', s.gs[a.index]? = some g ∧ s'.gs = s.gs.set a.index g' ∧
      g'.blob = g.blob := by
  obtain ⟨g, hi, hg⟩ := Option.bind_eq_some_iff.mp hstep
  have hfresh : ∀ (s₁ : State) (i : Nat) (stale : File) (created : Bool),
      (s₁.fresh i g stale created).skipped = s₁.skipped ∧
        ∃ g', (s₁.fresh i g stale created).gs = s₁.gs.set i g' ∧ g'.blob = g.blob := by
    intro s₁ i stale created
    rw [State.fresh]
    split
    · exact ⟨rfl, _, rfl, rfl⟩
    · exact ⟨rfl, _, rfl, rfl⟩
  suffices hs : s'.skipped = s.skipped ∧ ∃ g', s'.gs = s.gs.set a.index g' ∧ g'.blob = g.blob by
    obtain ⟨hskipped, g', hgs, hblob⟩ := hs
    exact ⟨hskipped, g, g', hi, hgs, hblob⟩
  cases a with
  | stat i =>
    simp only [Goroutine.step, State.stat] at hg
    grind [State.setPhase, Label.index]
  | save i opened readable created =>
    simp only [Goroutine.step] at hg
    split at hg
    · obtain rfl := Option.some.inj hg
      simp only [State.save]
      split
      · split
        · exact hfresh s _ _ _
        · split
          · exact ⟨rfl, _, rfl, rfl⟩
          · exact hfresh _ _ _ _
      · exact hfresh s _ _ _
    · cases hg
  | retry i =>
    simp only [Goroutine.step] at hg
    split at hg
    · obtain rfl := Option.some.inj hg
      exact ⟨rfl, _, rfl, rfl⟩
    · cases hg
  | _ =>
    simp only [Goroutine.step] at hg
    grind [State.setPhase, Label.index]

theorem step_lists {s' : State} {a : Label} {blobs : List Blob} (hlists : s.Lists blobs)
    (hstep : step h s a = some s') : s'.Lists blobs := by
  obtain ⟨hskipped, g, g', hi, hgs, hblob⟩ := step_gs hstep
  intro b hmem
  rcases hlists b hmem with hb | ⟨gj, hgj, rfl⟩
  · exact .inl (hskipped ▸ hb)
  · obtain ⟨j, hj⟩ := List.mem_iff_getElem?.mp hgj
    refine .inr ?_
    rw [hgs]
    by_cases heq : a.index = j
    · subst j
      obtain rfl := Option.some.inj (hi.symm.trans hj)
      exact ⟨g', List.mem_set (lt_of_getElem? hi) g', hblob⟩
    · refine ⟨gj, List.mem_of_getElem? (i := j) ?_, rfl⟩
      rw [List.getElem?_set_ne heq]
      exact hj

/-- A file that was renamed to the path of a blob is the blob, and where `Download` returns
nil the files of all blobs are there. -/
theorem download_intact {k : Disk} {blobs : List Blob} (hwf : k.Wf)
    (hintact : k.Intact h content blobs)
    (hreach : ((sys h content k blobs).restrict (Careful h)).Reachable s) :
    (∀ p b, s.made p = some b →
      ∃ f ∈ s.disk.destFile p, (f.length : Int) = b.size ∧ sum h f = b.digest) ∧
    (s.succeeds → ∀ b ∈ blobs,
      ∃ f ∈ s.disk.destFile (digestToPath b.digest),
        (f.length : Int) = b.size ∧ sum h f = b.digest) := by
  have hind : ((sys h content k blobs).restrict (Careful h)).Inductive
      (fun s => Inv h content s ∧ s.Lists blobs) := by
    constructor
    · rintro s rfl
      exact ⟨start_inv hwf hintact, start_lists k blobs⟩
    · rintro s a s' ⟨hinv, hlists⟩ ⟨hcareful, henabled, hstep⟩
      exact ⟨step_inv hinv hcareful henabled hstep, step_lists hlists hstep⟩
  have hinv := hind.invariant s hreach
  have hright : ∀ b, s.Done b → ∃ f ∈ s.disk.destFile (digestToPath b.digest),
      (f.length : Int) = b.size ∧ sum h f = b.digest := by
    intro b hb
    obtain ⟨f, hf, hsum, hsize, -⟩ := hinv.1.right b hb
    exact ⟨f, hf, hsize, hsum⟩
  constructor
  · intro p b hp
    obtain rfl := hinv.1.made p b hp
    exact hright b (.inr (.inr hp))
  · intro hsucceeds b hmem
    rcases hinv.2 b hmem with hb | ⟨g, hg, rfl⟩
    · exact hright b (.inl hb)
    · exact hright _ (.inr (.inl ⟨g, hg, hsucceeds g hg, rfl⟩))

/-! ## Two ways to a wrong file -/

def Disk.empty : Disk := ⟨fun _ => none, fun _ => none, fun _ => [], 0⟩

theorem empty_wf : Disk.empty.Wf := ⟨nofun, nofun, nofun, nofun⟩

theorem empty_intact (h : File → List UInt8) (content : GoString → File) (blobs : List Blob) :
    Disk.empty.Intact h content blobs := nofun

theorem guarded_step {h : File → List UInt8} {content : GoString → File} {blobs : List Blob}
    (s : State) (a : Label) (s' : State)
    (hstep : TSys.guarded (Enabled h content) (step h) s a = some s') :
    (sys h content .empty blobs).step s a s' :=
  TSys.guarded_eq_some.mp hstep

/-- One byte, that is its own hash. -/
def oneByte : Blob := ⟨sum id [1], 1⟩

/-- An attempt, up to its rename. -/
def attempt (i written : Nat) : List Label :=
  [.resolve i none, .stat i, .respond i .full, .save i true 0 true, .read i [1] written, .eof i,
    .check i]

/-- Two blobs, whose texts are their hashes. -/
def threeBytes : Blob := ⟨sum id [1, 2, 3], 3⟩

def twoBytes : Blob := ⟨sum id [7, 8], 2⟩

def bytesOf (digest : GoString) : File := if digest = threeBytes.digest then [1, 2, 3] else [7, 8]

/-- The first goroutine fails in the middle of its file and starts again. -/
def interleaved : List Label :=
  [.resolve 0 none, .resolve 1 none, .stat 0, .respond 0 .full, .stat 1, .save 0 true 0 true,
    .respond 1 .full, .read 0 [1, 2] 2, .save 1 true 0 true, .readError 0 .other, .read 1 [7] 1,
    .retry 0, .read 1 [8] 1, .eof 1, .resolve 0 none, .stat 0, .check 1, .respond 0 .full,
    .save 0 true 0 true, .rename 1 true, .read 0 [1] 1, .read 0 [2, 3] 2, .eof 0, .check 0,
    .rename 0 true]

theorem download_intact_two : ∃ s,
    ((sys id bytesOf .empty [threeBytes, twoBytes]).restrict (Careful id)).Reachable s ∧
      s.succeeds ∧ ∀ b ∈ [threeBytes, twoBytes], ∃ f ∈ s.disk.destFile (digestToPath b.digest),
        (f.length : Int) = b.size ∧ sum id f = b.digest := by
  obtain ⟨s, hreach, hphase⟩ := TSys.Reachable.exists_of_run_restrict
    (T := sys id bytesOf .empty [threeBytes, twoBytes]) (G := Careful id)
    (P := fun s => ∀ g ∈ s.gs, g.phase = .returned true) guarded_step (.init rfl)
    interleaved (by decide)
  exact ⟨s, hreach, hphase,
    (download_intact empty_wf (empty_intact _ _ _) hreach).2 hphase⟩

/-- A write that fails leaves an empty file, and nil is returned. A second goroutine of the
same digest empties the file that the first one then renames. -/
theorem download_corrupts :
    (∃ s, (sys id (fun _ => [1]) .empty [oneByte]).Reachable s ∧ s.succeeds ∧
      s.made (digestToPath oneByte.digest) = some oneByte ∧
      s.disk.destFile (digestToPath oneByte.digest) = some []) ∧
    ∃ s, (sys id (fun _ => [1]) .empty [oneByte, oneByte]).Reachable s ∧
      s.made (digestToPath oneByte.digest) = some oneByte ∧
      s.disk.destFile (digestToPath oneByte.digest) = some [] := by
  constructor
  · exact TSys.Reachable.exists_of_run
      (P := fun s => (∀ g ∈ s.gs, g.phase = .returned true) ∧
        s.made (digestToPath oneByte.digest) = some oneByte ∧
        s.disk.destFile (digestToPath oneByte.digest) = some [])
      guarded_step (.init rfl) (attempt 0 0 ++ [.rename 0 true]) (by decide)
  · exact TSys.Reachable.exists_of_run guarded_step (.init rfl)
      (attempt 0 1 ++ [.resolve 1 none, .stat 1, .respond 1 .full, .save 1 true 0 true,
        .rename 0 true]) (by decide)

end Prismalama.Transfer
