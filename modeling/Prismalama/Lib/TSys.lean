import Mathlib.Tactic

/-!
# Labelled transition systems

A system is a set of initial states and a labelled step relation. Its
reachable states carry the induction that every safety result rests on:
an inductive property is an invariant (`Inductive.invariant`), possibly
relative to one already proved (`Inductive.relative`).

`restrict T G` keeps the steps of `T` that meet the guard `G`: what holds in
every reachable state of `restrict T G` holds in every run of `T` whose steps
all meet `G`.
-/

namespace Prismalama.Lib

universe u v

/-- A labelled transition system over states `σ` and labels `α`. -/
structure TSys (σ : Type u) (α : Type v) where
  init : σ → Prop
  step : σ → α → σ → Prop

namespace TSys

variable {σ : Type u} {α : Type v}

/-- The states some finite run ends in. -/
inductive Reachable (T : TSys σ α) : σ → Prop
  | init {s} : T.init s → T.Reachable s
  | step {s a s'} : T.Reachable s → T.step s a s' → T.Reachable s'

/-- `P` holds in every reachable state. -/
def Invariant (T : TSys σ α) (P : σ → Prop) : Prop :=
  ∀ s, T.Reachable s → P s

/-- `P` holds initially and every step preserves it. -/
structure Inductive (T : TSys σ α) (P : σ → Prop) : Prop where
  init : ∀ s, T.init s → P s
  step : ∀ s a s', P s → T.step s a s' → P s'

/-- An inductive property is an invariant. -/
theorem Inductive.invariant {T : TSys σ α} {P : σ → Prop} (h : T.Inductive P) :
    T.Invariant P := by
  intro s hreach
  induction hreach with
  | init h0 => exact h.init _ h0
  | step _ hstep ih => exact h.step _ _ _ ih hstep

/-- Induction that may use an invariant proved before. -/
theorem Invariant.relative {T : TSys σ α} {P Q : σ → Prop} (hQ : T.Invariant Q)
    (init : ∀ s, T.init s → P s)
    (step : ∀ s a s', Q s → P s → T.step s a s' → P s') : T.Invariant P := by
  intro s hreach
  induction hreach with
  | init h0 => exact init _ h0
  | step hprev hstep ih => exact step _ _ _ (hQ _ hprev) ih hstep

/-- The system that only takes the steps of `T` meeting the guard `G`. -/
def restrict (T : TSys σ α) (G : σ → α → Prop) : TSys σ α where
  init := T.init
  step s a s' := G s a ∧ T.step s a s'

/-- A guarded run is a run. -/
theorem Reachable.of_restrict {T : TSys σ α} {G : σ → α → Prop} {s : σ}
    (h : (T.restrict G).Reachable s) : T.Reachable s := by
  induction h with
  | init h0 => exact .init h0
  | step _ hstep ih => exact .step ih hstep.2

/-- Invariants survive a restriction of the steps. -/
theorem Invariant.restrict {T : TSys σ α} {P : σ → Prop} (h : T.Invariant P)
    (G : σ → α → Prop) : (T.restrict G).Invariant P :=
  fun s hs => h s hs.of_restrict

/-- The steps of a finite run, last one first, and the state it ends in. -/
inductive Trace (T : TSys σ α) : List (σ × α × σ) → σ → Prop
  | init {s} : T.init s → T.Trace [] s
  | step {ts s a s'} : T.Trace ts s → T.step s a s' → T.Trace ((s, a, s') :: ts) s'

theorem Trace.reachable {T : TSys σ α} {ts : List (σ × α × σ)} {s : σ} (h : T.Trace ts s) :
    T.Reachable s := by
  induction h with
  | init h0 => exact .init h0
  | step _ hstep ih => exact .step ih hstep

/-- What every step from a reachable state does, every step of a run does. -/
theorem Trace.forall_mem {T : TSys σ α} {ts : List (σ × α × σ)} {s : σ} (h : T.Trace ts s)
    {Q : σ → α → σ → Prop} (hQ : ∀ s a s', T.Reachable s → T.step s a s' → Q s a s') :
    ∀ t ∈ ts, Q t.1 t.2.1 t.2.2 := by
  induction h with
  | init _ => exact fun t ht => absurd ht List.not_mem_nil
  | step hprev hstep ih =>
    intro t ht
    rcases List.mem_cons.mp ht with rfl | ht
    · exact hQ _ _ _ hprev.reachable hstep
    · exact ih t ht

/-! ## Deterministic systems -/

/-- The system that applies `f` to any label the guard `G` lets through. -/
def ofFn (init : σ → Prop) (G : σ → α → Prop) (f : σ → α → σ) : TSys σ α where
  init := init
  step s a s' := G s a ∧ s' = f s a

/-- The guard lets through each label of the list in turn. -/
def Runs (G : σ → α → Prop) (f : σ → α → σ) : σ → List α → Prop
  | _, [] => True
  | s, a :: rest => G s a ∧ Runs G f (f s a) rest

instance Runs.decidable (G : σ → α → Prop) (f : σ → α → σ) [∀ s a, Decidable (G s a)] :
    ∀ s as, Decidable (Runs G f s as)
  | _, [] => .isTrue trivial
  | s, a :: rest => @instDecidableAnd _ _ _ (Runs.decidable G f (f s a) rest)

/-- A list of enabled labels leads to a reachable state. -/
theorem Reachable.run {init : σ → Prop} {G : σ → α → Prop} {f : σ → α → σ} {s : σ}
    (hs : (ofFn init G f).Reachable s) (as : List α) (h : Runs G f s as) :
    (ofFn init G f).Reachable (as.foldl f s) := by
  induction as generalizing s with
  | nil => exact hs
  | cons a rest ih => exact ih (.step hs ⟨h.1, rfl⟩) h.2

/-- The same for a system whose steps are restricted. -/
theorem Reachable.run_restrict {init : σ → Prop} {G C : σ → α → Prop} {f : σ → α → σ} {s : σ}
    (hs : ((ofFn init G f).restrict C).Reachable s) (as : List α)
    (h : Runs (fun s a => C s a ∧ G s a) f s as) :
    ((ofFn init G f).restrict C).Reachable (as.foldl f s) := by
  induction as generalizing s with
  | nil => exact hs
  | cons a rest ih => exact ih (.step hs ⟨h.1.1, h.1.2, rfl⟩) h.2

/-- A list of labels that a function takes as steps leads to a reachable state. -/
theorem Reachable.run_partial {T : TSys σ α} {f : σ → α → Option σ}
    (hf : ∀ s a s', f s a = some s' → T.step s a s') {s s' : σ} (hs : T.Reachable s)
    (as : List α) (h : as.foldlM f s = some s') : T.Reachable s' := by
  induction as generalizing s with
  | nil =>
    obtain rfl := Option.some.inj h
    exact hs
  | cons a rest ih =>
    rw [List.foldlM_cons] at h
    obtain ⟨t, ht, hrest⟩ := Option.bind_eq_some_iff.mp h
    exact ih (.step hs (hf s a t ht)) hrest

/-- A run whose last state passes a test. -/
theorem Reachable.exists_of_run {T : TSys σ α} {f : σ → α → Option σ}
    (hf : ∀ s a s', f s a = some s' → T.step s a s') {s : σ} (hs : T.Reachable s)
    (as : List α) {P : σ → Prop} [DecidablePred P]
    (h : (as.foldlM f s).any (fun s' => decide (P s')) = true) : ∃ s', T.Reachable s' ∧ P s' := by
  cases hrun : as.foldlM f s with
  | none =>
    rw [hrun] at h
    cases h
  | some s' =>
    rw [hrun] at h
    exact ⟨s', hs.run_partial hf as hrun, of_decide_eq_true h⟩

/-- The step function `f` where the guard `G` lets it through. -/
def guarded (G : σ → α → Prop) [∀ s, DecidablePred (G s)] (f : σ → α → Option σ) (s : σ) (a : α) :
    Option σ :=
  if G s a then f s a else none

theorem guarded_eq_some {G : σ → α → Prop} [∀ s, DecidablePred (G s)] {f : σ → α → Option σ}
    {s s' : σ} {a : α} : guarded G f s a = some s' ↔ G s a ∧ f s a = some s' := by
  unfold guarded
  split
  · rename_i hG
    exact ⟨fun h => ⟨hG, h⟩, And.right⟩
  · rename_i hG
    exact ⟨nofun, fun h => absurd h.1 hG⟩

/-- The same for a system whose steps are restricted. -/
theorem Reachable.exists_of_run_restrict {T : TSys σ α} {f : σ → α → Option σ}
    (hf : ∀ s a s', f s a = some s' → T.step s a s') {G : σ → α → Prop}
    [∀ s, DecidablePred (G s)] {s : σ} (hs : (T.restrict G).Reachable s) (as : List α)
    {P : σ → Prop} [DecidablePred P]
    (h : (as.foldlM (guarded G f) s).any (fun s' => decide (P s')) = true) :
    ∃ s', (T.restrict G).Reachable s' ∧ P s' := by
  refine hs.exists_of_run (fun s a s' hstep => ?_) as h
  obtain ⟨hG, hstep⟩ := guarded_eq_some.mp hstep
  exact ⟨hG, hf s a s' hstep⟩

/-- A trace that goes on along a list of labels. -/
theorem Trace.exists_of_run {T : TSys σ α} {f : σ → α → Option σ}
    (hf : ∀ s a s', f s a = some s' → T.step s a s') {ts : List (σ × α × σ)} {s : σ}
    (hs : T.Trace ts s) (as : List α) {P : σ → Prop} [DecidablePred P]
    (h : (as.foldlM f s).any (fun s' => decide (P s')) = true) : ∃ ts s', T.Trace ts s' ∧ P s' := by
  induction as generalizing s ts with
  | nil => exact ⟨ts, s, hs, of_decide_eq_true h⟩
  | cons a as ih =>
    rw [List.foldlM_cons] at h
    cases hnext : f s a with
    | none =>
      rw [hnext] at h
      cases h
    | some s' =>
      rw [hnext] at h
      exact ih (hs.step (hf s a s' hnext)) h

end TSys

end Prismalama.Lib
