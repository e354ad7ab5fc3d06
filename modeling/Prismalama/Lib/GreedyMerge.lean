import Mathlib.Tactic

/-!
# Greedy merging of neighbours

A text is a list of segments. Some neighbours are candidates, each with a weight, and a candidate
of least weight is merged until there is none. With `leftmost` the first one of the least weight
is taken, and the outcome is determined; without it there is a choice.
-/

namespace Prismalama.Lib

structure Merging (α κ ω : Type*) where
  /-- What two neighbours are merged with; `none` for no candidate. -/
  cand : List α → List α → Option κ
  weight : κ → ω
  leftmost : Bool

namespace Merging

variable {α κ ω : Type*}

/-- A candidate of the segments, between what is before it and what is behind it. -/
structure CandAt (M : Merging α κ ω) (segs before : List (List α)) (l r : List α)
    (after : List (List α)) (k : κ) : Prop where
  split : segs = before ++ l :: r :: after
  cand : M.cand l r = some k

/-- No neighbours are a candidate. -/
def Done (M : Merging α κ ω) (segs : List (List α)) : Prop :=
  ∀ before l r after k, ¬M.CandAt segs before l r after k

variable [LinearOrder ω]

/-- A candidate at a position is taken before another one. -/
def Before (M : Merging α κ ω) (x y : κ × Nat) : Prop :=
  M.weight x.1 < M.weight y.1 ∨ M.weight x.1 = M.weight y.1 ∧ M.leftmost = true ∧ x.2 < y.2

instance (M : Merging α κ ω) (x y : κ × Nat) : Decidable (M.Before x y) :=
  inferInstanceAs (Decidable (_ ∨ _))

/-- A candidate is merged that no other one is taken before. -/
def Step (M : Merging α κ ω) (segs segs' : List (List α)) : Prop :=
  ∃ before l r after k, M.CandAt segs before l r after k ∧ segs' = before ++ (l ++ r) :: after ∧
    ∀ before' l' r' after' k', M.CandAt segs before' l' r' after' k' →
      ¬M.Before (k', before'.length) (k, before.length)

/-- What merging can end with. -/
inductive Merges (M : Merging α κ ω) : List (List α) → List (List α) → Prop
  | done {segs : List (List α)} : M.Done segs → Merges M segs segs
  | step {segs segs' out : List (List α)} : M.Step segs segs' → Merges M segs' out →
      Merges M segs out

/-! ## The order -/

/-- The order of the candidates, as one of pairs. -/
def key (M : Merging α κ ω) (x : κ × Nat) : ω ×ₗ Nat :=
  toLex (M.weight x.1, if M.leftmost then x.2 else 0)

theorem before_iff (M : Merging α κ ω) (x y : κ × Nat) : M.Before x y ↔ M.key x < M.key y := by
  unfold Before key
  rw [Prod.Lex.toLex_lt_toLex]
  cases M.leftmost <;> simp

theorem Before.irrefl (M : Merging α κ ω) (x : κ × Nat) : ¬M.Before x x := by
  rw [before_iff]
  exact lt_irrefl _

/-- Some element of a list is not behind another one. -/
theorem exists_least {β : Type*} (M : Merging α κ ω) (f : β → κ × Nat) {q : List β} (hq : q ≠ []) :
    ∃ x ∈ q, ∀ y ∈ q, ¬M.Before (f y) (f x) := by
  induction q with
  | nil => exact absurd rfl hq
  | cons z q ih =>
    by_cases hne : q = []
    · subst hne
      refine ⟨z, List.mem_cons_self, fun y hy => ?_⟩
      rw [List.mem_singleton.mp hy]
      exact Before.irrefl M (f z)
    · obtain ⟨x, hx, hleast⟩ := ih hne
      simp only [before_iff, not_lt] at hleast ⊢
      rcases le_total (M.key (f z)) (M.key (f x)) with hle | hle
      · exact ⟨z, List.mem_cons_self, List.forall_mem_cons.mpr
          ⟨le_refl _, fun y hy => hle.trans (hleast y hy)⟩⟩
      · exact ⟨x, List.mem_cons_of_mem z hx, List.forall_mem_cons.mpr ⟨hle, hleast⟩⟩

/-! ## The leftmost candidate -/

omit [LinearOrder ω] in
theorem candAt_cons {M : Merging α κ ω} {l₀ r₀ : List α} {segs before : List (List α)}
    {l r : List α} {after : List (List α)} {k : κ} :
    M.CandAt (l₀ :: r₀ :: segs) before l r after k ↔
      (before = [] ∧ l = l₀ ∧ r = r₀ ∧ after = segs ∧ M.cand l₀ r₀ = some k) ∨
      ∃ rest, before = l₀ :: rest ∧ M.CandAt (r₀ :: segs) rest l r after k := by
  constructor
  · rintro ⟨hsplit, hcand⟩
    cases before with
    | nil =>
      simp only [List.nil_append, List.cons.injEq] at hsplit
      obtain ⟨rfl, rfl, rfl⟩ := hsplit
      exact .inl ⟨rfl, rfl, rfl, rfl, hcand⟩
    | cons s rest =>
      rw [List.cons_append, List.cons.injEq] at hsplit
      obtain ⟨rfl, hsplit⟩ := hsplit
      exact .inr ⟨rest, rfl, hsplit, hcand⟩
  · rintro (⟨rfl, rfl, rfl, rfl, hcand⟩ | ⟨rest, rfl, hsplit, hcand⟩)
    · exact ⟨rfl, hcand⟩
    · exact ⟨congrArg _ hsplit, hcand⟩

omit [LinearOrder ω] in
theorem not_candAt_of_length {M : Merging α κ ω} {segs before : List (List α)} {l r : List α}
    {after : List (List α)} {k : κ} (hlen : segs.length < 2) :
    ¬M.CandAt segs before l r after k := by
  intro h
  rw [h.split, List.length_append, List.length_cons, List.length_cons] at hlen
  omega

/-- The first of the candidates of the least weight, with its position. -/
def best (M : Merging α κ ω) : List (List α) → Option (κ × Nat)
  | l :: r :: segs =>
    match M.cand l r, best M (r :: segs) with
    | none, none => none
    | some k, none => some (k, 0)
    | none, some (k', i) => some (k', i + 1)
    | some k, some (k', i) => if M.weight k' < M.weight k then some (k', i + 1) else some (k, 0)
  | _ => none

def mergeAt : Nat → List (List α) → List (List α)
  | 0, l :: r :: segs => (l ++ r) :: segs
  | i + 1, s :: segs => s :: mergeAt i segs
  | _, segs => segs

/-- Merge the leftmost candidate of the least weight, at most `n` times. -/
def greedy (M : Merging α κ ω) : Nat → List (List α) → List (List α)
  | 0, segs => segs
  | n + 1, segs =>
    match M.best segs with
    | none => segs
    | some (_, i) => greedy M n (mergeAt i segs)

theorem mergeAt_append (before : List (List α)) (l r : List α) (after : List (List α)) :
    mergeAt before.length (before ++ l :: r :: after) = before ++ (l ++ r) :: after := by
  induction before with
  | nil => rfl
  | cons s before ih => exact congrArg (s :: ·) ih

theorem best_none {M : Merging α κ ω} {segs : List (List α)} (h : M.best segs = none) :
    M.Done segs := by
  fun_induction best M segs with
  | case1 l r segs hbest hcand ih =>
    intro before l' r' after k hat
    rcases candAt_cons.mp hat with ⟨-, -, -, -, hk⟩ | ⟨rest, -, hat⟩
    · rw [hcand] at hk
      cases hk
    · exact ih hbest _ _ _ _ _ hat
  | case2 | case3 | case4 | case5 => cases h
  | case6 segs hshort =>
    intro before l r after k hat
    refine not_candAt_of_length ?_ hat
    match segs, hshort with
    | [], _ => exact Nat.two_pos
    | [_], _ => exact Nat.one_lt_two
    | l :: r :: segs, hshort => exact absurd rfl (hshort l r segs)

theorem best_some {M : Merging α κ ω} {segs : List (List α)} {k : κ} {i : Nat}
    (h : M.best segs = some (k, i)) :
    (∃ before l r after, M.CandAt segs before l r after k ∧ before.length = i) ∧
    ∀ before' l' r' after' k', M.CandAt segs before' l' r' after' k' →
      ¬M.Before (k', before'.length) (k, i) := by
  fun_induction best M segs generalizing k i with
  | case1 | case6 => cases h
  | case2 l r segs k₀ hbest hcand ih =>
    cases h
    refine ⟨⟨[], l, r, segs, ⟨rfl, hcand⟩, rfl⟩, fun before' l' r' after' k' hat => ?_⟩
    rcases candAt_cons.mp hat with ⟨rfl, -, -, -, hk⟩ | ⟨rest, -, hat⟩
    · rw [hcand] at hk
      cases hk
      exact Before.irrefl M _
    · exact absurd hat (best_none hbest _ _ _ _ _)
  | case3 l r segs k₁ j hbest hcand ih =>
    cases h
    obtain ⟨⟨before, l₁, r₁, after, hat, hlen⟩, hleast⟩ := ih hbest
    refine ⟨⟨l :: before, l₁, r₁, after, candAt_cons.mpr (.inr ⟨before, rfl, hat⟩), by simp [hlen]⟩,
      fun before' l' r' after' k' hat' => ?_⟩
    rcases candAt_cons.mp hat' with ⟨-, -, -, -, hk⟩ | ⟨rest, rfl, hrest⟩
    · rw [hcand] at hk
      cases hk
    · have hnot := hleast _ _ _ _ _ hrest
      unfold Before at hnot ⊢
      simpa using hnot
  | case4 l r segs k₀ k₁ j hbest hcand hlt ih =>
    cases h
    obtain ⟨⟨before, l₁, r₁, after, hat, hlen⟩, hleast⟩ := ih hbest
    refine ⟨⟨l :: before, l₁, r₁, after, candAt_cons.mpr (.inr ⟨before, rfl, hat⟩), by simp [hlen]⟩,
      fun before' l' r' after' k' hat' => ?_⟩
    rcases candAt_cons.mp hat' with ⟨rfl, -, -, -, hk⟩ | ⟨rest, rfl, hrest⟩
    · rw [hcand] at hk
      cases hk
      rintro (hlt' | ⟨heq, -⟩)
      · exact lt_asymm hlt hlt'
      · exact absurd heq (ne_of_gt hlt)
    · have hnot := hleast _ _ _ _ _ hrest
      unfold Before at hnot ⊢
      simpa using hnot
  | case5 l r segs k₀ k₁ j hbest hcand hnlt ih =>
    cases h
    obtain ⟨-, hleast⟩ := ih hbest
    refine ⟨⟨[], l, r, segs, ⟨rfl, hcand⟩, rfl⟩, fun before' l' r' after' k' hat' => ?_⟩
    rcases candAt_cons.mp hat' with ⟨rfl, -, -, -, hk⟩ | ⟨rest, rfl, hrest⟩
    · rw [hcand] at hk
      cases hk
      exact Before.irrefl M _
    · have hle : M.weight k₁ ≤ M.weight k' := by
        by_contra hlt
        exact hleast _ _ _ _ _ hrest (.inl (not_le.mp hlt))
      rintro (hlt | ⟨-, -, hpos⟩)
      · exact absurd (hlt.trans_le (not_lt.mp hnlt)) (not_lt.mpr hle)
      · exact absurd hpos (Nat.not_lt_zero _)

/-- The function ends as merging can end. -/
theorem merges_greedy (M : Merging α κ ω) {n : Nat} {segs : List (List α)}
    (hlen : segs.length ≤ n) : M.Merges segs (M.greedy n segs) := by
  induction n generalizing segs with
  | zero => exact .done fun _ _ _ _ _ => not_candAt_of_length (by omega)
  | succ n ih =>
    rw [greedy]
    cases hbest : M.best segs with
    | none => exact .done (best_none hbest)
    | some out =>
      obtain ⟨k, i⟩ := out
      obtain ⟨⟨before, l, r, after, hat, rfl⟩, hleast⟩ := best_some hbest
      have hmerge : mergeAt before.length segs = before ++ (l ++ r) :: after := by
        rw [hat.split, mergeAt_append]
      refine .step ⟨before, l, r, after, k, hat, hmerge, hleast⟩ (ih ?_)
      rw [hat.split] at hlen
      simp only [List.length_append, List.length_cons] at hlen
      rw [hmerge, List.length_append, List.length_cons]
      omega

/-- With `leftmost` there is one outcome. -/
theorem Merges.unique {M : Merging α κ ω} (hleft : M.leftmost = true) {segs out out' : List (List α)}
    (h : M.Merges segs out) (h' : M.Merges segs out') : out = out' := by
  induction h generalizing out' with
  | done hdone =>
    cases h' with
    | done => rfl
    | step hstep _ =>
      obtain ⟨_, _, _, _, _, hat, -⟩ := hstep
      exact absurd hat (hdone _ _ _ _ _)
  | step hstep _ ih =>
    obtain ⟨before, l, r, after, k, hat, hmerged, hleast⟩ := hstep
    cases h' with
    | done hdone => exact absurd hat (hdone _ _ _ _ _)
    | step hstep' hrest =>
      obtain ⟨before', l', r', after', k', hat', hmerged', hleast'⟩ := hstep'
      -- neither of the two candidates is taken before the other one
      have h₁ := hleast _ _ _ _ _ hat'
      have h₂ := hleast' _ _ _ _ _ hat
      have hlen : before.length = before'.length := by
        unfold Before at h₁ h₂
        rcases lt_trichotomy (M.weight k) (M.weight k') with hlt | heq | hlt
        · exact absurd (.inl hlt) h₂
        · by_contra hne
          rcases Nat.lt_or_gt_of_ne hne with hlt | hlt
          · exact h₂ (.inr ⟨heq, hleft, hlt⟩)
          · exact h₁ (.inr ⟨heq.symm, hleft, hlt⟩)
        · exact absurd (.inl hlt) h₁
      obtain ⟨hbefore, htail⟩ := List.append_inj (hat.split.symm.trans hat'.split) hlen
      rw [List.cons.injEq, List.cons.injEq] at htail
      obtain ⟨rfl, rfl, rfl⟩ := htail
      subst hbefore
      rw [hmerged] at ih
      rw [hmerged'] at hrest
      exact ih hrest

theorem merges_iff (M : Merging α κ ω) (hleft : M.leftmost = true) {n : Nat}
    {segs : List (List α)} (hlen : segs.length ≤ n) (out : List (List α)) :
    M.Merges segs out ↔ out = M.greedy n segs :=
  ⟨fun h => h.unique hleft (merges_greedy M hlen), fun h => h ▸ merges_greedy M hlen⟩

/-- What a candidate is merged with does not matter, only its weight. -/
theorem greedy_congr {κ' : Type*} {M : Merging α κ ω} {M' : Merging α κ' ω}
    (h : ∀ l r, (M.cand l r).map M.weight = (M'.cand l r).map M'.weight) (n : Nat)
    (segs : List (List α)) : M.greedy n segs = M'.greedy n segs := by
  have hbest : ∀ segs, (M.best segs).map (fun b => (M.weight b.1, b.2)) =
      (M'.best segs).map fun b => (M'.weight b.1, b.2) := by
    intro segs
    induction segs with
    | nil => rfl
    | cons l segs ih =>
      cases segs with
      | nil => rfl
      | cons r segs =>
        have hcand := h l r
        rw [best, best]
        revert hcand ih
        generalize M.cand l r = c, M'.cand l r = c', M.best (r :: segs) = b,
          M'.best (r :: segs) = b'
        intro hb hc
        cases c <;> cases c' <;> cases b <;> cases b' <;>
          simp only [Option.map_none, Option.map_some, reduceCtorEq, Option.some.injEq,
            Prod.mk.injEq] at hb hc ⊢
        · exact ⟨hb.1, congrArg (· + 1) hb.2⟩
        · exact ⟨hc, trivial⟩
        · rw [hc, hb.1, hb.2]
          split
          · exact congrArg some (Prod.ext hb.1 rfl)
          · exact congrArg some (Prod.ext hc rfl)
  induction n generalizing segs with
  | zero => rfl
  | succ n ih =>
    have hsegs := hbest segs
    rw [greedy, greedy]
    revert hsegs
    cases M.best segs <;> cases M'.best segs <;>
      simp only [Option.map_none, Option.map_some, reduceCtorEq, Option.some.injEq, Prod.mk.injEq,
        false_imp_iff, imp_self]
    · rintro ⟨-, hpos⟩
      rw [hpos]
      exact ih _

omit [LinearOrder ω] in
theorem CandAt.congr {κ' : Type*} {M : Merging α κ ω} {M' : Merging α κ' ω}
    (h : ∀ l r, (M.cand l r).map M.weight = (M'.cand l r).map M'.weight)
    {segs before : List (List α)} {l r : List α} {after : List (List α)} {k : κ}
    (hat : M.CandAt segs before l r after k) :
    ∃ k', M'.CandAt segs before l r after k' ∧ M'.weight k' = M.weight k := by
  have heq := h l r
  rw [hat.cand, Option.map_some, eq_comm] at heq
  obtain ⟨k', hk', hweight⟩ := Option.map_eq_some_iff.mp heq
  exact ⟨k', ⟨hat.split, hk'⟩, hweight⟩

theorem Merges.congr {κ' : Type*} {M : Merging α κ ω} {M' : Merging α κ' ω}
    (h : ∀ l r, (M.cand l r).map M.weight = (M'.cand l r).map M'.weight)
    (hleft : M.leftmost = M'.leftmost) {segs out : List (List α)} (hmerges : M.Merges segs out) :
    M'.Merges segs out := by
  have hback := fun l r => (h l r).symm
  induction hmerges with
  | done hdone =>
    refine .done fun before l r after k hat => ?_
    obtain ⟨k', hat', -⟩ := hat.congr hback
    exact hdone _ _ _ _ _ hat'
  | step hstep _ ih =>
    obtain ⟨before, l, r, after, k, hat, hmerged, hleast⟩ := hstep
    obtain ⟨k₁, hat₁, hweight₁⟩ := hat.congr h
    refine .step ⟨before, l, r, after, k₁, hat₁, hmerged, ?_⟩ ih
    intro before' l' r' after' k' hat' hbefore
    obtain ⟨k₂, hat₂, hweight₂⟩ := hat'.congr hback
    refine hleast _ _ _ _ _ hat₂ ?_
    unfold Before at hbefore ⊢
    rw [hweight₂, hleft, ← hweight₁]
    exact hbefore

/-! ## All that merging can end with -/

/-- The candidates, with their positions. -/
def cands (M : Merging α κ ω) : List (List α) → List (κ × Nat)
  | l :: r :: segs =>
    ((M.cand l r).map fun k => (k, 0)).toList ++
      (cands M (r :: segs)).map fun c => (c.1, c.2 + 1)
  | _ => []

omit [LinearOrder ω] in
theorem mem_cands {M : Merging α κ ω} {segs : List (List α)} {k : κ} {i : Nat} :
    (k, i) ∈ M.cands segs ↔
      ∃ before l r after, M.CandAt segs before l r after k ∧ before.length = i := by
  fun_induction cands M segs generalizing k i with
  | case1 l r segs ih =>
    rw [List.mem_append, Option.mem_toList, Option.map_eq_some_iff, List.mem_map]
    constructor
    · rintro (⟨k₀, hk, heq⟩ | ⟨⟨k₀, j⟩, hmem, heq⟩)
      · cases heq
        exact ⟨[], l, r, segs, ⟨rfl, hk⟩, rfl⟩
      · cases heq
        obtain ⟨before, l₁, r₁, after, hat, rfl⟩ := ih.mp hmem
        exact ⟨l :: before, l₁, r₁, after, candAt_cons.mpr (.inr ⟨before, rfl, hat⟩), rfl⟩
    · rintro ⟨before, l₁, r₁, after, hat, rfl⟩
      rcases candAt_cons.mp hat with ⟨rfl, -, -, -, hk⟩ | ⟨rest, rfl, hrest⟩
      · exact .inl ⟨k, hk, rfl⟩
      · exact .inr ⟨(k, rest.length), ih.mpr ⟨rest, l₁, r₁, after, hrest, rfl⟩, rfl⟩
  | case2 segs hshort =>
    refine ⟨fun h => absurd h List.not_mem_nil, ?_⟩
    rintro ⟨before, l, r, after, hat, -⟩
    refine absurd hat (not_candAt_of_length ?_)
    match segs, hshort with
    | [], _ => exact Nat.two_pos
    | [_], _ => exact Nat.one_lt_two
    | l :: r :: segs, hshort => exact absurd rfl (hshort l r segs)

/-- The positions of the candidates that no other one is taken before. -/
def firsts (M : Merging α κ ω) (segs : List (List α)) : List Nat :=
  ((M.cands segs).filter fun c => ∀ c' ∈ M.cands segs, ¬M.Before c' c).map (·.2)

/-- What merging can end with, after at most `n` merges. -/
def outcomes (M : Merging α κ ω) : Nat → List (List α) → List (List (List α))
  | 0, segs => [segs]
  | n + 1, segs =>
    if M.cands segs = [] then [segs]
    else (M.firsts segs).flatMap fun i => outcomes M n (mergeAt i segs)

omit [LinearOrder ω] in
theorem done_iff_cands {M : Merging α κ ω} {segs : List (List α)} :
    M.Done segs ↔ M.cands segs = [] := by
  rw [List.eq_nil_iff_forall_not_mem]
  constructor
  · rintro hdone ⟨k, i⟩ hmem
    obtain ⟨before, l, r, after, hat, -⟩ := mem_cands.mp hmem
    exact hdone before l r after k hat
  · intro hnone before l r after k hat
    exact hnone (k, before.length) (mem_cands.mpr ⟨before, l, r, after, hat, rfl⟩)

theorem step_iff_firsts {M : Merging α κ ω} {segs segs' : List (List α)} :
    M.Step segs segs' ↔ ∃ i ∈ M.firsts segs, segs' = mergeAt i segs := by
  constructor
  · rintro ⟨before, l, r, after, k, hat, rfl, hleast⟩
    refine ⟨before.length, List.mem_map.mpr ⟨(k, before.length), List.mem_filter.mpr ⟨mem_cands.mpr
      ⟨before, l, r, after, hat, rfl⟩, decide_eq_true ?_⟩, rfl⟩, ?_⟩
    · rintro ⟨k', i⟩ hmem
      obtain ⟨before', l', r', after', hat', rfl⟩ := mem_cands.mp hmem
      exact hleast before' l' r' after' k' hat'
    · rw [hat.split, mergeAt_append]
  · rintro ⟨i, hi, rfl⟩
    obtain ⟨⟨k, j⟩, hmem, rfl⟩ := List.mem_map.mp hi
    obtain ⟨hcand, hleast⟩ := List.mem_filter.mp hmem
    obtain ⟨before, l, r, after, hat, rfl⟩ := mem_cands.mp hcand
    refine ⟨before, l, r, after, k, hat, by rw [hat.split, mergeAt_append], ?_⟩
    intro before' l' r' after' k' hat'
    exact of_decide_eq_true hleast _ (mem_cands.mpr ⟨before', l', r', after', hat', rfl⟩)

theorem merges_iff_of_done {M : Merging α κ ω} {segs out : List (List α)} (h : M.Done segs) :
    M.Merges segs out ↔ out = segs := by
  constructor
  · rintro (- | ⟨⟨_, _, _, _, _, hat, -⟩, -⟩)
    · rfl
    · exact absurd hat (h _ _ _ _ _)
  · rintro rfl
    exact .done h

theorem Step.length {M : Merging α κ ω} {segs segs' : List (List α)} (h : M.Step segs segs') :
    segs'.length + 1 = segs.length := by
  obtain ⟨before, l, r, after, k, hat, rfl, -⟩ := h
  rw [hat.split]
  simp only [List.length_append, List.length_cons]
  omega

/-- Merging ends with what the function gives. -/
theorem merges_iff_outcomes (M : Merging α κ ω) {n : Nat} {segs : List (List α)}
    (hlen : segs.length ≤ n) (out : List (List α)) : M.Merges segs out ↔ out ∈ M.outcomes n segs := by
  induction n generalizing segs with
  | zero =>
    rw [outcomes, List.mem_singleton]
    exact merges_iff_of_done fun _ _ _ _ _ => not_candAt_of_length (by omega)
  | succ n ih =>
    rw [outcomes]
    split
    · next hnone =>
      rw [List.mem_singleton]
      exact merges_iff_of_done (done_iff_cands.mpr hnone)
    · next hsome =>
      rw [List.mem_flatMap]
      constructor
      · rintro (hdone | ⟨hstep, hrest⟩)
        · exact absurd (done_iff_cands.mp hdone) hsome
        · have hlen' := hstep.length
          obtain ⟨i, hi, rfl⟩ := step_iff_firsts.mp hstep
          exact ⟨i, hi, (ih (by omega)).mp hrest⟩
      · rintro ⟨i, hi, hout⟩
        have hstep := step_iff_firsts.mpr ⟨i, hi, rfl⟩
        have hlen' := hstep.length
        exact .step hstep ((ih (by omega)).mpr hout)

end Merging

end Prismalama.Lib
