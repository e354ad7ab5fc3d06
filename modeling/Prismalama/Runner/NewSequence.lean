import Mathlib.Tactic

/-!
# Truncation of a prompt (`runner/ollamarunner/runner.go`)

`NewSequence` keeps the first `numKeep` inputs and drops what follows them until the rest fits.
Inputs that belong into one batch are not to be split: the end of what is dropped moves behind
the group it falls into. The scan knows only the group that was opened last. Indices stay below
2^31, so that the `int32` conversions keep their values.
-/

namespace Prismalama.Runner

structure Input where
  token : Int
  /-- how many of the next inputs are in the batch of this one -/
  sameBatch : Int
  deriving DecidableEq

structure Sequence where
  inputs : List Input
  numPromptInputs : Nat
  numKeep : Nat
  deriving DecidableEq

inductive SequenceError
  | noInput
  | inputTooLong
  | sameBatchWithinNumKeep (index numKeep : Nat) (sameBatch : Int)
  | entirePromptRemoved
  deriving DecidableEq

/-- The scan for the end of what is dropped, from index `i` on. -/
def scan (numKeep : Nat) : Nat → List Input → Nat → Int → Except SequenceError Nat
  | _, [], promptStart, _ => .ok promptStart
  | i, inp :: rest, promptStart, sameBatch =>
    if ¬0 < sameBatch ∧ promptStart = i then .ok promptStart
    else
      let promptStart := if 0 < sameBatch ∧ promptStart = i then promptStart + 1 else promptStart
      let sameBatch := if 0 < sameBatch then sameBatch - 1 else sameBatch
      if inp.sameBatch ≠ 0 then
        if i < numKeep then .error (.sameBatchWithinNumKeep i numKeep inp.sameBatch)
        else scan numKeep (i + 1) rest promptStart inp.sameBatch
      else scan numKeep (i + 1) rest promptStart sameBatch

/-- `params.numKeep` as it is used: at least one input can be discarded. -/
def clampKeep (inputs : List Input) (numCtx numKeep : Int) : Nat :=
  (min (if numKeep < 0 then (inputs.length : Int) else numKeep) (numCtx - 1)).toNat

/-- `NewSequence`, behind the processing of the prompt. -/
def newSequence (inputs : List Input) (numCtx numKeep : Int) (truncate : Bool) :
    Except SequenceError Sequence :=
  if inputs = [] then .error .noInput
  else
    let keep := clampKeep inputs numCtx numKeep
    if numCtx < inputs.length then
      if truncate = false then .error .inputTooLong
      else
        let discard := inputs.length - numCtx.toNat
        match scan keep 0 inputs (keep + discard) 0 with
        | .error e => .error e
        | .ok promptStart =>
          if inputs.length ≤ promptStart then .error .entirePromptRemoved
          else
            let newInputs := inputs.take keep ++ inputs.drop promptStart
            .ok ⟨newInputs, newInputs.length, keep⟩
    else .ok ⟨inputs, inputs.length, keep⟩

/-! ## Groups -/

/-- `SameBatch` of the input at an index, zero behind the end. -/
def sameBatchAt (inputs : List Input) (i : Nat) : Int := (inputs[i]?.map Input.sameBatch).getD 0

/-- Input `j` is in the group that input `i` opens. -/
def Member (inputs : List Input) (i j : Nat) : Prop :=
  0 < sameBatchAt inputs i ∧ i ≤ j ∧ (j : Int) ≤ i + sameBatchAt inputs i ∧ j < inputs.length

/-- Input `p` is in the group that was opened last before it. -/
def InLast (inputs : List Input) (p : Nat) : Prop :=
  ∃ i, i < p ∧ sameBatchAt inputs i ≠ 0 ∧ (∀ j, i < j → j < p → sameBatchAt inputs j = 0) ∧
    (p : Int) ≤ i + sameBatchAt inputs i

/-- Without the inputs from `k` up to `m`, each group is kept or dropped as a whole. -/
def Whole (inputs : List Input) (k m : Nat) : Prop :=
  ∀ i j j', Member inputs i j → Member inputs i j' → (k ≤ j ∧ j < m ↔ k ≤ j' ∧ j' < m)

/-- What may be dropped: enough, not all, and no part of a group. -/
structure Cuts (inputs : List Input) (numCtx : Int) (k m : Nat) : Prop where
  enough : k + (inputs.length - numCtx.toNat) ≤ m
  lt : m < inputs.length
  whole : Whole inputs k m

/-- The prompt is rejected, or cut as little as can be. -/
def CutsLeast (inputs : List Input) (numCtx numKeep : Int) : Prop :=
  (∃ e, newSequence inputs numCtx numKeep true = .error e) ∨
    ∃ m s, newSequence inputs numCtx numKeep true = .ok s ∧
      s.inputs = inputs.take (clampKeep inputs numCtx numKeep) ++ inputs.drop m ∧
      (clampKeep inputs numCtx numKeep : Int) < numCtx ∧
      0 < s.inputs.length ∧ (s.inputs.length : Int) ≤ numCtx ∧
      Cuts inputs numCtx (clampKeep inputs numCtx numKeep) m ∧
      ∀ m', Cuts inputs numCtx (clampKeep inputs numCtx numKeep) m' → m ≤ m'

/-- The first input from `start` on that is not in the group opened last before it is in no group
opened before it. -/
def LastIsWidest (inputs : List Input) (start : Nat) : Prop :=
  ∀ p, start ≤ p → p < inputs.length → (∀ q, start ≤ q → q < p → InLast inputs q) →
    ¬InLast inputs p → ∀ i, i < p → ¬Member inputs i p

/-! ## The scan -/

/-- `sameBatch` before the input at an index. -/
def remaining (inputs : List Input) : Nat → Int
  | 0 => 0
  | i + 1 =>
    if sameBatchAt inputs i ≠ 0 then sameBatchAt inputs i
    else if 0 < remaining inputs i then remaining inputs i - 1
    else remaining inputs i

/-- How far the group opened last still reaches. -/
theorem lt_remaining_iff (inputs : List Input) (i d : Nat) : (d : Int) < remaining inputs i ↔
    ∃ j, j < i ∧ sameBatchAt inputs j ≠ 0 ∧ (∀ j', j < j' → j' < i → sameBatchAt inputs j' = 0) ∧
      (i + d : Int) ≤ j + sameBatchAt inputs j := by
  induction i generalizing d with
  | zero =>
    constructor
    · intro h
      have hzero : remaining inputs 0 = 0 := rfl
      omega
    · rintro ⟨j, hj, -⟩
      omega
  | succ i ih =>
    rw [remaining]
    by_cases hopen : sameBatchAt inputs i = 0
    · -- no group is opened here
      have hback : (∃ j, j < i + 1 ∧ sameBatchAt inputs j ≠ 0 ∧
            (∀ j', j < j' → j' < i + 1 → sameBatchAt inputs j' = 0) ∧
            ((i + 1 : Nat) + d : Int) ≤ j + sameBatchAt inputs j) ↔
          ((d + 1 : Nat) : Int) < remaining inputs i := by
        rw [ih (d + 1)]
        constructor
        · rintro ⟨j, hj, hne, hzero, hle⟩
          have hlt : j < i := by
            rcases Nat.lt_succ_iff_lt_or_eq.mp hj with h | rfl
            · exact h
            · exact absurd hopen hne
          exact ⟨j, hlt, hne, fun j' h h' => hzero j' h (by omega), by push_cast at hle ⊢; omega⟩
        · rintro ⟨j, hj, hne, hzero, hle⟩
          refine ⟨j, by omega, hne, fun j' h h' => ?_, by push_cast at hle ⊢; omega⟩
          rcases Nat.lt_succ_iff_lt_or_eq.mp h' with h'' | rfl
          · exact hzero j' h h''
          · exact hopen
      rw [if_neg (not_not_intro hopen), hback]
      split
      · push_cast
        omega
      · push_cast
        omega
    · rw [if_pos hopen]
      constructor
      · intro h
        exact ⟨i, by omega, hopen, fun j' h h' => by omega, by push_cast; omega⟩
      · rintro ⟨j, hj, hne, hzero, hle⟩
        have heq : j = i := by
          by_contra hne'
          exact hopen (hzero i (by omega) (by omega))
        subst heq
        push_cast at hle
        omega

theorem remaining_pos_iff (inputs : List Input) (i : Nat) :
    0 < remaining inputs i ↔ InLast inputs i := by
  have h := lt_remaining_iff inputs i 0
  simpa [InLast] using h

theorem sameBatchAt_append (before : List Input) (inp : Input) (rest : List Input) :
    sameBatchAt (before ++ inp :: rest) before.length = inp.sameBatch := by
  simp [sameBatchAt]

/-- What the scan gives: an error for a group in what is kept, or the first input from `start` on
that is not in the group opened last before it. -/
theorem scan_spec {inputs : List Input} {keep start : Nat} (hkeep : keep < start)
    (hstart : start < inputs.length) :
    (∃ i, i < keep ∧ sameBatchAt inputs i ≠ 0 ∧
        ∃ e, scan keep 0 inputs start 0 = .error e) ∨
      ∃ p, scan keep 0 inputs start 0 = .ok p ∧ start ≤ p ∧ p ≤ inputs.length ∧
        (∀ q, start ≤ q → q < p → InLast inputs q) ∧ (p < inputs.length → ¬InLast inputs p) ∧
        ∀ i, i < keep → sameBatchAt inputs i = 0 := by
  -- the invariant of the loop
  suffices hloop : ∀ rest before p, inputs = before ++ rest → before.length ≤ p → start ≤ p →
      p ≤ inputs.length → (∀ q, start ≤ q → q < p → InLast inputs q) →
      (∀ i, i < keep → i < before.length → sameBatchAt inputs i = 0) →
      (∃ i, i < keep ∧ sameBatchAt inputs i ≠ 0 ∧
          ∃ e, scan keep before.length rest p (remaining inputs before.length) = .error e) ∨
        ∃ p', scan keep before.length rest p (remaining inputs before.length) = .ok p' ∧
          start ≤ p' ∧ p' ≤ inputs.length ∧ (∀ q, start ≤ q → q < p' → InLast inputs q) ∧
          (p' < inputs.length → ¬InLast inputs p') ∧
          ∀ i, i < keep → sameBatchAt inputs i = 0 by
    exact hloop inputs [] start rfl (Nat.zero_le _) le_rfl hstart.le
      (fun q h h' => absurd h' (not_lt.mpr h)) fun i _ h => absurd h (Nat.not_lt_zero i)
  intro rest
  induction rest with
  | nil =>
    intro before p hinputs hbefore hp hlen hin hzero
    rw [List.append_nil] at hinputs
    subst hinputs
    refine Or.inr ⟨p, rfl, hp, hlen, hin, fun h => by omega, fun i hi => ?_⟩
    exact hzero i hi (by omega)
  | cons inp rest ih =>
    intro before p hinputs hbefore hp hlen hin hzero
    have hat : sameBatchAt inputs before.length = inp.sameBatch := by
      rw [hinputs, sameBatchAt_append]
    have hlt : before.length < inputs.length := by simp [hinputs]
    have hnext : inputs = (before ++ [inp]) ++ rest := by simp [hinputs]
    have hlength : (before ++ [inp]).length = before.length + 1 := by simp
    have hremaining := remaining_pos_iff inputs before.length
    rw [scan]
    by_cases hbreak : ¬0 < remaining inputs before.length ∧ p = before.length
    · -- the loop ends here
      rw [if_pos hbreak]
      obtain ⟨hnot, rfl⟩ := hbreak
      refine Or.inr ⟨before.length, rfl, hp, hlen, hin, fun _ h => hnot (hremaining.mpr h),
        fun i hi => ?_⟩
      exact hzero i hi (by omega)
    · rw [if_neg hbreak]
      -- the end moves on inside a group
      generalize hp' : (if 0 < remaining inputs before.length ∧ p = before.length then p + 1
        else p) = p'
      have hmoved : before.length + 1 ≤ p' ∧ start ≤ p' ∧ p' ≤ inputs.length ∧
          ∀ q, start ≤ q → q < p' → InLast inputs q := by
        split at hp'
        · rename_i hinside
          obtain ⟨hpos, rfl⟩ := hinside
          subst hp'
          refine ⟨le_rfl, by omega, by omega, fun q h h' => ?_⟩
          rcases Nat.lt_succ_iff_lt_or_eq.mp h' with h'' | rfl
          · exact hin q h h''
          · exact hremaining.mp hpos
        · rename_i hinside
          subst hp'
          refine ⟨?_, hp, hlen, hin⟩
          by_contra hle
          have heq : p = before.length := by omega
          by_cases hpos : 0 < remaining inputs before.length
          · exact hinside ⟨hpos, heq⟩
          · exact hbreak ⟨hpos, heq⟩
      obtain ⟨hbefore', hp'', hlen', hin'⟩ := hmoved
      have hsucc : remaining inputs (before.length + 1) =
          if inp.sameBatch ≠ 0 then inp.sameBatch
          else if 0 < remaining inputs before.length then remaining inputs before.length - 1
          else remaining inputs before.length := by
        rw [remaining, hat]
      have hrest := ih (before ++ [inp]) p' hnext (by rw [hlength]; exact hbefore') hp'' hlen' hin'
      rw [hlength, hsucc] at hrest
      by_cases hopen : inp.sameBatch = 0
      · simp only [hopen, ne_eq, not_true_eq_false, if_false] at hrest ⊢
        refine hrest fun i hi hi' => ?_
        rcases Nat.lt_succ_iff_lt_or_eq.mp hi' with h | rfl
        · exact hzero i hi h
        · rw [hat, hopen]
      · simp only [ne_eq, hopen, not_false_eq_true, if_true] at hrest ⊢
        by_cases hin : before.length < keep
        · rw [if_pos hin]
          exact Or.inl ⟨before.length, hin, by rw [hat]; exact hopen, _, rfl⟩
        · rw [if_neg hin]
          refine hrest fun i hi hi' => ?_
          rcases Nat.lt_succ_iff_lt_or_eq.mp hi' with h | rfl
          · exact hzero i hi h
          · exact absurd hi hin

/-! ## What is dropped -/

theorem member_self {inputs : List Input} {i j : Nat} (h : Member inputs i j) :
    Member inputs i i := ⟨h.1, le_rfl, by have := h.1; omega, by have := h.2; omega⟩

/-- The group opened last before an input, if it reaches so far. -/
theorem InLast.member {inputs : List Input} {p : Nat} (h : InLast inputs p)
    (hp : p < inputs.length) : ∃ i, i < p ∧ Member inputs i p := by
  obtain ⟨i, hi, -, -, hle⟩ := h
  exact ⟨i, hi, by omega, hi.le, hle, hp⟩

theorem clampKeep_lt (inputs : List Input) {numCtx : Int} (numKeep : Int) (hctx : 1 ≤ numCtx) :
    (clampKeep inputs numCtx numKeep : Int) < numCtx := by
  rw [clampKeep]
  omega

/-- What is dropped up to an input that is in no group opened before it. -/
theorem whole_of_outside {inputs : List Input} {k p : Nat}
    (hzero : ∀ i, i < k → sameBatchAt inputs i = 0) (hout : ∀ i, i < p → ¬Member inputs i p) :
    Whole inputs k p := by
  have hside : ∀ {i j}, Member inputs i j → (k ≤ j ∧ j < p ↔ i < p) := by
    intro i j h
    have hk : k ≤ i := by
      by_contra hlt
      have := hzero i (by omega)
      have := h.1
      omega
    constructor
    · rintro ⟨-, hj⟩
      exact lt_of_le_of_lt h.2.1 hj
    · intro hi
      refine ⟨hk.trans h.2.1, ?_⟩
      by_contra hle
      exact hout i hi ⟨h.1, hi.le, by have := h.2.2.1; omega, by have := h.2.2.2; omega⟩
  intro i j j' h h'
  exact (hside h).trans (hside h').symm

/-- An input of which the group opened last is only in part dropped. -/
theorem not_whole {inputs : List Input} {k m i : Nat}
    (hzero : ∀ i, i < k → sameBatchAt inputs i = 0) (hi : i < m) (h : Member inputs i m) :
    ¬Whole inputs k m := by
  intro hwhole
  have hk : k ≤ i := by
    by_contra hlt
    have := hzero i (by omega)
    have := h.1
    omega
  have hsplit := (hwhole i i m (member_self h) h).mp ⟨hk, hi⟩
  omega

theorem newSequence_error {inputs : List Input} {numCtx numKeep : Int} (hne : inputs ≠ [])
    (hlong : numCtx < inputs.length) {e : SequenceError}
    (h : scan (clampKeep inputs numCtx numKeep) 0 inputs
      (clampKeep inputs numCtx numKeep + (inputs.length - numCtx.toNat)) 0 = .error e) :
    newSequence inputs numCtx numKeep true = .error e := by
  simp [newSequence, hne, hlong, h]

theorem newSequence_ok {inputs : List Input} {numCtx numKeep : Int} (hne : inputs ≠ [])
    (hlong : numCtx < inputs.length) {p : Nat}
    (h : scan (clampKeep inputs numCtx numKeep) 0 inputs
      (clampKeep inputs numCtx numKeep + (inputs.length - numCtx.toNat)) 0 = .ok p) :
    newSequence inputs numCtx numKeep true =
      if inputs.length ≤ p then .error .entirePromptRemoved
      else .ok ⟨inputs.take (clampKeep inputs numCtx numKeep) ++ inputs.drop p,
        (inputs.take (clampKeep inputs numCtx numKeep) ++ inputs.drop p).length,
        clampKeep inputs numCtx numKeep⟩ := by
  simp [newSequence, hne, hlong, h]

/-- The prompt is cut as little as can be, without splitting a group, if and only if a group is
opened in what is kept (which is rejected), or the first input from the earliest end of the cut on
that is not in the group opened last is in no group at all. -/
theorem newSequence_cutsLeast_iff (inputs : List Input) (numCtx numKeep : Int) (hctx : 1 ≤ numCtx)
    (hlong : numCtx < inputs.length) :
    CutsLeast inputs numCtx numKeep ↔
      (∃ i, i < clampKeep inputs numCtx numKeep ∧ sameBatchAt inputs i ≠ 0) ∨
        LastIsWidest inputs
          (clampKeep inputs numCtx numKeep + (inputs.length - numCtx.toNat)) := by
  have hne : inputs ≠ [] := by
    rintro rfl
    simp at hlong
    omega
  have hkeep := clampKeep_lt inputs numKeep hctx
  rw [CutsLeast]
  have hstart : clampKeep inputs numCtx numKeep + (inputs.length - numCtx.toNat) <
      inputs.length := by omega
  rcases @scan_spec inputs (clampKeep inputs numCtx numKeep) _ (by omega) hstart with
    ⟨i, hi, hopen, e, he⟩ | ⟨p, hscan, hp, hlen, hin, hout, hzero⟩
  · -- a group in what is kept is an error
    exact iff_of_true (Or.inl ⟨e, newSequence_error hne hlong he⟩) (Or.inl ⟨i, hi, hopen⟩)
  · have hresult := newSequence_ok hne hlong hscan
    have hnone : ¬∃ i, i < clampKeep inputs numCtx numKeep ∧ sameBatchAt inputs i ≠ 0 := by
      rintro ⟨i, hi, hopen⟩
      exact hopen (hzero i hi)
    rw [or_iff_right hnone]
    by_cases hall : inputs.length ≤ p
    · -- all is dropped, which is an error
      rw [if_pos hall] at hresult
      refine iff_of_true (Or.inl ⟨_, hresult⟩) fun q hq hlt _ hnot => ?_
      exact absurd (hin q hq (by omega)) hnot
    · rw [if_neg hall] at hresult
      have hplt : p < inputs.length := not_le.mp hall
      constructor
      · rintro (⟨e, he⟩ | ⟨m, s, hs, hinputs, -, -, -, hcuts, -⟩)
        · rw [hresult] at he
          cases he
        · rw [hresult] at hs
          obtain rfl := Except.ok.inj hs
          -- both ends give the same inputs
          have hdrop := congrArg List.length (List.append_cancel_left hinputs)
          rw [List.length_drop, List.length_drop] at hdrop
          have hm := hcuts.lt
          obtain rfl : m = p := by omega
          intro q hq hqlt hbefore hnot i hi hmember
          have heq : q = m := by
            rcases Nat.lt_trichotomy q m with h | h | h
            · exact absurd (hin q hq h) hnot
            · exact h
            · exact absurd (hbefore m hp h) (hout hm)
          subst heq
          exact not_whole hzero hi hmember hcuts.whole
      · intro hwidest
        have houtside := hwidest p hp hplt hin (hout hplt)
        have hlength : (inputs.take (clampKeep inputs numCtx numKeep) ++ inputs.drop p).length =
            clampKeep inputs numCtx numKeep + (inputs.length - p) := by
          rw [List.length_append, List.length_take, List.length_drop]
          omega
        refine Or.inr ⟨p, _, hresult, rfl, hkeep, ?_, ?_,
          ⟨hp, hplt, whole_of_outside hzero houtside⟩, fun m hm => ?_⟩
        · rw [hlength]
          omega
        · rw [hlength]
          omega
        · by_contra hlt
          have hmp : m < p := not_le.mp hlt
          obtain ⟨i, hi, hmember⟩ := (hin m hm.enough hmp).member (by omega)
          exact not_whole hzero hi hmember hm.whole

/-- Three inputs for two, of which the last two are one group. -/
theorem newSequence_cutsLeast_pair :
    CutsLeast [⟨1, 0⟩, ⟨2, 1⟩, ⟨3, 0⟩] 2 0 ↔
      (∃ i, i < clampKeep [⟨1, 0⟩, ⟨2, 1⟩, ⟨3, 0⟩] 2 0 ∧
          sameBatchAt [⟨1, 0⟩, ⟨2, 1⟩, ⟨3, 0⟩] i ≠ 0) ∨
        LastIsWidest [⟨1, 0⟩, ⟨2, 1⟩, ⟨3, 0⟩] (clampKeep [⟨1, 0⟩, ⟨2, 1⟩, ⟨3, 0⟩] 2 0 +
          ([⟨1, 0⟩, ⟨2, 1⟩, ⟨3, 0⟩] : List Input).length - 2) :=
  newSequence_cutsLeast_iff [⟨1, 0⟩, ⟨2, 1⟩, ⟨3, 0⟩] 2 0 (by decide) (by decide)

/-- A group inside a group: the rest of the outer one is kept without its beginning. -/
theorem newSequence_splits_group :
    ¬∀ (inputs : List Input) (numCtx numKeep : Int), 1 ≤ numCtx → numCtx < inputs.length →
      CutsLeast inputs numCtx numKeep := by
  intro h
  have hresult : newSequence [⟨1, 4⟩, ⟨2, 1⟩, ⟨3, 0⟩, ⟨4, 0⟩, ⟨5, 0⟩, ⟨6, 0⟩] 4 0 true =
      .ok ⟨[⟨4, 0⟩, ⟨5, 0⟩, ⟨6, 0⟩], 3, 0⟩ := by decide
  rcases h [⟨1, 4⟩, ⟨2, 1⟩, ⟨3, 0⟩, ⟨4, 0⟩, ⟨5, 0⟩, ⟨6, 0⟩] 4 0 (by decide) (by decide) with
    ⟨e, he⟩ | ⟨m, s, hs, hinputs, -, -, -, hcuts, -⟩
  · rw [hresult] at he
    cases he
  · rw [hresult] at hs
    obtain rfl := Except.ok.inj hs
    have hlength := congrArg List.length hinputs
    rw [List.length_append, List.length_drop] at hlength
    have hm := hcuts.lt
    have hthree : m = 3 := by
      simp [clampKeep] at hlength hm
      omega
    subst hthree
    -- the first and the fourth input are in one group
    have hmember : Member [⟨1, 4⟩, ⟨2, 1⟩, ⟨3, 0⟩, ⟨4, 0⟩, ⟨5, 0⟩, ⟨6, 0⟩] 0 3 := by
      refine ⟨by decide, by decide, by decide, by decide⟩
    have hsplit := (hcuts.whole 0 0 3 (member_self hmember) hmember).mp ⟨by decide, by decide⟩
    exact absurd hsplit.2 (by decide)

end Prismalama.Runner
