import Mathlib.Data.List.Chain
import Mathlib.Data.List.Forall2

/-!
# Scheduled snapshots (`pendingSnapshots` of `x/mlxrunner/cache/cache.go`)

A cache is told the offsets at which it has to capture a snapshot. Its writes report
the offsets they reach, and `TakeSnapshots` returns what was captured, one entry for
each offset.
-/

namespace Prismalama.Mlxrunner

structure PendingSnapshots where
  offsets : List Nat
  /-- One entry for each offset; `none` when nothing is scheduled. -/
  captured : Option (List (Option Nat))
  base : Nat

namespace PendingSnapshots

/-- `prepare`; `none` when it panics. -/
def prepare (p : PendingSnapshots) (currentOffset : Nat) (offsets : List Nat) :
    Option PendingSnapshots :=
  if p.captured.isSome then none
  else if offsets.all (fun o => decide (currentOffset ≤ o)) ∧ offsets.IsChain (· < ·) then
    some ⟨offsets, some (offsets.map fun _ => none), currentOffset⟩
  else none

/-- `take` -/
def take (p : PendingSnapshots) : PendingSnapshots × List (Option Nat) :=
  (⟨[], none, p.base⟩, p.captured.getD [])

/-- `scheduledIn` -/
def scheduledIn (p : PendingSnapshots) (start stop : Nat) : List Nat :=
  p.offsets.filter fun o => decide (start ≤ o) && decide (o ≤ stop)

theorem mem_scheduledIn {p : PendingSnapshots} {start stop o : Nat}
    (h : o ∈ p.scheduledIn start stop) : start ≤ o ∧ o ≤ stop := by
  unfold scheduledIn at h
  simpa using (List.mem_filter.mp h).2

variable {C : Type*}

/-- The loop of `captureReached` over the scheduled offsets. -/
def captureReachedFrom (reached : Nat) (snap : C → C × Option Nat) :
    C → List Nat → List (Option Nat) → C × List (Option Nat) × Bool
  | c, o :: offsets, id :: captured =>
    if id = none ∧ o = reached then
      let out := snap c
      let rest := captureReachedFrom reached snap out.1 offsets captured
      (rest.1, out.2 :: rest.2.1, true)
    else
      let rest := captureReachedFrom reached snap c offsets captured
      (rest.1, id :: rest.2.1, rest.2.2)
  | c, _, captured => (c, captured, false)

/-- `captureReached`: the cache that took the snapshots, and its schedule. -/
def captureReached (p : PendingSnapshots) (reached : Nat) (snap : C → C × Option Nat) (c : C) :
    C × PendingSnapshots :=
  match p.captured with
  | none => (c, p)
  | some captured =>
    let out := captureReachedFrom reached snap c p.offsets captured
    (out.1, ⟨p.offsets, some out.2.1, if out.2.2 then reached else p.base⟩)

theorem captureReachedFrom_rule {P : C → Prop} {reached : Nat} {snap : C → C × Option Nat}
    (hsnap : ∀ c, P c → P (snap c).1) (offsets : List Nat) (captured : List (Option Nat)) (c : C)
    (h : P c) : P (captureReachedFrom reached snap c offsets captured).1 := by
  induction offsets generalizing c captured with
  | nil => exact h
  | cons o offsets ih =>
    cases captured with
    | nil => exact h
    | cons id captured =>
      unfold captureReachedFrom
      split
      · exact ih captured _ (hsnap c h)
      · exact ih captured c h

/-- What a snapshot keeps, all captures keep. -/
theorem captureReached_rule {P : C → Prop} {reached : Nat} {snap : C → C × Option Nat}
    (hsnap : ∀ c, P c → P (snap c).1) (p : PendingSnapshots) {c : C} (h : P c) :
    P (p.captureReached reached snap c).1 := by
  unfold captureReached
  split
  · exact h
  · exact captureReachedFrom_rule hsnap _ _ c h

/-- Entries that are filled, or of other offsets, are passed over. -/
theorem captureReachedFrom_skip {reached : Nat} {snap : C → C × Option Nat} {offsets : List Nat}
    {ids : List (Option Nat)} (hlen : ids.length = offsets.length)
    (hskip : ∀ e ∈ offsets.zip ids, e.2 = none → e.1 ≠ reached) (c : C)
    (offsets' : List Nat) (ids' : List (Option Nat)) :
    captureReachedFrom reached snap c (offsets ++ offsets') (ids ++ ids') =
      ((captureReachedFrom reached snap c offsets' ids').1,
        ids ++ (captureReachedFrom reached snap c offsets' ids').2.1,
        (captureReachedFrom reached snap c offsets' ids').2.2) := by
  induction offsets generalizing ids with
  | nil =>
    rw [List.length_eq_zero_iff.mp hlen]
    rfl
  | cons o offsets ih =>
    cases ids with
    | nil => cases hlen
    | cons id ids =>
      have hthis : ¬(id = none ∧ o = reached) := fun heq =>
        hskip (o, id) List.mem_cons_self heq.1 heq.2
      rw [List.cons_append, List.cons_append, captureReachedFrom, if_neg hthis,
        ih (Nat.succ.inj hlen) fun e he => hskip e (List.mem_cons_of_mem _ he)]
      rfl

/-- What is to come stays empty. -/
theorem captureReachedFrom_later {reached : Nat} {snap : C → C × Option Nat} {offsets : List Nat}
    (hlater : ∀ o ∈ offsets, o ≠ reached) (c : C) :
    captureReachedFrom reached snap c offsets (offsets.map fun _ => none) =
      (c, offsets.map fun _ => none, false) := by
  have hskip := @captureReachedFrom_skip C reached snap offsets (offsets.map fun _ => none)
    (List.length_map _) (fun e he _ => hlater e.1 (List.of_mem_zip he).1) c [] []
  rw [List.append_nil, List.append_nil] at hskip
  rw [hskip]
  unfold captureReachedFrom
  rw [List.append_nil]

/-! ## Schedules that are filled -/

/-- The entry of an offset: a snapshot once it is done, nothing before. -/
def Slot (Entry : Nat → Nat → Prop) (Done : Nat → Prop) (o : Nat) (id : Option Nat) : Prop :=
  (Done o ∧ ∃ n, id = some n ∧ Entry n o) ∨ (¬ Done o ∧ id = none)

/-- The schedule of these offsets is filled for those that are done. -/
def Filled (p : PendingSnapshots) (offsets : List Nat) (Entry : Nat → Nat → Prop)
    (Done : Nat → Prop) : Prop :=
  p.offsets = offsets ∧
    ∃ captured, p.captured = some captured ∧ List.Forall₂ (Slot Entry Done) offsets captured

theorem Slot.mono {Entry Entry' : Nat → Nat → Prop} {Done : Nat → Prop} {o : Nat} {id : Option Nat}
    (h : Slot Entry Done o id) (hle : ∀ n o, Entry n o → Entry' n o) : Slot Entry' Done o id := by
  rcases h with ⟨hdone, n, hid, hentry⟩ | hnot
  · exact .inl ⟨hdone, n, hid, hle n o hentry⟩
  · exact .inr hnot

theorem Filled.mono {p : PendingSnapshots} {offsets : List Nat} {Entry Entry' : Nat → Nat → Prop}
    {Done : Nat → Prop} (h : p.Filled offsets Entry Done) (hle : ∀ n o, Entry n o → Entry' n o) :
    p.Filled offsets Entry' Done := by
  obtain ⟨hoff, captured, hcap, hslots⟩ := h
  exact ⟨hoff, captured, hcap, hslots.imp fun _ _ hslot => hslot.mono hle⟩

theorem Filled.congr {p : PendingSnapshots} {offsets : List Nat} {Entry : Nat → Nat → Prop}
    {Done Done' : Nat → Prop} (h : p.Filled offsets Entry Done)
    (hiff : ∀ o ∈ offsets, (Done o ↔ Done' o)) : p.Filled offsets Entry Done' := by
  obtain ⟨hoff, captured, hcap, hslots⟩ := h
  refine ⟨hoff, captured, hcap, ?_⟩
  clear hoff hcap
  induction hslots with
  | nil => exact .nil
  | cons hslot _ ih =>
    refine .cons ?_ (ih fun o ho => hiff o (List.mem_cons_of_mem _ ho))
    unfold Slot
    rw [← hiff _ List.mem_cons_self]
    exact hslot

/-- A new schedule. -/
theorem prepare_filled {p : PendingSnapshots} (hidle : p.captured = none) {currentOffset : Nat}
    {offsets : List Nat} (hle : ∀ o ∈ offsets, currentOffset ≤ o) (hchain : offsets.IsChain (· < ·))
    (Entry : Nat → Nat → Prop) :
    ∃ q, p.prepare currentOffset offsets = some q ∧ q.Filled offsets Entry fun _ => False := by
  refine ⟨⟨offsets, some (offsets.map fun _ => none), currentOffset⟩, ?_, rfl, _, rfl, ?_⟩
  · unfold prepare
    rw [hidle, if_neg (by simp), if_pos]
    exact ⟨List.all_eq_true.mpr fun o ho => decide_eq_true (hle o ho), hchain⟩
  · rw [List.forall₂_map_right_iff]
    exact List.forall₂_same.mpr fun o _ => .inr ⟨not_false, rfl⟩

/-- The entries of a schedule, and what happens to the ones that are there. -/
structure Captures (P : C → Prop) (Entry : C → Nat → Nat → Prop) (reached : Nat)
    (snap : C → C × Option Nat) : Prop where
  keeps : ∀ c, P c → P (snap c).1
  entries : ∀ c, P c → ∀ n o, Entry c n o → Entry (snap c).1 n o
  captures : ∀ c, P c → ∃ n, (snap c).2 = some n ∧ Entry (snap c).1 n reached

theorem Captures.from {P : C → Prop} {Entry : C → Nat → Nat → Prop} {reached : Nat}
    {snap : C → C × Option Nat} (hsnap : Captures P Entry reached snap) {Done : Nat → Prop}
    {offsets : List Nat} {captured : List (Option Nat)} {c : C} (h : P c)
    (hslots : List.Forall₂ (Slot (Entry c) Done) offsets captured) (hnot : ¬ Done reached) :
    P (captureReachedFrom reached snap c offsets captured).1 ∧
      (∀ n o, Entry c n o → Entry (captureReachedFrom reached snap c offsets captured).1 n o) ∧
      List.Forall₂ (Slot (Entry (captureReachedFrom reached snap c offsets captured).1)
        fun o => Done o ∨ o = reached) offsets
        (captureReachedFrom reached snap c offsets captured).2.1 := by
  induction offsets generalizing c captured with
  | nil =>
    cases hslots
    exact ⟨h, fun _ _ he => he, .nil⟩
  | cons o offsets ih =>
    cases hslots with
    | cons hslot hrest =>
      rename_i id captured
      unfold captureReachedFrom
      split
      · rename_i hreached
        obtain ⟨n, hid, hentry⟩ := hsnap.captures c h
        obtain ⟨hP, hkept, hout⟩ := ih (hsnap.keeps c h)
          (hrest.imp fun _ _ hs => hs.mono (hsnap.entries c h))
        refine ⟨hP, fun n o he => hkept n o (hsnap.entries c h n o he), .cons ?_ hout⟩
        rw [hreached.2]
        exact .inl ⟨.inr rfl, n, hid, hkept n reached hentry⟩
      · rename_i hno
        obtain ⟨hP, hkept, hout⟩ := ih h hrest
        refine ⟨hP, hkept, .cons ?_ hout⟩
        rcases hslot with ⟨hdone, n, hid, hentry⟩ | ⟨hnotdone, hid⟩
        · exact .inl ⟨.inl hdone, n, hid, hkept n o hentry⟩
        · refine .inr ⟨?_, hid⟩
          rintro (hdone | rfl)
          · exact hnotdone hdone
          · exact hno ⟨hid, rfl⟩

/-- A capture that fires fills the entry of its offset. -/
theorem Captures.filled {P : C → Prop} {Entry : C → Nat → Nat → Prop} {reached : Nat}
    {snap : C → C × Option Nat} (hsnap : Captures P Entry reached snap) {Done : Nat → Prop}
    {offsets : List Nat} {p : PendingSnapshots} {c : C} (h : P c)
    (hfilled : p.Filled offsets (Entry c) Done) (hnot : ¬ Done reached) :
    P (p.captureReached reached snap c).1 ∧
      (∀ n o, Entry c n o → Entry (p.captureReached reached snap c).1 n o) ∧
      (p.captureReached reached snap c).2.Filled offsets
        (Entry (p.captureReached reached snap c).1) fun o => Done o ∨ o = reached := by
  obtain ⟨hoff, captured, hcap, hslots⟩ := hfilled
  obtain ⟨hP, hkept, hout⟩ := hsnap.from h hslots hnot
  unfold captureReached
  rw [hcap, hoff]
  exact ⟨hP, hkept, rfl, _, rfl, hout⟩

/-- What `TakeSnapshots` returns for an offset that is done. -/
theorem Filled.taken {p : PendingSnapshots} {offsets : List Nat} {Entry : Nat → Nat → Prop}
    {Done : Nat → Prop} (h : p.Filled offsets Entry Done) {i o : Nat}
    (ho : offsets[i]? = some o) (hdone : Done o) :
    ∃ n, p.take.2[i]? = some (some n) ∧ Entry n o := by
  obtain ⟨-, captured, hcap, hslots⟩ := h
  unfold take
  rw [hcap]
  show ∃ n, captured[i]? = some (some n) ∧ Entry n o
  clear hcap
  induction hslots generalizing i with
  | nil => cases ho
  | cons hslot _ ih =>
    cases i with
    | zero =>
      obtain rfl := Option.some.inj ho
      rcases hslot with ⟨-, n, rfl, hentry⟩ | ⟨hnot, -⟩
      · exact ⟨n, rfl, hentry⟩
      · exact absurd hdone hnot
    | succ i => exact ih ho

theorem Filled.length_taken {p : PendingSnapshots} {offsets : List Nat}
    {Entry : Nat → Nat → Prop} {Done : Nat → Prop} (h : p.Filled offsets Entry Done) :
    p.take.2.length = offsets.length := by
  obtain ⟨-, captured, hcap, hslots⟩ := h
  unfold take
  rw [hcap]
  exact hslots.length_eq.symm

end PendingSnapshots

end Prismalama.Mlxrunner
