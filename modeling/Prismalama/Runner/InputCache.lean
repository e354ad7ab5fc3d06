import Prismalama.Kvcache.CausalRecover
import Prismalama.Lib.Slice
import Prismalama.Runner.NewSequence

/-!
# Context shift (`runner/ollamarunner/cache.go`)

When the inputs of a slot fill the context, `ShiftCacheSlot` drops some of them behind the first
`numKeep`, from the slot and from the KV cache. The cache is known by what `Remove` does, which
its interface documents; a causal cache is one.
-/

namespace Prismalama.Runner

open Prismalama.Lib Prismalama.Kvcache

/-! ## The cache -/

/-- `kvcache.Cache`, as far as the shift uses it -/
structure KvCache (σ : Type*) where
  /-- `Remove`: the state after it, and whether it failed -/
  remove : σ → Int → Int → Int → σ × Bool
  Valid : σ → Prop
  /-- A sequence has a position, in this place. -/
  Holds : σ → Int → Int → Nat → Prop
  valid_remove : ∀ {c seq b e}, Valid c → 0 ≤ b → b ≤ e → e ≤ maxInt32 →
    Valid (remove c seq b e).1
  holds_remove : ∀ {c seq b e}, Valid c → 0 ≤ b → b < e → e ≤ maxInt32 →
    (remove c seq b e).2 = false → ∀ p j, Holds (remove c seq b e).1 seq p j ↔
      ∃ q, Holds c seq q j ∧ (q < b ∧ p = q ∨ e ≤ q ∧ p = q - (e - b))
  holds_other : ∀ {c seq b e s}, s ≠ seq → ∀ p j, Holds (remove c seq b e).1 s p j ↔ Holds c s p j
  /-- Removing everything does not fail. -/
  not_holds_removeAll : ∀ {c seq}, Valid c → ∀ p j, ¬Holds (remove c seq 0 maxInt32).1 seq p j

/-- The causal cache, with what the backend reports for a shift of the keys -/
def causalCache (backend : Option KvError) : KvCache Causal where
  remove c seq b e := ((c.remove seq b e backend).1, (c.remove seq b e backend).2.isSome)
  Valid := Causal.Positions Causal.IsPosition
  Holds := Causal.Stores
  valid_remove hvalid h0 hbe _ :=
    Causal.remove_positions hvalid fun _ hq hge => Causal.isPosition_moved h0 hbe hq hge
  holds_remove := by
    intro c seq b e hvalid h0 hbe _ hok p j
    have hruns : c.removeFails seq b e = false := by
      cases hfail : c.removeFails seq b e with
      | false => rfl
      | true =>
        rw [Causal.remove_of_fails backend hfail] at hok
        cases hok
    rw [Causal.remove_stores_of_ok hruns]
    refine exists_congr fun q => and_congr_right fun hold => ?_
    have hq := (hvalid seq q j hold).2
    by_cases hge : e ≤ q
    · rw [if_pos hge, Causal.i32_moved h0 hbe.le (hge.trans_lt hq) hge hq.le]
      omega
    · rw [if_neg hge]
      omega
  holds_other hs _ _ := Causal.remove_stores_ne hs
  not_holds_removeAll hvalid := (Causal.remove_all hvalid backend).2.1

/-! ## The shift -/

structure InputCacheSlot where
  id : Int
  inputs : List Input

inductive ShiftError
  | keepExceedsContext (numKeep : Nat) (numCtx : Int)
  /-- `ErrReprocessInputs` -/
  | reprocessInputs (inputs : List Input)

/-- The loop of `ShiftDiscard`; counters stay far from the ends of `int32`. -/
def discardLoop (targetFree : Int) : List Input → Int → Int → Nat → Nat
  | [], _, _, discard => discard
  | input :: rest, currentFree, sameBatch, discard =>
    if sameBatch ≤ 0 ∧ targetFree ≤ currentFree then discard
    else
      discardLoop targetFree rest (currentFree + 1)
        (if 0 < input.sameBatch then i32 input.sameBatch else sameBatch - 1) (discard + 1)

def targetFree (numCtx : Int) (numKeep : Nat) : Int := max ((numCtx - numKeep).tdiv 2) 1

def shiftDiscard (numCtx : Int) (inputs : List Input) (numKeep : Nat) : Nat :=
  discardLoop (targetFree numCtx numKeep) (inputs.drop numKeep) (numCtx - inputs.length) 0 0

/-- The loop that moves `n` inputs from index `i` on forward, in place. -/
def compact (discard : Nat) : Nat → Nat → List Input → List Input
  | 0, _, inputs => inputs
  | n + 1, i, inputs =>
    match inputs[i]? with
    | none => inputs
    | some input => compact discard n (i + 1) (inputs.set (i - discard) input)

/-- The new slice of the inputs to be processed again. -/
def preserved (inputs : List Input) (numKeep discard : Nat) : List Input :=
  let newInputs := List.replicate (numKeep + inputs.length - (numKeep + discard)) ⟨0, 0⟩
  sliceUpdate (sliceUpdate newInputs 0 (inputs.take numKeep)) numKeep
    (inputs.drop (numKeep + discard))

/-- `ShiftCacheSlot`: the cache, the slot and the error after it. -/
def shiftCacheSlot {σ : Type*} (K : KvCache σ) (numCtx : Int) (cache : Option σ)
    (slot : InputCacheSlot) (numKeep : Nat) : Option σ × InputCacheSlot × Option ShiftError :=
  if numCtx ≤ numKeep then (cache, slot, some (.keepExceedsContext numKeep numCtx))
  else
    let inputLen := slot.inputs.length
    let discard := shiftDiscard numCtx slot.inputs numKeep
    if discard ≤ 0 then (cache, slot, none)
    else
      let shifted := { slot with
        inputs := (compact discard (inputLen - (numKeep + discard)) (numKeep + discard)
          slot.inputs).take (inputLen - discard) }
      match cache with
      | none => (none, shifted, none)
      | some c =>
        let out := K.remove c slot.id numKeep (numKeep + discard)
        if out.2 = true then
          (some (K.remove out.1 slot.id 0 maxInt32).1, { slot with inputs := [] },
            some (.reprocessInputs (preserved slot.inputs numKeep discard)))
        else (some out.1, shifted, none)

/-! ## What a shift is to do -/

/-- A number of inputs that may be dropped: whole groups, so many that enough entries are free, or
all of them. -/
structure MayDiscard (numCtx : Int) (inputs : List Input) (numKeep d : Nat) : Prop where
  pos : 1 ≤ d
  le : numKeep + d ≤ inputs.length
  whole : Whole inputs numKeep (numKeep + d)
  enough : targetFree numCtx numKeep ≤ numCtx - (inputs.length - d) ∨ numKeep + d = inputs.length

/-- The inputs that are left. -/
def survivors (inputs : List Input) (numKeep d : Nat) : List Input :=
  inputs.take numKeep ++ inputs.drop (numKeep + d)

section Right

variable {σ : Type*} (K : KvCache σ)

/-- Exactly the positions of what was dropped are removed. -/
def Removed (c c' : σ) (seq : Int) (numKeep d : Nat) : Prop :=
  (∀ p j, K.Holds c' seq p j ↔ ∃ q, K.Holds c seq q j ∧
    (q < numKeep ∧ p = q ∨ (numKeep + d : Int) ≤ q ∧ p = q - d)) ∧
  ∀ s p j, s ≠ seq → (K.Holds c' s p j ↔ K.Holds c s p j)

/-- Nothing of the sequence is left. -/
def Emptied (c c' : σ) (seq : Int) : Prop :=
  (∀ p j, ¬K.Holds c' seq p j) ∧ ∀ s p j, s ≠ seq → (K.Holds c' s p j ↔ K.Holds c s p j)

/-- What becomes of the slot and of the cache when `d` inputs are dropped. -/
def Shifted (numCtx : Int) (cache : Option σ) (slot : InputCacheSlot) (numKeep d : Nat) : Prop :=
  let out := shiftCacheSlot K numCtx cache slot numKeep
  (out.2.2 = none ∧ out.2.1 = { slot with inputs := survivors slot.inputs numKeep d } ∧
      (cache = none ∧ out.1 = none ∨ ∃ c c', cache = some c ∧ out.1 = some c' ∧
        Removed K c c' slot.id numKeep d)) ∨
    (out.2.2 = some (.reprocessInputs (survivors slot.inputs numKeep d)) ∧
      out.2.1 = { slot with inputs := [] } ∧
      ∃ c c', cache = some c ∧ out.1 = some c' ∧ Emptied K c c' slot.id)

/-- As few inputs as can be are dropped, and slot and cache agree on them. -/
structure ShiftRight (numCtx : Int) (cache : Option σ) (slot : InputCacheSlot) (numKeep : Nat) :
    Prop where
  may : MayDiscard numCtx slot.inputs numKeep (shiftDiscard numCtx slot.inputs numKeep)
  least : ∀ d, MayDiscard numCtx slot.inputs numKeep d →
    shiftDiscard numCtx slot.inputs numKeep ≤ d
  shifted : Shifted K numCtx cache slot numKeep (shiftDiscard numCtx slot.inputs numKeep)

end Right

/-- Input `p` is in the group that was opened last from `k` on, as the loop counts it. -/
def InLastFrom (inputs : List Input) (k p : Nat) : Prop :=
  ∃ i, k ≤ i ∧ i < p ∧ 0 < sameBatchAt inputs i ∧
    (∀ j, i < j → j < p → ¬0 < sameBatchAt inputs j) ∧ (p : Int) ≤ i + i32 (sameBatchAt inputs i)

/-- The first input from `start` on that is not in the group opened last before it is in no group
opened before it. -/
def LastReaches (inputs : List Input) (k start : Nat) : Prop :=
  ∀ p, start ≤ p → p < inputs.length → (∀ q, start ≤ q → q < p → InLastFrom inputs k q) →
    ¬InLastFrom inputs k p → ∀ i, k ≤ i → i < p → ¬Member inputs i p

/-! ## The loop of `ShiftDiscard` -/

theorem le_discardLoop (target : Int) (rest : List Input) (free sameBatch : Int) (n : Nat) :
    n ≤ discardLoop target rest free sameBatch n ∧
      discardLoop target rest free sameBatch n ≤ n + rest.length := by
  induction rest generalizing free sameBatch n with
  | nil => exact ⟨le_rfl, le_rfl⟩
  | cons input rest ih =>
    rw [discardLoop, List.length_cons]
    split
    · omega
    · obtain ⟨hlo, hhi⟩ := ih (free + 1)
        (if 0 < input.sameBatch then i32 input.sameBatch else sameBatch - 1) (n + 1)
      omega

/-- What is dropped is in the slot. -/
theorem shiftDiscard_le {numCtx : Int} {inputs : List Input} {numKeep : Nat}
    (h : 0 < shiftDiscard numCtx inputs numKeep) :
    numKeep + shiftDiscard numCtx inputs numKeep ≤ inputs.length := by
  have hle := (le_discardLoop (targetFree numCtx numKeep) (inputs.drop numKeep)
    (numCtx - inputs.length) 0 0).2
  have hdiscard : shiftDiscard numCtx inputs numKeep ≤ (inputs.drop numKeep).length := by
    rw [Nat.zero_add] at hle
    exact hle
  rw [List.length_drop] at hdiscard
  omega

/-- Nothing is dropped only where there is room. -/
theorem length_lt_of_shiftDiscard {numCtx : Int} {inputs : List Input} {numKeep : Nat}
    (hkeep : (numKeep : Int) < numCtx) (h : shiftDiscard numCtx inputs numKeep = 0) :
    (inputs.length : Int) < numCtx := by
  unfold shiftDiscard at h
  cases hrest : inputs.drop numKeep with
  | nil =>
    have := List.drop_eq_nil_iff.mp hrest
    omega
  | cons input rest =>
    rw [hrest, discardLoop] at h
    split at h
    · rename_i hstop
      have htarget : 1 ≤ targetFree numCtx numKeep := le_max_right _ _
      omega
    · have := (le_discardLoop (targetFree numCtx numKeep) rest (numCtx - inputs.length + 1)
        (if 0 < input.sameBatch then i32 input.sameBatch else 0 - 1) (0 + 1)).1
      omega

/-- `sameBatch` before the input `k + n`. -/
def groupLeft (inputs : List Input) (k : Nat) : Nat → Int
  | 0 => 0
  | n + 1 =>
    if 0 < sameBatchAt inputs (k + n) then i32 (sameBatchAt inputs (k + n))
    else groupLeft inputs k n - 1

/-- How far the group opened last still reaches. -/
theorem lt_groupLeft_iff (inputs : List Input) (k n d : Nat) : (d : Int) < groupLeft inputs k n ↔
    ∃ i, k ≤ i ∧ i < k + n ∧ 0 < sameBatchAt inputs i ∧
      (∀ j, i < j → j < k + n → ¬0 < sameBatchAt inputs j) ∧
      (k + n + d : Int) ≤ i + i32 (sameBatchAt inputs i) := by
  induction n generalizing d with
  | zero =>
    constructor
    · intro h
      have hzero : groupLeft inputs k 0 = 0 := rfl
      omega
    · rintro ⟨i, hk, hi, -⟩
      omega
  | succ n ih =>
    rw [groupLeft]
    by_cases hopen : 0 < sameBatchAt inputs (k + n)
    · rw [if_pos hopen]
      constructor
      · intro h
        exact ⟨k + n, by omega, by omega, hopen, fun j h h' => by omega, by push_cast; omega⟩
      · rintro ⟨i, hk, hi, -, hzero, hle⟩
        have heq : i = k + n := by
          by_contra hne
          exact hzero (k + n) (by omega) (by omega) hopen
        subst heq
        push_cast at hle
        omega
    · -- no group is opened here
      rw [if_neg hopen]
      have hback := ih (d + 1)
      push_cast at hback
      have hstep : (d : Int) < groupLeft inputs k n - 1 ↔ (d : Int) + 1 < groupLeft inputs k n := by
        omega
      rw [hstep, hback]
      constructor
      · rintro ⟨i, hk, hi, hpos, hzero, hle⟩
        refine ⟨i, hk, by omega, hpos, fun j h h' => ?_, by push_cast at hle ⊢; omega⟩
        rcases Nat.lt_succ_iff_lt_or_eq.mp (show j < k + n + 1 by omega) with h'' | rfl
        · exact hzero j h h''
        · exact hopen
      · rintro ⟨i, hk, hi, hpos, hzero, hle⟩
        have hlt : i < k + n := by
          rcases Nat.lt_succ_iff_lt_or_eq.mp (show i < k + n + 1 by omega) with h | rfl
          · exact h
          · exact absurd hpos hopen
        exact ⟨i, hk, hlt, hpos, fun j h h' => hzero j h (by omega), by push_cast at hle ⊢; omega⟩

theorem groupLeft_pos_iff (inputs : List Input) (k n : Nat) :
    0 < groupLeft inputs k n ↔ InLastFrom inputs k (k + n) := by
  have h := lt_groupLeft_iff inputs k n 0
  simpa [InLastFrom] using h

/-- The loop stops at the first input outside the group opened last from which on enough entries
are free, or at the end. -/
theorem discardLoop_spec {inputs : List Input} {k : Nat} {target free : Int} (rest : List Input)
    (n : Nat) (hrest : inputs.drop (k + n) = rest) (hn : k + n ≤ inputs.length)
    (hbefore : ∀ m < n, ¬(groupLeft inputs k m ≤ 0 ∧ target ≤ free + m)) :
    ∃ d, discardLoop target rest (free + n) (groupLeft inputs k n) n = d ∧
      k + d ≤ inputs.length ∧ (∀ m < d, ¬(groupLeft inputs k m ≤ 0 ∧ target ≤ free + m)) ∧
      (k + d < inputs.length → groupLeft inputs k d ≤ 0 ∧ target ≤ free + d) := by
  induction rest generalizing n with
  | nil =>
    have hlen := List.drop_eq_nil_iff.mp hrest
    exact ⟨n, rfl, hn, hbefore, fun h => by omega⟩
  | cons input rest ih =>
    have hlt : k + n < inputs.length := by
      by_contra hge
      rw [List.drop_eq_nil_of_le (by omega)] at hrest
      cases hrest
    rw [discardLoop]
    split
    · rename_i hstop
      exact ⟨n, rfl, hn, hbefore, fun _ => hstop⟩
    · rename_i hgo
      have hat : sameBatchAt inputs (k + n) = input.sameBatch := by
        have hget := congrArg List.head? hrest
        rw [List.head?_drop] at hget
        rw [sameBatchAt, hget]
        rfl
      have hleft : (if 0 < input.sameBatch then i32 input.sameBatch
          else groupLeft inputs k n - 1) = groupLeft inputs k (n + 1) := by
        rw [groupLeft, hat]
      have hnext : inputs.drop (k + (n + 1)) = rest := by
        rw [← Nat.add_assoc, ← List.drop_drop, hrest, List.drop_one, List.tail_cons]
      rw [hleft, add_assoc, ← Nat.cast_succ]
      refine ih (n + 1) hnext (by omega) fun m hm => ?_
      rcases Nat.lt_succ_iff_lt_or_eq.mp hm with h | rfl
      · exact hbefore m h
      · exact hgo

theorem i32_le {x : Int} (h : 0 < x) : i32 x ≤ x := by
  have hrange := i32_range x
  by_cases hbig : x ≤ maxInt32
  · rw [i32_eq (by omega) hbig]
  · omega

/-- The group opened last is a group. -/
theorem InLastFrom.member {inputs : List Input} {k p : Nat} (h : InLastFrom inputs k p)
    (hp : p < inputs.length) : ∃ i, k ≤ i ∧ i < p ∧ Member inputs i p := by
  obtain ⟨i, hk, hi, hpos, -, hle⟩ := h
  have hreach := i32_le hpos
  exact ⟨i, hk, hi, hpos, hi.le, by omega, hp⟩

/-! ## What is dropped -/

/-- Behind a beginning that splits no group, inputs up to one that is in no group opened before it
are whole groups. -/
theorem whole_iff {inputs : List Input} {k m : Nat} (hkeep : ∀ i, i < k → ¬Member inputs i k) :
    Whole inputs k m ↔ ∀ i, k ≤ i → i < m → ¬Member inputs i m := by
  constructor
  · intro hwhole i hk hi h
    have hsplit := (hwhole i i m (member_self h) h).mp ⟨hk, hi⟩
    omega
  · intro hout
    have hside : ∀ {i j}, Member inputs i j → (k ≤ j ∧ j < m ↔ k ≤ i ∧ i < m) := by
      intro i j h
      have hbeyond : ∀ {n}, i < n → n ≤ j → Member inputs i n := fun hlt hle =>
        ⟨h.1, hlt.le, by have := h.2.2.1; omega, by have := h.2.2.2; omega⟩
      have hle := h.2.1
      constructor
      · rintro ⟨hkj, hjm⟩
        refine ⟨?_, by omega⟩
        by_contra hlt
        exact hkeep i (by omega) (hbeyond (by omega) hkj)
      · rintro ⟨hki, him⟩
        refine ⟨by omega, ?_⟩
        by_contra hge
        exact hout i hki him (hbeyond him (by omega))
    intro i j j' h h'
    exact (hside h).trans (hside h').symm

theorem targetFree_le {numCtx : Int} {numKeep : Nat} (h : (numKeep : Int) < numCtx) :
    1 ≤ targetFree numCtx numKeep ∧ targetFree numCtx numKeep ≤ numCtx - numKeep := by
  rw [targetFree, Int.tdiv_eq_ediv_of_nonneg (by omega)]
  omega

/-- `ShiftDiscard` of a full context drops as little as can be exactly if the input at which it
stops is in no group opened before it. -/
theorem discard_iff {numCtx : Int} {inputs : List Input} {numKeep : Nat}
    (hfull : (inputs.length : Int) = numCtx) (hctx : (numKeep : Int) < numCtx)
    (hkeep : ∀ i, i < numKeep → ¬Member inputs i numKeep) :
    (1 ≤ shiftDiscard numCtx inputs numKeep ∧
        numKeep + shiftDiscard numCtx inputs numKeep ≤ inputs.length) ∧
      ((MayDiscard numCtx inputs numKeep (shiftDiscard numCtx inputs numKeep) ∧
          ∀ d, MayDiscard numCtx inputs numKeep d → shiftDiscard numCtx inputs numKeep ≤ d) ↔
        LastReaches inputs numKeep (numKeep + (targetFree numCtx numKeep).toNat)) := by
  obtain ⟨htarget, hroom⟩ := targetFree_le hctx
  obtain ⟨d, hd, hle, hbefore, hstop⟩ := @discardLoop_spec inputs numKeep
    (targetFree numCtx numKeep) 0 (inputs.drop numKeep) 0 rfl (by omega)
    fun m hm => absurd hm (Nat.not_lt_zero m)
  have hdiscard : shiftDiscard numCtx inputs numKeep = d := by
    rw [← hd, shiftDiscard, hfull, sub_self]
    rfl
  rw [hdiscard]
  -- the inputs before the one at which it stops are too few or in the group opened last
  have hpos : 1 ≤ d := by
    by_contra hzero
    obtain rfl : d = 0 := by omega
    have := (hstop (by omega)).2
    omega
  have hin : ∀ m, (targetFree numCtx numKeep).toNat ≤ m → m < d →
      InLastFrom inputs numKeep (numKeep + m) := by
    intro m hm hlt
    rw [← groupLeft_pos_iff]
    by_contra hnot
    exact hbefore m hlt ⟨by omega, by omega⟩
  have henough : targetFree numCtx numKeep ≤ numCtx - (inputs.length - d) := by
    by_cases hall : numKeep + d = inputs.length
    · omega
    · have := (hstop (by omega)).2
      omega
  have hleast : ∀ d', MayDiscard numCtx inputs numKeep d' → d ≤ d' := by
    intro d' hmay
    by_contra hlt
    have hmany : (targetFree numCtx numKeep).toNat ≤ d' := by
      have := hmay.enough
      omega
    obtain ⟨i, hi, hlt', hmember⟩ := (hin d' hmany (by omega)).member (by omega)
    exact (whole_iff hkeep).mp hmay.whole i hi hlt' hmember
  refine ⟨⟨hpos, hle⟩, ?_⟩
  constructor
  · rintro ⟨hmay, -⟩ p hp hplt hbetween hnot i hi hip
    have hout := (whole_iff hkeep).mp hmay.whole
    have heq : p = numKeep + d := by
      rcases Nat.lt_trichotomy p (numKeep + d) with h | h | h
      · have hp' := hin (p - numKeep) (by omega) (by omega)
        rw [Nat.add_sub_cancel' (by omega)] at hp'
        exact absurd hp' hnot
      · exact h
      · have hlast := hbetween (numKeep + d) (by omega) h
        rw [← groupLeft_pos_iff] at hlast
        have := (hstop (by omega)).1
        omega
    subst heq
    exact hout i hi hip
  · intro hreaches
    refine ⟨⟨hpos, hle, (whole_iff hkeep).mpr fun i hi hlt hmember => ?_,
      .inl henough⟩, hleast⟩
    have hend := hmember.2.2.2
    refine hreaches (numKeep + d) (by omega) hend (fun q hq hqd => ?_) ?_ i hi hlt hmember
    · have hq' := hin (q - numKeep) (by omega) (by omega)
      rwa [Nat.add_sub_cancel' (by omega)] at hq'
    · rw [← groupLeft_pos_iff]
      exact not_lt.mpr (hstop hend).1

/-! ## The inputs that are left -/

/-- The loop moves what follows into the place of what is dropped. -/
theorem take_compact {d : Nat} (hd : 0 < d) (n i : Nat) (inputs : List Input) (hi : d ≤ i)
    (hn : i + n ≤ inputs.length) : (compact d n i inputs).take (i - d + n) =
      inputs.take (i - d) ++ (inputs.drop i).take n := by
  induction n generalizing i inputs with
  | zero => simp [compact]
  | succ n ih =>
    have hlt : i < inputs.length := by omega
    rw [compact, List.getElem?_eq_getElem hlt]
    simp only
    have hnext := ih (i + 1) (inputs.set (i - d) inputs[i]) (by omega)
      (by rw [List.length_set]; omega)
    have hindex : i - d + (n + 1) = i + 1 - d + n := by omega
    rw [hindex, hnext, List.drop_set_of_lt (by omega), show i + 1 - d = i - d + 1 by omega,
      List.take_add_one, List.take_set_of_le le_rfl, List.getElem?_set_self (by omega),
      List.drop_eq_getElem_cons hlt, List.take_succ_cons]
    simp

theorem take_compact_eq {inputs : List Input} {k d : Nat} (hd : 0 < d)
    (h : k + d ≤ inputs.length) :
    (compact d (inputs.length - (k + d)) (k + d) inputs).take (inputs.length - d) =
      survivors inputs k d := by
  have hmoved := take_compact hd (inputs.length - (k + d)) (k + d) inputs (by omega) (by omega)
  rw [show k + d - d + (inputs.length - (k + d)) = inputs.length - d by omega,
    Nat.add_sub_cancel] at hmoved
  have hrest : (inputs.drop (k + d)).take (inputs.length - (k + d)) = inputs.drop (k + d) :=
    List.take_of_length_le (by rw [List.length_drop])
  rw [hmoved, survivors, hrest]

/-- The new slice has the same inputs. -/
theorem preserved_eq {inputs : List Input} {k d : Nat} (h : k + d ≤ inputs.length) :
    preserved inputs k d = survivors inputs k d := by
  have htake : (inputs.take k).length = k := List.length_take_of_le (by omega)
  rw [preserved, survivors]
  simp only [sliceUpdate, List.take_zero, List.nil_append, List.length_drop, htake, Nat.zero_add]
  rw [List.take_left' htake]
  convert List.append_nil _ using 2
  refine List.drop_eq_nil_of_le ?_
  rw [List.length_append, List.length_drop, htake, List.length_replicate]
  omega

/-! ## The shift -/

section Shift

variable {σ : Type*} {K : KvCache σ} {numCtx : Int} {cache : Option σ} {slot : InputCacheSlot}
  {numKeep : Nat}

/-- Slot and cache agree on what is left, with or without an error. -/
theorem shifted_of_discard (hctx : (numKeep : Int) < numCtx) (hmax : numCtx ≤ maxInt32)
    (hfull : (slot.inputs.length : Int) = numCtx) (hvalid : ∀ c, cache = some c → K.Valid c)
    (hpos : 1 ≤ shiftDiscard numCtx slot.inputs numKeep)
    (hle : numKeep + shiftDiscard numCtx slot.inputs numKeep ≤ slot.inputs.length) :
    Shifted K numCtx cache slot numKeep (shiftDiscard numCtx slot.inputs numKeep) := by
  generalize hd : shiftDiscard numCtx slot.inputs numKeep = d at hpos hle ⊢
  unfold Shifted shiftCacheSlot
  rw [if_neg (by omega), hd, if_neg (by omega)]
  simp only [take_compact_eq hpos hle, preserved_eq hle]
  cases cache with
  | none => exact .inl ⟨rfl, rfl, .inl ⟨rfl, rfl⟩⟩
  | some c =>
    have hc := hvalid c rfl
    simp only
    cases hfail : (K.remove c slot.id numKeep (numKeep + d)).2 with
    | false =>
      rw [if_neg Bool.false_ne_true]
      refine .inl ⟨rfl, rfl, .inr ⟨c, _, rfl, rfl, fun p j => ?_, fun s p j hs => ?_⟩⟩
      · rw [K.holds_remove hc (by omega) (by omega) (by omega) hfail]
        refine exists_congr fun q => and_congr_right fun _ => ?_
        omega
      · exact K.holds_other hs p j
    | true =>
      rw [if_pos rfl]
      refine .inr ⟨rfl, rfl, c, _, rfl, rfl, fun p j => ?_, fun s p j hs => ?_⟩
      · exact K.not_holds_removeAll (K.valid_remove hc (by omega) (by omega) (by omega)) p j
      · exact (K.holds_other hs p j).trans (K.holds_other hs p j)

/-- A shift of a full context is right if and only if the first input from which on enough entries
are free, and that is not in the group opened last, is in no group at all. -/
theorem shiftCacheSlot_right_iff (hctx : (numKeep : Int) < numCtx) (hmax : numCtx ≤ maxInt32)
    (hfull : (slot.inputs.length : Int) = numCtx)
    (hkeep : ∀ i, i < numKeep → ¬Member slot.inputs i numKeep)
    (hvalid : ∀ c, cache = some c → K.Valid c) :
    ShiftRight K numCtx cache slot numKeep ↔
      LastReaches slot.inputs numKeep (numKeep + (targetFree numCtx numKeep).toNat) := by
  obtain ⟨⟨hpos, hle⟩, hiff⟩ := discard_iff hfull hctx hkeep
  rw [← hiff]
  constructor
  · rintro ⟨hmay, hleast, -⟩
    exact ⟨hmay, hleast⟩
  · rintro ⟨hmay, hleast⟩
    exact ⟨hmay, hleast, shifted_of_discard hctx hmax hfull hvalid hpos hle⟩

/-- Two inputs in a causal cache of two, without a group. -/
theorem shiftCacheSlot_right_pair :
    let c := ((newCausalCache 0 true).init 1 2 2).get rfl
    let c := [Causal.Op.startForward [⟨0, 0⟩, ⟨0, 1⟩] [0]].foldl Causal.apply c
    ShiftRight (causalCache none) 2 (some c) ⟨0, [⟨7, 0⟩, ⟨8, 0⟩]⟩ 1 ↔
      LastReaches [⟨7, 0⟩, ⟨8, 0⟩] 1 (1 + (targetFree 2 1).toNat) := by
  have hinit : (Causal.rangesSys (newCausalCache 0 true) 1 2 2).Reachable
      (((newCausalCache 0 true).init 1 2 2).get rfl) := .init (Option.some_get _).symm
  have hreach := TSys.Reachable.run_restrict hinit
    [Causal.Op.startForward [⟨0, 0⟩, ⟨0, 1⟩] [0]] (by decide)
  have hvalid := Causal.onRanges_invariant _ _ _ _ _ hreach
  refine @shiftCacheSlot_right_iff _ (causalCache none) 2 _ ⟨0, [⟨7, 0⟩, ⟨8, 0⟩]⟩ 1 (by decide)
    (by decide) rfl ?_ ?_
  · rintro i hi ⟨hpos, -⟩
    obtain rfl : i = 0 := by omega
    exact absurd hpos (by decide)
  · rintro c hc
    cases hc
    exact hvalid

/-- A group inside a group: the rest of the outer one is kept without its beginning. -/
theorem shiftCacheSlot_splits_group :
    ¬∀ (slot : InputCacheSlot) (numCtx : Int) (numKeep : Nat), (numKeep : Int) < numCtx →
      (slot.inputs.length : Int) = numCtx → (∀ i, i < numKeep → ¬Member slot.inputs i numKeep) →
      ShiftRight (causalCache none) numCtx none slot numKeep := by
  intro h
  have hright := h ⟨0, [⟨1, 5⟩, ⟨2, 1⟩, ⟨3, 0⟩, ⟨4, 0⟩, ⟨5, 0⟩, ⟨6, 0⟩]⟩ 6 0 (by decide) rfl
    fun i hi => absurd hi (Nat.not_lt_zero i)
  have hdiscard : shiftDiscard 6 [⟨1, 5⟩, ⟨2, 1⟩, ⟨3, 0⟩, ⟨4, 0⟩, ⟨5, 0⟩, ⟨6, 0⟩] 0 = 3 := by
    decide
  have hwhole := hright.may.whole
  rw [hdiscard] at hwhole
  -- the first and the fourth input are in one group
  have hmember : Member [⟨1, 5⟩, ⟨2, 1⟩, ⟨3, 0⟩, ⟨4, 0⟩, ⟨5, 0⟩, ⟨6, 0⟩] 0 3 :=
    ⟨by decide, by decide, by decide, by decide⟩
  have hsplit := (hwhole 0 0 3 (member_self hmember) hmember).mp ⟨by decide, by decide⟩
  exact absurd hsplit.2 (by decide)

end Shift

end Prismalama.Runner
