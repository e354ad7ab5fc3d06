import Prismalama.Runner.InputCache

/-!
# The inputs of one sequence (`forwardBatch` of `runner/ollamarunner/runner.go`)

`forwardBatch` takes inputs of a sequence as long as there is room in the batch and in the context,
and shifts the slot of the sequence when the context is full. What comes with an input (its image,
or which token it is) does not matter to it.
-/

namespace Prismalama.Runner

open Prismalama.Lib

/-- What decides which inputs of a sequence are taken; `input` forgets what comes with them. -/
structure Window (α : Type*) where
  input : α → Input
  numCtx : Int
  numKeep : Nat
  shift : Bool

inductive Shift (α : Type*)
  | failed
  | reprocess (newInputs : List α)
  | shifted (slot : List α)

/-- The variables of `forwardBatch` while it takes inputs of the sequence. -/
structure Setup (α : Type*) where
  slot : List α
  inputs : List α
  pendingInputs : List α
  /-- the inputs in the batch, with those of other sequences -/
  batchLen : Nat
  batchSize : Int
  taken : Bool
  removed : Bool

def Setup.add {α : Type*} (st : Setup α) (inp : α) : Setup α :=
  { st with pendingInputs := st.pendingInputs ++ [inp], batchLen := st.batchLen + 1 }

namespace Window

variable {α : Type*} (W : Window α)

def discard (slot : List α) : Nat := shiftDiscard W.numCtx (slot.map W.input) W.numKeep

/-- The inputs that a shift leaves. -/
def kept (slot : List α) : List α :=
  slot.take W.numKeep ++ slot.drop (W.numKeep + W.discard slot)

/-- `ShiftCacheSlot`; `fails` tells whether the cache can remove a part of the sequence. -/
def shiftSlot (fails : Bool) (slot : List α) : Shift α :=
  if W.numCtx ≤ W.numKeep then .failed
  else if W.discard slot ≤ 0 then .shifted slot
  else if fails = true then .reprocess (W.kept slot)
  else .shifted (W.kept slot)

/-- The loop over the inputs as they were before it; `none` for an error. It goes on after the slot
was emptied. -/
def setupLoop (fails : Bool) : List α → Setup α → Option (Setup α)
  | [], st => some st
  | inp :: rest, st =>
    let minBatch := 1 + (W.input inp).sameBatch
    let st := { st with batchSize := max st.batchSize minBatch }
    if st.batchSize < st.batchLen + minBatch then some st
    else if W.numCtx < st.slot.length + st.pendingInputs.length + minBatch then
      if st.pendingInputs ≠ [] then some st
      else if W.shift = false then some { st with taken := false, removed := true }
      else
        match W.shiftSlot fails st.slot with
        | .failed => none
        | .reprocess newInputs =>
          setupLoop fails rest
            { st with slot := [], inputs := newInputs ++ st.inputs, taken := false }
        | .shifted slot => setupLoop fails rest ({ st with slot := slot }.add inp)
    else setupLoop fails rest (st.add inp)

variable {W}

/-! ## The shift -/

/-- What is dropped is in the slot. -/
theorem discard_le {slot : List α} (h : 0 < W.discard slot) :
    W.numKeep + W.discard slot ≤ slot.length := by
  have hle := shiftDiscard_le h
  rwa [List.length_map] at hle

theorem map_kept (slot : List α) : (W.kept slot).map W.input =
    survivors (slot.map W.input) W.numKeep (W.discard slot) := by
  rw [kept, survivors, List.map_append, List.map_take, List.map_drop]

/-- The slot and the error after `ShiftCacheSlot`. -/
def IsOutcome (W : Window α) (slot : InputCacheSlot) (err : Option ShiftError) : Shift α → Prop
  | .failed => err = some (.keepExceedsContext W.numKeep W.numCtx)
  | .reprocess newInputs =>
    slot.inputs = [] ∧ err = some (.reprocessInputs (newInputs.map W.input))
  | .shifted inputs => slot.inputs = inputs.map W.input ∧ err = none

theorem isOutcome_shiftSlot {σ : Type*} (K : KvCache σ) (c : σ) (id : Int) (slot : List α) :
    let fails := (K.remove c id W.numKeep (W.numKeep + W.discard slot)).2
    let out := shiftCacheSlot K W.numCtx (some c) ⟨id, slot.map W.input⟩ W.numKeep
    W.IsOutcome out.2.1 out.2.2 (W.shiftSlot fails slot) := by
  intro fails out
  have hout : out = shiftCacheSlot K W.numCtx (some c) ⟨id, slot.map W.input⟩ W.numKeep := rfl
  have hdiscard : shiftDiscard W.numCtx (slot.map W.input) W.numKeep
      = W.discard slot := rfl
  rw [hout]
  unfold Window.shiftSlot shiftCacheSlot
  dsimp only
  rw [hdiscard]
  by_cases hctx : W.numCtx ≤ W.numKeep
  · rw [if_pos hctx, if_pos hctx]
    rfl
  · rw [if_neg hctx, if_neg hctx]
    by_cases hzero : W.discard slot ≤ 0
    · rw [if_pos hzero, if_pos hzero]
      exact ⟨rfl, rfl⟩
    · have hle : W.numKeep + W.discard slot ≤ (slot.map W.input).length := by
        rw [List.length_map]
        exact discard_le (not_le.mp hzero)
      rw [if_neg hzero, if_neg hzero, take_compact_eq (not_le.mp hzero) hle, preserved_eq hle,
        ← map_kept]
      by_cases hfails : fails = true
      · rw [if_pos hfails, if_pos hfails]
        exact ⟨rfl, rfl⟩
      · rw [if_neg hfails, if_neg hfails]
        exact ⟨rfl, rfl⟩

/-- Whether the cache can remove inputs does not matter where none are dropped. -/
theorem shiftSlot_of_discard {slot : List α} (h : W.discard slot ≤ 0) (fails fails' : Bool) :
    W.shiftSlot fails slot = W.shiftSlot fails' slot := by
  rw [shiftSlot, shiftSlot, if_pos h, if_pos h]

theorem discard_nil : W.discard [] ≤ 0 := by
  by_contra hpos
  have hle := discard_le (not_le.mp hpos)
  rw [List.length_nil] at hle
  omega

/-- An empty slot is not changed. -/
theorem shiftSlot_nil (fails : Bool) :
    W.shiftSlot fails [] = .failed ∨ W.shiftSlot fails [] = .shifted [] := by
  rw [shiftSlot]
  by_cases hctx : W.numCtx ≤ W.numKeep
  · exact .inl (if_pos hctx)
  · rw [if_neg hctx, if_pos discard_nil]
    exact .inr rfl

/-! ## The loop over the inputs -/

/-- Once an input was taken or the slot was emptied, the loop only takes inputs. -/
theorem setupLoop_takes {fails : Bool} {old : List α} {st st' : Setup α}
    (hst : st.pendingInputs ≠ [] ∨ st.slot = []) (h : W.setupLoop fails old st = some st') :
    st'.slot = st.slot ∧ st'.inputs = st.inputs ∧ (st'.taken = st.taken ∨ st'.removed = true) ∧
      ∃ m, st'.pendingInputs = st.pendingInputs ++ old.take m := by
  induction old generalizing st with
  | nil =>
    obtain rfl := Option.some.inj h
    exact ⟨rfl, rfl, .inl rfl, 0, by simp⟩
  | cons inp rest ih =>
    rw [setupLoop] at h
    dsimp only at h
    split at h
    · obtain rfl := Option.some.inj h
      exact ⟨rfl, rfl, .inl rfl, 0, by simp⟩
    · have htake : ∀ {st₁ : Setup α}, W.setupLoop fails rest (st₁.add inp) = some st' →
          st₁.slot = st.slot → st₁.inputs = st.inputs → st₁.pendingInputs = st.pendingInputs →
          st₁.taken = st.taken → st'.slot = st.slot ∧ st'.inputs = st.inputs ∧
            (st'.taken = st.taken ∨ st'.removed = true) ∧
              ∃ m, st'.pendingInputs = st.pendingInputs ++ (inp :: rest).take m := by
        intro st₁ hrun hslot hinputs hpending htaken
        have hne : (st₁.add inp).pendingInputs ≠ [] := List.concat_ne_nil _ _
        obtain ⟨hslot', hinputs', htaken', m, hm⟩ := ih (.inl hne) hrun
        refine ⟨hslot'.trans hslot, hinputs'.trans hinputs,
          htaken'.imp_left fun heq => heq.trans htaken, m + 1, ?_⟩
        rw [hm, ← hpending, List.take_succ_cons]
        show st₁.pendingInputs ++ [inp] ++ _ = _
        rw [List.append_assoc]
        rfl
      split at h
      · split at h
        · obtain rfl := Option.some.inj h
          exact ⟨rfl, rfl, .inl rfl, 0, by simp⟩
        · rename_i hnil
          rw [not_not] at hnil
          split at h
          · obtain rfl := Option.some.inj h
            exact ⟨rfl, rfl, .inr rfl, 0, by simp⟩
          · -- only an emptied slot is left, which a shift does not change
            have hempty : st.slot = [] := hst.resolve_left fun hne => hne hnil
            rw [hempty] at h
            rcases shiftSlot_nil fails with hshift | hshift
            · rw [hshift] at h
              cases h
            · rw [hshift] at h
              exact htake h hempty.symm rfl rfl rfl
      · exact htake h rfl rfl rfl rfl

/-- What the loop does to the inputs of a sequence. -/
inductive Taken (W : Window α) (fails : Bool) (st st' : Setup α) : Prop
  | plain (m : Nat) (htaken : st'.taken = st.taken ∨ st'.removed = true)
      (hslot : st'.slot = st.slot) (hinputs : st'.inputs = st.inputs)
      (hpending : st'.pendingInputs = st.inputs.take m)
  | shifted (m : Nat) (inp : α) (hinp : st.inputs.head? = some inp)
      (hfull : W.numCtx < st.slot.length + (1 + (W.input inp).sameBatch))
      (hpos : 0 < W.discard st.slot) (htaken : st'.taken = st.taken ∨ st'.removed = true)
      (hslot : st'.slot = W.kept st.slot) (hinputs : st'.inputs = st.inputs)
      (hpending : st'.pendingInputs = st.inputs.take m)
  | emptied (m : Nat) (inp : α) (hinp : st.inputs.head? = some inp)
      (hfull : W.numCtx < st.slot.length + (1 + (W.input inp).sameBatch))
      (hpos : 0 < W.discard st.slot) (hfails : fails = true) (hslot : st'.slot = [])
      (hinputs : st'.inputs = W.kept st.slot ++ st.inputs)
      (hpending : st'.pendingInputs = st.inputs.tail.take m)

theorem setupLoop_taken {fails : Bool} {st st' : Setup α}
    (hst : st.pendingInputs = []) (h : W.setupLoop fails st.inputs st = some st') :
    Taken W fails st st' := by
  cases hinputs : st.inputs with
  | nil =>
    rw [hinputs] at h
    obtain rfl := Option.some.inj h
    exact .plain 0 (.inl rfl) rfl rfl (by rw [hst, List.take_zero])
  | cons inp rest =>
    have hhead : st.inputs.head? = some inp := by rw [hinputs]; rfl
    have hstop : ∀ {st₁ : Setup α}, st₁.slot = st.slot → st₁.inputs = st.inputs →
        st₁.pendingInputs = st.pendingInputs → (st₁.taken = st.taken ∨ st₁.removed = true) →
        Taken W fails st st₁ :=
      fun hslot hsame hpending htaken =>
        .plain 0 htaken hslot hsame (by rw [hpending, hst, List.take_zero])
    -- behind the first input the loop only takes inputs
    have htake : ∀ {st₁ : Setup α}, W.setupLoop fails rest (st₁.add inp) = some st' →
        st₁.pendingInputs = [] → st'.slot = st₁.slot ∧ st'.inputs = st₁.inputs ∧
          (st'.taken = st₁.taken ∨ st'.removed = true) ∧
            ∃ m, st'.pendingInputs = st.inputs.take m := by
      intro st₁ hrun hpending
      obtain ⟨hslot, hsame, htaken, m, hm⟩ := setupLoop_takes (.inl (List.concat_ne_nil _ _)) hrun
      refine ⟨hslot, hsame, htaken, m + 1, ?_⟩
      rw [hm, hinputs, List.take_succ_cons]
      show st₁.pendingInputs ++ [inp] ++ _ = _
      rw [hpending]
      rfl
    rw [hinputs, setupLoop] at h
    dsimp only at h
    split at h
    · obtain rfl := Option.some.inj h
      exact hstop rfl rfl rfl (.inl rfl)
    · split at h
      · rename_i hfull
        rw [hst, List.length_nil, Nat.cast_zero, add_zero] at hfull
        split at h
        · obtain rfl := Option.some.inj h
          exact hstop rfl rfl rfl (.inl rfl)
        · split at h
          · obtain rfl := Option.some.inj h
            exact hstop rfl rfl rfl (.inr rfl)
          · rw [shiftSlot] at h
            by_cases hctx : W.numCtx ≤ W.numKeep
            · rw [if_pos hctx] at h
              cases h
            · rw [if_neg hctx] at h
              by_cases hzero : W.discard st.slot ≤ 0
              · rw [if_pos hzero] at h
                obtain ⟨hslot, hsame, htaken, m, hm⟩ := htake h hst
                exact .plain m htaken hslot hsame hm
              · rw [if_neg hzero] at h
                by_cases hfails : fails = true
                · rw [if_pos hfails] at h
                  -- the first input is passed over, and comes again behind those of the slot
                  obtain ⟨hslot, hsame, -, m, hm⟩ := setupLoop_takes (.inr rfl) h
                  refine .emptied m inp hhead hfull (not_le.mp hzero) hfails hslot ?_ ?_
                  · exact hsame
                  · rw [hm, hinputs, List.tail_cons]
                    show st.pendingInputs ++ _ = _
                    rw [hst, List.nil_append]
                · rw [if_neg hfails] at h
                  obtain ⟨hslot, hsame, htaken, m, hm⟩ := htake h hst
                  exact .shifted m inp hhead hfull (not_le.mp hzero) htaken hslot hsame hm
      · obtain ⟨hslot, hsame, htaken, m, hm⟩ := htake h hst
        exact .plain m htaken hslot hsame hm

end Window

end Prismalama.Runner
