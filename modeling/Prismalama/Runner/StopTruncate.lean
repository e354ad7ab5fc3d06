import Prismalama.Lib.TSys
import Prismalama.Runner.Batch
import Prismalama.Runner.StreamedText

/-!
# The slot at a stop string (`runner/ollamarunner/runner.go`)

One sequence while its batches are set up (`forwardBatch`) and computed (the two locked sections
of `computeBatch`). Between the two sections the next batch may be set up, which may shift the
slot, or empty it and queue its inputs again. At a stop string the slot is cut to a length that is
counted from its end by the pieces that were taken back, whatever the slot holds by then.
-/

namespace Prismalama.Runner.Truncation

open Prismalama.Lib Prismalama.Runner

/-- An input, and which of the generated tokens it is, unless it belongs to the prompt. -/
structure Entry where
  input : Input
  generated : Option Nat
  deriving DecidableEq

/-- The input of a generated token. -/
def tokenEntry (i : Nat) : Entry := ⟨⟨0, 0⟩, some i⟩

structure Config where
  numCtx : Int
  batchSize : Int
  numKeep : Nat
  shift : Bool
  /-- `cache.enabled` -/
  enabled : Bool

/-- Where the batches are that can hold the sequence: `taken` tells whether the batch that is set
up does, `sampling` whether a token is sampled at the end of the batch that is computed. -/
inductive Phase
  | idle
  | ready (taken : Bool)
  | computing (sampling : Bool)
  | ahead (sampling taken : Bool)
  deriving DecidableEq

def Phase.sampling : Phase → Bool
  | .computing sampling => sampling
  | .ahead sampling _ => sampling
  | _ => false

def Phase.taken : Phase → Bool
  | .ready taken => taken
  | .ahead _ taken => taken
  | _ => false

structure State where
  seq : Responses.Sequence
  /-- `cache.Inputs` -/
  slot : List Entry
  inputs : List Entry
  pendingInputs : List Entry
  phase : Phase
  /-- the pieces that were decoded -/
  pieces : List GoString
  deriving DecidableEq

/-! ## Setting up a batch -/

def Config.window (cfg : Config) : Window Entry := ⟨Entry.input, cfg.numCtx, cfg.numKeep, cfg.shift⟩

/-- Without a cache all inputs are processed again. -/
def startSetup (cfg : Config) (batchLen : Nat) (s : State) : Setup Entry where
  slot := if cfg.enabled = true then s.slot else []
  inputs := if cfg.enabled = true then s.inputs else s.slot ++ s.inputs
  pendingInputs := s.pendingInputs
  batchLen := batchLen
  batchSize := cfg.batchSize
  taken := true
  removed := false

/-- `forwardBatch`, with `batchLen` inputs of other sequences before; `none` for an error. -/
def forwardBatch (cfg : Config) (batchLen : Nat) (fails : Bool) (s : State) : Option State :=
  let start := startSetup cfg batchLen s
  (cfg.window.setupLoop fails start.inputs start).map fun st =>
    { s with
      seq := if st.removed = true then Responses.removeSequence true .length s.seq else s.seq
      slot := st.slot
      inputs := st.inputs.drop st.pendingInputs.length
      pendingInputs := st.pendingInputs
      phase :=
        match s.phase with
        | .computing sampling => .ahead sampling st.taken
        | _ => .ready st.taken }

/-! ## Computing a batch -/

/-- The first locked section; `none` for a panic. -/
def beginCompute (cfg : Config) (taken : Bool) (s : State) : Option State :=
  if taken = false then some { s with phase := .computing false }
  else
    let s := { s with slot := s.slot ++ s.pendingInputs, pendingInputs := [] }
    if s.inputs ≠ [] then
      if cfg.enabled = false then none else some { s with phase := .computing false }
    else
      -- the placeholder of the token that will be sampled
      some { s with inputs := [tokenEntry s.pieces.length], phase := .computing true }

/-- The stop string that is found with a piece. -/
def foundStop (s : State) (piece : GoString) : Option GoString :=
  if 0 < s.seq.numPredict ∧ s.seq.numPredict ≤ s.seq.numPredicted + 1 then none
  else findStop (s.seq.pendingResponses ++ [piece]).flatten s.seq.stop

/-- The length to which the slot is cut at a stop string. -/
def tokenLen (s : State) (piece stop : GoString) : Int :=
  let pending := s.seq.pendingResponses ++ [piece]
  let truncated := truncateStop pending stop
  let tokenLen : Int := s.slot.length + 1
  let tokenLen := tokenLen - (pending.length - truncated.1.length)
  if truncated.2 = true ∨ pending.length = truncated.1.length then tokenLen - 1 else tokenLen

/-- The slot after the second section; `none` for the panic of a negative length. -/
def cutSlot (s : State) (piece : GoString) : Option (List Entry) :=
  match foundStop s piece with
  | none => some s.slot
  | some stop =>
    if tokenLen s piece stop < 0 then none else some (s.slot.take (tokenLen s piece stop).toNat)

def Phase.computed : Phase → Phase
  | .ahead _ taken => .ready taken
  | _ => .idle

/-- The second locked section; a token is `none` when it ends the sequence. -/
def endCompute (token : Option GoString) (s : State) : Option State :=
  if s.phase.sampling = false then some { s with phase := s.phase.computed }
  else
    match token with
    | none =>
      some { s with seq := Responses.computeBatch true s.seq none, phase := s.phase.computed }
    | some piece =>
      (cutSlot s piece).map fun slot =>
        { s with
          seq := Responses.computeBatch true s.seq (some piece)
          slot := slot
          pieces := s.pieces ++ [piece]
          phase := s.phase.computed }

inductive Action
  | forward (batchLen : Nat) (fails : Bool)
  | beginCompute
  | endCompute (token : Option GoString)

/-- A step of the sequence, until it is removed. A batch is set up when there is none or when the
computation of the one before has begun. -/
def act (cfg : Config) (s : State) (a : Action) : Option State :=
  if s.seq.doneReason ≠ none then none
  else
    match a, s.phase with
    | .forward batchLen fails, .idle => forwardBatch cfg batchLen fails s
    | .forward batchLen fails, .computing _ => forwardBatch cfg batchLen fails s
    | .beginCompute, .ready taken => beginCompute cfg taken s
    | .endCompute token, .computing _ => endCompute token s
    | .endCompute token, .ahead _ _ => endCompute token s
    | _, _ => none

/-- A sequence as it is put to the others: a part of the prompt is in the slot, and the batches
that are on their way do not hold it. -/
structure Starts (stop : List GoString) (numPredict : Int) (s : State) : Prop where
  seq_eq : s.seq = Responses.newSequence stop numPredict
  prompt : ∀ e ∈ s.slot ++ s.inputs, e.generated = none
  pendingInputs_eq : s.pendingInputs = []
  pieces_eq : s.pieces = []
  outside : s.phase = .idle ∨ s.phase = .ready false ∨ s.phase = .computing false ∨
    s.phase = .ahead false false

def sys (cfg : Config) (stop : List GoString) (numPredict : Int) : TSys State Action where
  init := Starts stop numPredict
  step s a s' := act cfg s a = some s'

/-! ## What is to be kept -/

/-- The text up to the end of a token was sent; nothing is asked of the prompt. -/
def Returned (pieces : List GoString) (sent : GoString) (e : Entry) : Prop :=
  ∀ i, e.generated = some i → (pieces.take (i + 1)).flatten <+: sent

/-- The slot is cut to the inputs whose text was sent. -/
structure CutRight (s : State) (piece stop : GoString) : Prop where
  nonneg : 0 ≤ tokenLen s piece stop
  le_length : tokenLen s piece stop ≤ s.slot.length
  kept_iff : ∀ (i : Nat) (e : Entry), s.slot[i]? = some e → ((i : Int) < tokenLen s piece stop ↔
    Returned (s.pieces ++ [piece])
      (Responses.computeBatch true s.seq (some piece)).responses.flatten e)

/-- The number of inputs whose text may still be taken back. -/
def awaitedLen (s : State) : Nat :=
  s.seq.pendingResponses.length + if s.phase.sampling = true then 1 else 0

/-- The next input does not fit into the context. -/
def Shifts (cfg : Config) (s : State) : Prop :=
  cfg.enabled = true ∧ ∃ inp rest, s.inputs = inp :: rest ∧
    cfg.numCtx < s.slot.length + (1 + inp.input.sameBatch)

/-- A shift keeps the inputs of pending pieces, and one that empties the slot is made for a single
input. No token is sampled for an emptied slot while pieces are pending. Pieces and stop strings
are valid text, and pieces are not empty. -/
def StepOk (cfg : Config) (s : State) : Action → Prop
  | .forward _ fails => Shifts cfg s →
      awaitedLen s ≤ s.slot.length - (cfg.numKeep + cfg.window.discard s.slot) + s.inputs.length ∧
        (fails = true → s.inputs.length ≤ 1)
  | .endCompute (some piece) =>
      (s.slot = [] → s.seq.pendingResponses = []) ∧ piece ≠ [] ∧
        (∃ rest, ValidUtf8 (s.pieces.flatten ++ piece ++ rest)) ∧
          ∀ stop ∈ s.seq.stop, ValidUtf8 stop
  | _ => True

/-! ## The invariant -/

/-- The inputs whose text may still be taken back. -/
def awaited (s : State) : List Entry :=
  (List.range' (s.pieces.length - s.seq.pendingResponses.length) (awaitedLen s)).map tokenEntry

/-- An input of the prompt or of a token before the `n`-th one. -/
def Older (n : Nat) (e : Entry) : Prop := ∀ i, e.generated = some i → i < n

/-- The inputs of the sequence, in the slot and on their way to it, end in those of the pending
pieces and of the token that is sampled. While it is sampled they are all in the slot, unless that
was emptied. -/
structure Inv (stop : List GoString) (numPredict : Int) (s : State) : Prop where
  consistent : Responses.Consistent stop numPredict s.pieces.flatten s.pieces.length s.seq
  pending : s.seq.pendingResponses <:+ s.pieces
  nonempty : ∀ p ∈ s.pieces, p ≠ []
  line : ∃ before, s.slot ++ (s.pendingInputs ++ s.inputs) = before ++ awaited s ∧
    ∀ e ∈ before, Older (s.pieces.length - s.seq.pendingResponses.length) e
  held : s.phase.sampling = true →
    s.slot = [] ∨ s.pendingInputs ++ s.inputs = [tokenEntry s.pieces.length]
  noPending : s.phase.taken = false → s.pendingInputs = []

variable {cfg : Config} {stop : List GoString} {numPredict : Int} {s s' : State}

theorem Starts.inv (h : Starts stop numPredict s) : Inv stop numPredict s := by
  have hpending : s.seq.pendingResponses = [] := by rw [h.seq_eq]; rfl
  have hsampling : s.phase.sampling = false := by
    rcases h.outside with hp | hp | hp | hp <;> rw [hp] <;> rfl
  have hawaited : awaited s = [] := by
    rw [awaited, awaitedLen, hpending, hsampling]
    rfl
  exact
    { consistent := by
        rw [h.seq_eq, h.pieces_eq]
        exact Responses.consistent_newSequence stop numPredict
      pending := by
        rw [hpending]
        exact List.nil_suffix
      nonempty := by
        rw [h.pieces_eq]
        exact fun p hp => absurd hp List.not_mem_nil
      line := by
        refine ⟨s.slot ++ s.inputs, ?_, fun e he i hi => ?_⟩
        · rw [hawaited, h.pendingInputs_eq, List.nil_append, List.append_nil]
        · rw [h.prompt e he] at hi
          cases hi
      held := by
        rw [hsampling]
        exact fun hfalse => absurd hfalse Bool.false_ne_true
      noPending := fun _ => h.pendingInputs_eq }

/-- A shift that keeps the last inputs leaves the line of inputs as it is but for older ones. -/
theorem kept_append {slot inputs before tail : List Entry} (hline : slot ++ inputs = before ++ tail)
    (hpos : 0 < cfg.window.discard slot)
    (hlen : tail.length ≤ slot.length - (cfg.numKeep + cfg.window.discard slot) + inputs.length) :
    ∃ before', cfg.window.kept slot ++ inputs = before' ++ tail ∧ ∀ e ∈ before', e ∈ before := by
  have hle : cfg.numKeep + cfg.window.discard slot ≤ slot.length := Window.discard_le hpos
  have hbefore : cfg.numKeep + cfg.window.discard slot ≤ before.length := by
    have hlength := congrArg List.length hline
    rw [List.length_append, List.length_append] at hlength
    omega
  refine ⟨before.take cfg.numKeep ++ before.drop (cfg.numKeep + cfg.window.discard slot), ?_, ?_⟩
  · have htake : slot.take cfg.numKeep = before.take cfg.numKeep := by
      have hslot : slot.take cfg.numKeep = (slot ++ inputs).take cfg.numKeep :=
        (List.take_append_of_le_length (by omega)).symm
      rw [hslot, hline, List.take_append_of_le_length (by omega)]
    have hdrop : slot.drop (cfg.numKeep + cfg.window.discard slot) ++ inputs
        = before.drop (cfg.numKeep + cfg.window.discard slot) ++ tail := by
      rw [← List.drop_append_of_le_length hle, hline, List.drop_append_of_le_length hbefore]
    show slot.take cfg.numKeep ++ slot.drop (cfg.numKeep + cfg.window.discard slot) ++ inputs = _
    rw [List.append_assoc, htake, hdrop, List.append_assoc]
  · intro e he
    rcases List.mem_append.mp he with h | h
    · exact List.mem_of_mem_take h
    · exact List.mem_of_mem_drop h

/-- What was taken and what was not are the inputs. -/
theorem take_append_drop_length (l : List Entry) (m : Nat) :
    l.take m ++ l.drop (l.take m).length = l := by
  rw [List.length_take]
  rcases Nat.le_total m l.length with h | h
  · rw [Nat.min_eq_left h, List.take_append_drop]
  · rw [Nat.min_eq_right h, List.take_of_length_le h, List.drop_length, List.append_nil]

/-- A step that decodes nothing only has to keep the line of inputs. -/
theorem Inv.move (h : Inv stop numPredict s) (hseq : s'.seq = s.seq) (hpieces : s'.pieces = s.pieces)
    (hsampling : s'.phase.sampling = s.phase.sampling)
    (hline : ∃ before, s'.slot ++ (s'.pendingInputs ++ s'.inputs) = before ++ awaited s ∧
      ∀ e ∈ before, Older (s.pieces.length - s.seq.pendingResponses.length) e)
    (hheld : s.phase.sampling = true →
      s'.slot = [] ∨ s'.pendingInputs ++ s'.inputs = [tokenEntry s.pieces.length])
    (hnoPending : s'.phase.taken = false → s'.pendingInputs = []) : Inv stop numPredict s' where
  consistent := by
    rw [hseq, hpieces]
    exact h.consistent
  pending := by
    rw [hseq, hpieces]
    exact h.pending
  nonempty := by
    rw [hpieces]
    exact h.nonempty
  line := by
    have hawaited : awaited s' = awaited s := by
      rw [awaited, awaited, awaitedLen, awaitedLen, hseq, hpieces, hsampling]
    rw [hawaited, hseq, hpieces]
    exact hline
  held := by
    rw [hsampling, hpieces]
    exact hheld
  noPending := hnoPending

theorem length_awaited (s : State) : (awaited s).length = awaitedLen s := by
  rw [awaited, List.length_map, List.length_range']

/-- Setting up a batch. -/
theorem Inv.forwardBatch (h : Inv stop numPredict s) {batchLen : Nat} {fails : Bool}
    (hphase : s.phase = .idle ∨ ∃ sampling, s.phase = .computing sampling)
    (hok : StepOk cfg s (.forward batchLen fails))
    (hs : forwardBatch cfg batchLen fails s = some s') (hrun : s'.seq.doneReason = none) :
    Inv stop numPredict s' := by
  obtain ⟨st, hst, rfl⟩ := Option.map_eq_some_iff.mp hs
  have hpending : s.pendingInputs = [] := by
    refine h.noPending ?_
    rcases hphase with hp | ⟨_, hp⟩ <;> rw [hp] <;> rfl
  have hremoved : st.removed = false := by
    cases hr : st.removed with
    | false => rfl
    | true =>
      rw [hr] at hrun
      cases hrun
  obtain ⟨before, hline, holder⟩ := h.line
  rw [hpending, List.nil_append] at hline
  have hheld := h.held
  rw [hpending, List.nil_append] at hheld
  -- without a cache the slot goes to the inputs
  have hstart : (startSetup cfg batchLen s).slot ++ (startSetup cfg batchLen s).inputs
      = s.slot ++ s.inputs := by
    rw [startSetup]
    dsimp only
    split
    · rfl
    · rfl
  have hheldStart : s.phase.sampling = true → (startSetup cfg batchLen s).slot = [] ∨
      (startSetup cfg batchLen s).inputs = [tokenEntry s.pieces.length] := by
    intro hsampling
    rw [startSetup]
    dsimp only
    split
    · exact hheld hsampling
    · exact .inl rfl
  have hshifts : 0 < cfg.window.discard (startSetup cfg batchLen s).slot →
      cfg.enabled = true ∧ (startSetup cfg batchLen s).slot = s.slot ∧
        (startSetup cfg batchLen s).inputs = s.inputs := by
    intro hpos
    by_cases henabled : cfg.enabled = true
    · exact ⟨henabled, if_pos henabled, if_pos henabled⟩
    · have hslot : (startSetup cfg batchLen s).slot = [] := if_neg henabled
      rw [hslot] at hpos
      have hle := Window.discard_le hpos
      rw [List.length_nil] at hle
      omega
  -- a shift is one that the condition speaks of
  have hkeeps : ∀ {inp : Entry}, (startSetup cfg batchLen s).inputs.head? = some inp →
      cfg.numCtx < (startSetup cfg batchLen s).slot.length + (1 + inp.input.sameBatch) →
      0 < cfg.window.discard (startSetup cfg batchLen s).slot →
      (∃ before, cfg.window.kept (startSetup cfg batchLen s).slot ++ (startSetup cfg batchLen s).inputs
          = before ++ awaited s ∧
        ∀ e ∈ before, Older (s.pieces.length - s.seq.pendingResponses.length) e) ∧
      (fails = true → (startSetup cfg batchLen s).inputs.tail = []) := by
    intro inp hinp hfull hpos
    obtain ⟨henabled, hsame, hsame'⟩ := hshifts hpos
    rw [hsame'] at hinp ⊢
    rw [hsame] at hpos hfull ⊢
    obtain ⟨rest, hrest⟩ := List.head?_eq_some_iff.mp hinp
    obtain ⟨hlen, hone⟩ := hok ⟨henabled, inp, rest, hrest, hfull⟩
    rw [← length_awaited] at hlen
    obtain ⟨before', hline', hmem⟩ := kept_append hline hpos hlen
    refine ⟨⟨before', hline', fun e he => holder e (hmem e he)⟩, fun hfails => ?_⟩
    have hle := hone hfails
    rw [hrest, List.length_cons] at hle
    rw [hrest, List.tail_cons]
    exact List.length_eq_zero_iff.mp (by omega)
  refine h.move ?_ rfl ?_ ?_ ?_ ?_
  · show (if st.removed = true then _ else s.seq) = s.seq
    rw [hremoved, if_neg Bool.false_ne_true]
  · rcases hphase with hp | ⟨_, hp⟩ <;> dsimp only <;> rw [hp] <;> rfl
  · show ∃ before, st.slot ++ (st.pendingInputs ++ st.inputs.drop st.pendingInputs.length) = _ ∧ _
    cases Window.setupLoop_taken hpending hst with
    | plain m _ hslot hinputs hm =>
      rw [hslot, hinputs, hm, take_append_drop_length, hstart]
      exact ⟨before, hline, holder⟩
    | shifted m inp hinp hfull hpos _ hslot hinputs hm =>
      rw [hslot, hinputs, hm, take_append_drop_length]
      exact (hkeeps hinp hfull hpos).1
    | emptied m inp hinp hfull hpos hfails hslot hinputs hm =>
      obtain ⟨hline', hone⟩ := hkeeps hinp hfull hpos
      rw [hslot, hinputs, hm, hone hfails, List.take_nil, List.nil_append, List.nil_append,
        List.length_nil, List.drop_zero]
      exact hline'
  · intro hsampling
    show st.slot = [] ∨ st.pendingInputs ++ st.inputs.drop st.pendingInputs.length = _
    cases Window.setupLoop_taken hpending hst with
    | plain m _ hslot hinputs hm =>
      rw [hslot, hinputs, hm, take_append_drop_length]
      exact hheldStart hsampling
    | shifted m inp _ _ hpos _ hslot hinputs hm =>
      rw [hinputs, hm, take_append_drop_length]
      refine .inr ((hheldStart hsampling).resolve_left fun hnil => ?_)
      rw [hnil] at hpos
      have hle := Window.discard_le hpos
      rw [List.length_nil] at hle
      omega
    | emptied m inp _ _ _ _ hslot _ _ => exact .inl hslot
  · intro htaken
    have hfalse : st.taken = false := by
      rcases hphase with hp | ⟨_, hp⟩
      · rw [hp] at htaken
        exact htaken
      · rw [hp] at htaken
        exact htaken
    have hnot : ¬(st.taken = (startSetup cfg batchLen s).taken ∨ st.removed = true) := by
      rw [hfalse, hremoved]
      simp [startSetup]
    show st.pendingInputs = []
    cases Window.setupLoop_taken hpending hst with
    | plain m htaken' => exact absurd htaken' hnot
    | shifted m inp _ _ _ htaken' => exact absurd htaken' hnot
    | emptied m inp hinp hfull hpos hfails hslot hinputs hm =>
      rw [hm, (hkeeps hinp hfull hpos).2 hfails, List.take_nil]

theorem pending_le (h : Inv stop numPredict s) :
    s.seq.pendingResponses.length ≤ s.pieces.length := h.pending.length_le

/-- The first section moves the inputs of the batch into the slot, and adds the placeholder when
none is left. -/
theorem Inv.beginCompute (h : Inv stop numPredict s) {taken : Bool} (hphase : s.phase = .ready taken)
    (hs : beginCompute cfg taken s = some s') : Inv stop numPredict s' := by
  obtain ⟨before, hline, holder⟩ := h.line
  have hsampling : s.phase.sampling = false := by rw [hphase]; rfl
  rw [Truncation.beginCompute] at hs
  split at hs
  · rename_i htaken
    obtain rfl := Option.some.inj hs
    refine h.move rfl rfl hsampling.symm ?_ h.held fun _ => h.noPending ?_
    · exact ⟨before, hline, holder⟩
    · rw [hphase]
      exact htaken
  · dsimp only at hs
    split at hs
    · split at hs
      · cases hs
      · obtain rfl := Option.some.inj hs
        refine h.move rfl rfl hsampling.symm ?_ ?_ fun _ => rfl
        · refine ⟨before, ?_, holder⟩
          show s.slot ++ s.pendingInputs ++ ([] ++ s.inputs) = _
          rw [List.nil_append, List.append_assoc, hline]
        · rw [hsampling]
          exact fun hfalse => absurd hfalse Bool.false_ne_true
    · rename_i hnil
      rw [not_not] at hnil
      obtain rfl := Option.some.inj hs
      rw [hnil, List.append_nil] at hline
      have hawaited : awaited { s with
          slot := s.slot ++ s.pendingInputs
          pendingInputs := []
          inputs := [tokenEntry s.pieces.length]
          phase := .computing true } = awaited s ++ [tokenEntry s.pieces.length] := by
        have hlen : s.pieces.length - s.seq.pendingResponses.length
            + s.seq.pendingResponses.length = s.pieces.length :=
          Nat.sub_add_cancel (pending_le h)
        rw [awaited, awaited, awaitedLen, awaitedLen, hsampling, if_neg Bool.false_ne_true,
          Nat.add_zero]
        show List.map _ (List.range' _ (s.seq.pendingResponses.length + 1)) = _
        rw [List.range'_concat, List.map_append, Nat.one_mul, hlen]
        rfl
      exact
        { consistent := h.consistent
          pending := h.pending
          nonempty := h.nonempty
          line := by
            refine ⟨before, ?_, holder⟩
            rw [hawaited, ← List.append_assoc before, ← hline]
            rfl
          held := fun _ => .inr rfl
          noPending := fun _ => rfl }

/-- The state before the pending pieces are looked at. -/
def addPiece (seq : Responses.Sequence) (piece : GoString) : Responses.Sequence :=
  { seq with
    numPredicted := seq.numPredicted + 1
    pendingResponses := seq.pendingResponses ++ [piece] }

/-- What `computeBatch` does with the piece. -/
theorem Inv.checked (h : Inv stop numPredict s) {piece rest : GoString}
    (hvalid : ValidUtf8 (s.pieces.flatten ++ piece ++ rest)) :
    Responses.Checked stop numPredict (s.pieces.flatten ++ piece) (s.pieces.length + 1)
      (addPiece s.seq piece) (Responses.computeBatch true s.seq (some piece)) :=
  (h.consistent.add piece).checkPending_checked hvalid

theorem foundStop_eq (h : Inv stop numPredict s) (piece : GoString) : foundStop s piece =
    if 0 < numPredict ∧ numPredict ≤ (s.pieces.length + 1 : Nat) then none
    else findStop (addPiece s.seq piece).pendingResponses.flatten stop := by
  rw [foundStop, h.consistent.numPredict_eq, h.consistent.numPredicted_eq, h.consistent.stop_eq]
  rfl

theorem sampling_computed (phase : Phase) : phase.computed.sampling = false := by
  cases phase <;> rfl

/-- The second section: the piece is pending, or all pending pieces are sent. -/
theorem Inv.endCompute (h : Inv stop numPredict s) {token : Option GoString}
    (hphase : (∃ sampling, s.phase = .computing sampling) ∨
      ∃ sampling taken, s.phase = .ahead sampling taken)
    (hok : StepOk cfg s (.endCompute token)) (hs : endCompute token s = some s')
    (hrun : s'.seq.doneReason = none) : Inv stop numPredict s' := by
  have htaken : s.phase.computed.taken = false → s.pendingInputs = [] := by
    intro hfalse
    refine h.noPending ?_
    rcases hphase with ⟨_, hp⟩ | ⟨_, _, hp⟩
    · rw [hp]
      rfl
    · rw [hp] at hfalse ⊢
      exact hfalse
  obtain ⟨before, hline, holder⟩ := h.line
  unfold Truncation.endCompute at hs
  split at hs
  · rename_i hsampling
    obtain rfl := Option.some.inj hs
    refine h.move rfl rfl ?_ ⟨before, hline, holder⟩ h.held htaken
    rw [hsampling]
    exact sampling_computed s.phase
  · rename_i hsampling
    rw [Bool.not_eq_false] at hsampling
    cases token with
    | none =>
      obtain rfl := Option.some.inj hs
      cases hrun
    | some piece =>
      obtain ⟨slot, hslot, rfl⟩ := Option.map_eq_some_iff.mp hs
      obtain ⟨-, hne, ⟨rest, hvalid⟩, -⟩ := hok
      have hfound := foundStop_eq h piece
      have hnonempty : ∀ p ∈ s.pieces ++ [piece], p ≠ [] := by
        intro p hp
        rcases List.mem_append.mp hp with hp | hp
        · exact h.nonempty p hp
        · rw [List.mem_singleton.mp hp]
          exact hne
      have hflatten : s.pieces.flatten ++ piece = (s.pieces ++ [piece]).flatten := by
        rw [List.flatten_append, List.flatten_singleton]
      have hlength : (s.pieces ++ [piece]).length = s.pieces.length + 1 := by
        rw [List.length_append, List.length_singleton]
      -- where no stop string was found the slot stays
      have hsame : foundStop s piece = none → slot = s.slot := by
        intro hnone
        rw [cutSlot, hnone] at hslot
        exact (Option.some.inj hslot).symm
      have hno : s.phase.computed.sampling = true →
          slot = [] ∨ s.pendingInputs ++ s.inputs = [tokenEntry (s.pieces ++ [piece]).length] := by
        rw [sampling_computed]
        exact fun hfalse => absurd hfalse Bool.false_ne_true
      cases h.checked hvalid with
      | limit _ heq =>
        dsimp only at hrun
        rw [heq] at hrun
        cases hrun
      | stopped _ _ _ heq =>
        dsimp only at hrun
        rw [heq] at hrun
        cases hrun
      | held hlimit hfind heq =>
        rw [if_neg hlimit, hfind] at hfound
        obtain rfl := hsame hfound
        have hconsistent := h.consistent.add piece
        rw [hflatten, ← hlength] at hconsistent
        have hpending : (addPiece s.seq piece).pendingResponses
            = s.seq.pendingResponses ++ [piece] := rfl
        have hindex : s.pieces.length + 1 - (s.seq.pendingResponses.length + 1)
            = s.pieces.length - s.seq.pendingResponses.length := Nat.add_sub_add_right _ _ _
        refine ⟨?_, ?_, hnonempty, ⟨before, ?_, ?_⟩, hno, htaken⟩
        · show Responses.Consistent _ _ _ _ (Responses.computeBatch true s.seq (some piece))
          rw [heq]
          exact hconsistent
        · show (Responses.computeBatch true s.seq (some piece)).pendingResponses <:+ _
          rw [heq, hpending]
          obtain ⟨a, ha⟩ := h.pending
          exact ⟨a, by rw [← ha, List.append_assoc]⟩
        · rw [awaited, awaitedLen]
          dsimp only
          rw [heq, hpending, sampling_computed, if_neg Bool.false_ne_true, hlength,
            List.length_append, List.length_singleton, hindex, hline, awaited, awaitedLen,
            hsampling, if_pos rfl]
        · dsimp only
          rw [heq, hpending, hlength, List.length_append, List.length_singleton, hindex]
          exact holder
      | flushed hlimit hfind _ hpending hconsistent =>
        rw [if_neg hlimit, hfind] at hfound
        obtain rfl := hsame hfound
        rw [hflatten, ← hlength] at hconsistent
        refine ⟨hconsistent, ?_, hnonempty, ⟨before ++ awaited s, ?_, ?_⟩, hno, htaken⟩
        · dsimp only
          rw [hpending]
          exact List.nil_suffix
        · refine (hline.trans (List.append_nil _).symm).trans (congrArg _ ?_)
          rw [awaited, awaitedLen]
          dsimp only
          rw [hpending, sampling_computed]
          rfl
        · dsimp only
          rw [hpending, hlength, List.length_nil, Nat.sub_zero]
          intro e he i hi
          rcases List.mem_append.mp he with he | he
          · have := holder e he i hi
            omega
          · obtain ⟨j, hj, rfl⟩ := List.mem_map.mp he
            obtain ⟨hge, hlt⟩ := List.mem_range'_1.mp hj
            have heq : j = i := Option.some.inj hi
            have hle := pending_le h
            rw [awaitedLen, if_pos hsampling] at hlt
            omega

/-! ## Runs -/

theorem Inv.act (h : Inv stop numPredict s) {a : Action} (hok : StepOk cfg s a)
    (hs : act cfg s a = some s') (hrun : s'.seq.doneReason = none) : Inv stop numPredict s' := by
  unfold Truncation.act at hs
  split at hs
  · cases hs
  · split at hs
    · next hphase => exact h.forwardBatch (.inl hphase) hok hs hrun
    · next hphase => exact h.forwardBatch (.inr ⟨_, hphase⟩) hok hs hrun
    · next hphase => exact h.beginCompute hphase hs
    · next hphase => exact h.endCompute (.inl ⟨_, hphase⟩) hok hs hrun
    · next hphase => exact h.endCompute (.inr ⟨_, _, hphase⟩) hok hs hrun
    · cases hs

/-- Until it is removed, a sequence keeps the invariant in every run whose steps meet the
condition. -/
theorem inv_invariant (cfg : Config) (stop : List GoString) (numPredict : Int) :
    ((sys cfg stop numPredict).restrict (StepOk cfg)).Invariant
      fun s => s.seq.doneReason = none → Inv stop numPredict s := by
  refine TSys.Inductive.invariant ⟨fun s hs _ => hs.inv, ?_⟩
  rintro s a s' h ⟨hok, hstep⟩ hrun
  refine (h ?_).act hok hstep hrun
  by_contra hdone
  have hnone : act cfg s a = none := if_pos hdone
  have hsome : act cfg s a = some s' := hstep
  rw [hnone] at hsome
  cases hsome

/-! ## The length at a stop string -/

/-- The context is full when the third piece is sampled, and the cache cannot be shifted: the slot
is emptied, and the three pieces of the stop string are counted back from nothing. -/
theorem not_cutRight : ¬(sys ⟨4, 8, 1, true, true⟩ [lit "abc"] 0).Invariant fun s =>
    s.seq.doneReason = none → s.phase.sampling = true → ∀ piece str,
      foundStop s piece = some str → CutRight s piece str := by
  intro h
  have hinit : (sys ⟨4, 8, 1, true, true⟩ [lit "abc"] 0).Reachable
      ⟨Responses.newSequence [lit "abc"] 0, [], [⟨⟨1, 0⟩, none⟩, ⟨⟨2, 0⟩, none⟩], [], .idle, []⟩ :=
    .init ⟨rfl, by simp, rfl, rfl, .inl rfl⟩
  have hreach := TSys.Reachable.run_partial (fun _ _ _ hstep => hstep) hinit
    [.forward 0 false, .beginCompute, .forward 0 false, .endCompute (some (lit "a")),
      .beginCompute, .forward 0 false, .endCompute (some (lit "b")), .beginCompute,
      .forward 0 true]
    (show List.foldlM (act _) _ _ = some ⟨⟨[lit "a", lit "b"], [], 0, 2, [lit "abc"], none⟩, [],
      [⟨⟨1, 0⟩, none⟩, tokenEntry 0, tokenEntry 1, tokenEntry 2], [], .ahead true false,
      [lit "a", lit "b"]⟩ by decide)
  have hright := h _ hreach rfl rfl (lit "c") (lit "abc") (by decide)
  exact absurd hright.nonneg (by decide)

end Prismalama.Runner.Truncation
