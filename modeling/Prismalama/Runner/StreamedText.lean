import Prismalama.Runner.Stop

/-!
# The text that is sent (`runner/ollamarunner/runner.go`)

What `computeBatch` does with a sampled token of one sequence: its piece is put to the pending
ones, and they are sent unless they end in what may become a stop string or a character. The
sequence is removed at an end of sequence, at the limit of tokens or at a stop string, and then
the pending pieces are sent as far as they are valid. The limit is looked at before the stop
strings, and of several stop strings the first in the list is taken, not the earliest in the
text. Log probabilities and the inputs of the slot do not change the text and are left out.
-/

namespace Prismalama.Runner.Responses

open Prismalama.Lib Prismalama.Runner

inductive DoneReason
  | stop
  | length
  | connectionClosed
  deriving DecidableEq

structure Sequence where
  pendingResponses : List GoString
  /-- the contents that were sent over the channel -/
  responses : List GoString
  numPredict : Int
  numPredicted : Int
  stop : List GoString
  /-- why the sequence was removed -/
  doneReason : Option DoneReason
  deriving DecidableEq

/-- The loop that cuts off the last byte until the string is valid. -/
def trimInvalid (joined : GoString) : Nat → GoString
  | 0 => []
  | n + 1 =>
    if validString (joined.take (n + 1)) = true then joined.take (n + 1) else trimInvalid joined n

/-- `flushPending`; the channel takes the response, or the connection was closed. -/
def flushPending (accepted : Bool) (seq : Sequence) : Sequence × Bool :=
  let joined := trimInvalid seq.pendingResponses.flatten seq.pendingResponses.flatten.length
  let seq := { seq with pendingResponses := [] }
  if joined = [] then (seq, true)
  else if accepted = true then ({ seq with responses := seq.responses ++ [joined] }, true)
  else (seq, false)

def removeSequence (accepted : Bool) (reason : DoneReason) (seq : Sequence) : Sequence :=
  { (flushPending accepted seq).1 with doneReason := some reason }

/-- What becomes of the pending pieces, from the check of the limit on. -/
def checkPending (accepted : Bool) (seq : Sequence) : Sequence :=
  if 0 < seq.numPredict ∧ seq.numPredict ≤ seq.numPredicted then
    removeSequence accepted .length seq
  else
    let sequence := seq.pendingResponses.flatten
    match findStop sequence seq.stop with
    | some stop =>
      removeSequence accepted .stop
        { seq with pendingResponses := (truncateStop seq.pendingResponses stop).1 }
    | none =>
      if containsStopSuffix sequence seq.stop = true then seq
      else if incompleteUnicode sequence = true then seq
      else
        let flushed := flushPending accepted seq
        if flushed.2 = true then flushed.1
        else removeSequence accepted .connectionClosed flushed.1

/-- `computeBatch` from the sampled token on; `none` is an end of sequence. -/
def computeBatch (accepted : Bool) (seq : Sequence) (token : Option GoString) : Sequence :=
  let seq := { seq with numPredicted := seq.numPredicted + 1 }
  match token with
  | none => removeSequence accepted .stop seq
  | some piece =>
    checkPending accepted { seq with pendingResponses := seq.pendingResponses ++ [piece] }

/-- How a sequence ends when its pieces do not end it: the end of sequence is sampled, or
`forwardBatch` finds the context full. -/
inductive Ending
  | eos
  | contextFull

def finish (seq : Sequence) : Ending → Sequence
  | .eos => computeBatch true seq none
  | .contextFull => removeSequence true .length seq

/-- Every response is accepted; a sequence that was removed samples no more. -/
def run (fin : Ending) : List GoString → Sequence → Sequence
  | [], seq => finish seq fin
  | piece :: pieces, seq =>
    let seq := computeBatch true seq (some piece)
    if seq.doneReason = none then run fin pieces seq else seq

/-- The pieces that are decoded before the sequence is removed. -/
def decoded : List GoString → Sequence → List GoString
  | [], _ => []
  | piece :: pieces, seq =>
    let seq := computeBatch true seq (some piece)
    piece :: if seq.doneReason = none then decoded pieces seq else []

/-- A sequence that has generated nothing. -/
def newSequence (stop : List GoString) (numPredict : Int) : Sequence :=
  ⟨[], [], numPredict, 0, stop, none⟩

/-! ## What is promised of the text -/

/-- The text before the earliest stop string, but for an incomplete character at its end. -/
def Streamed (stop : List GoString) (text sent : GoString) : Prop :=
  (∃ t, Beginning t ∧ cutText stop text = sent ++ t) ∧ ∀ s ∈ stop, ¬s <:+: sent

/-- A stop string is complete with this many pieces, and none is with fewer. -/
def CompletesStop (stop pieces : List GoString) (k : Nat) : Prop :=
  k ≤ pieces.length ∧ (∃ s ∈ stop, s <:+: (pieces.take k).flatten) ∧
    ∀ j < k, ∀ s ∈ stop, ¬s <:+: (pieces.take j).flatten

/-- Where the text is cut when a stop string is complete with the `k`-th piece: nowhere at the
limit, and else before the first stop string in the list that occurs. -/
def cutAt (stop : List GoString) (numPredict : Int) (k : Nat) (text : GoString) : Nat :=
  if numPredict = k then text.length
  else ((findStop text stop).bind (index text)).getD text.length

/-- When a stop string is complete, no character ends behind the start of one and before the
place where the text is cut. -/
def CutsAtEarliest (stop : List GoString) (numPredict : Int) (pieces : List GoString) : Prop :=
  ∀ k, CompletesStop stop pieces k → (0 < numPredict → (k : Int) ≤ numPredict) →
    ∀ s ∈ stop, ∀ m, index (pieces.take k).flatten s = some m →
      ∀ b, m < b → b ≤ cutAt stop numPredict k (pieces.take k).flatten →
        ¬ValidUtf8 ((pieces.take k).flatten.take b)

/-! ## Flushing -/

/-- The longest valid beginning that is not longer than `n`. -/
theorem trimInvalid_spec (joined : GoString) (n : Nat) :
    ∃ b ≤ n, trimInvalid joined n = joined.take b ∧ ValidUtf8 (joined.take b) ∧
      ∀ b', b < b' → b' ≤ n → ¬ValidUtf8 (joined.take b') := by
  induction n with
  | zero => exact ⟨0, le_refl 0, rfl, ⟨[], rfl⟩, fun b' h h' => by omega⟩
  | succ n ih =>
    rw [trimInvalid]
    split
    · rename_i hvalid
      exact ⟨n + 1, le_refl _, rfl, validString_iff.mp hvalid, fun b' h h' => by omega⟩
    · rename_i hinvalid
      obtain ⟨b, hb, htrim, hvalid, hlongest⟩ := ih
      refine ⟨b, hb.trans n.le_succ, htrim, hvalid, fun b' h h' => ?_⟩
      rcases Nat.lt_or_ge n b' with hlt | hge
      · rw [show b' = n + 1 by omega]
        exact fun hv => hinvalid (validString_iff.mpr hv)
      · exact hlongest b' h hge

/-- An incomplete character is what is cut off. -/
theorem trimInvalid_append {v p : GoString} (hv : ValidUtf8 v) (hp : Beginning p) :
    trimInvalid (v ++ p) (v ++ p).length = v := by
  obtain ⟨b, hb, htrim, hvalid, hlongest⟩ := trimInvalid_spec (v ++ p) (v ++ p).length
  have hle : b ≤ v.length := hp.le_length_of_valid hv hb hvalid
  rcases Nat.eq_or_lt_of_le hle with heq | hlt
  · rw [htrim, heq, List.take_left]
  · refine absurd ?_ (hlongest v.length hlt (by rw [List.length_append]; omega))
    rwa [List.take_left]

/-- What is sent of the pending pieces follows what was sent before. -/
theorem responses_flushPending (seq : Sequence) :
    (flushPending true seq).1.responses.flatten = seq.responses.flatten ++
      trimInvalid seq.pendingResponses.flatten seq.pendingResponses.flatten.length := by
  rw [flushPending]
  simp only
  split
  · rename_i hnil
    rw [hnil, List.append_nil]
  · simp

theorem responses_removeSequence (reason : DoneReason) (seq : Sequence) :
    (removeSequence true reason seq).responses.flatten = seq.responses.flatten ++
      trimInvalid seq.pendingResponses.flatten seq.pendingResponses.flatten.length :=
  responses_flushPending seq

/-- The channel takes everything that can be sent. -/
theorem flushPending_accepted (seq : Sequence) :
    (flushPending true seq).2 = true ∧ (flushPending true seq).1 =
      { seq with
        pendingResponses := []
        responses := (flushPending true seq).1.responses } := by
  rw [flushPending]
  simp only
  split <;> exact ⟨rfl, rfl⟩

/-- The text up to a place was sent, but for an incomplete character at its end. -/
def Kept (text : GoString) (e : Nat) (sent : GoString) : Prop :=
  ∃ t, Beginning t ∧ ValidUtf8 sent ∧ text.take e = sent ++ t

/-- Pieces that follow what was sent are sent, but for an incomplete character. -/
theorem exists_kept {sent pending rest : GoString} (hsent : ValidUtf8 sent)
    (hvalid : ValidUtf8 (sent ++ pending ++ rest)) :
    ∃ t, Beginning t ∧ ValidUtf8 (sent ++ trimInvalid pending pending.length) ∧
      sent ++ pending = sent ++ trimInvalid pending pending.length ++ t := by
  rw [List.append_assoc] at hvalid
  obtain ⟨v, p, hpending, hv, hp⟩ := (hvalid.of_append_right hsent).of_append
  refine ⟨p, hp, ?_, ?_⟩
  · rw [hpending, trimInvalid_append hv hp]
    exact hsent.append hv
  · rw [hpending, trimInvalid_append hv hp, List.append_assoc]

/-! ## One token -/

/-- What was decoded is sent or pending. -/
structure Consistent (stop : List GoString) (numPredict : Int) (text : GoString) (n : Nat)
    (seq : Sequence) : Prop where
  stop_eq : seq.stop = stop
  numPredict_eq : seq.numPredict = numPredict
  numPredicted_eq : seq.numPredicted = n
  doneReason_eq : seq.doneReason = none
  text_eq : seq.responses.flatten ++ seq.pendingResponses.flatten = text
  valid : ValidUtf8 seq.responses.flatten

/-- What becomes of the pending pieces: they are cut short, kept back or sent. -/
inductive Checked (stop : List GoString) (numPredict : Int) (text : GoString) (n : Nat)
    (seq seq' : Sequence) : Prop
  | limit (hlimit : 0 < numPredict ∧ numPredict ≤ n)
      (heq : seq' = removeSequence true .length seq)
  | stopped (hlimit : ¬(0 < numPredict ∧ numPredict ≤ n)) (s : GoString)
      (hfind : findStop seq.pendingResponses.flatten stop = some s)
      (heq : seq' = removeSequence true .stop
        { seq with pendingResponses := (truncateStop seq.pendingResponses s).1 })
  | held (hlimit : ¬(0 < numPredict ∧ numPredict ≤ n))
      (hfind : findStop seq.pendingResponses.flatten stop = none) (heq : seq' = seq)
  | flushed (hlimit : ¬(0 < numPredict ∧ numPredict ≤ n))
      (hfind : findStop seq.pendingResponses.flatten stop = none)
      (hsuffix : containsStopSuffix seq.pendingResponses.flatten stop = false)
      (hpending : seq'.pendingResponses = []) (h : Consistent stop numPredict text n seq')

/-- Neither the limit nor a stop string has been reached, and no stop string starts in what was
sent. -/
structure Running (stop : List GoString) (numPredict : Int) (text : GoString) (n : Nat)
    (seq : Sequence) : Prop extends Consistent stop numPredict text n seq where
  below_limit : 0 < numPredict → (n : Int) < numPredict
  apart : Apart stop seq.responses.flatten
  free : ∀ s ∈ stop, ¬s <:+: text

/-- How a sequence is left by a piece. -/
inductive Decoded (stop : List GoString) (numPredict : Int) (text : GoString) (n : Nat)
    (seq : Sequence) : Prop
  | limit (hlimit : numPredict = n) (hdone : seq.doneReason ≠ none)
      (hkept : Kept text text.length seq.responses.flatten)
  | stopped (hlimit : 0 < numPredict → (n : Int) < numPredict) (hdone : seq.doneReason ≠ none)
      (s : GoString) (e : Nat) (hfind : findStop text stop = some s) (he : index text s = some e)
      (hkept : Kept text e seq.responses.flatten)
  | running (h : Running stop numPredict text n seq)

variable {stop : List GoString} {numPredict : Int} {text : GoString} {n : Nat} {seq : Sequence}

theorem consistent_newSequence (stop : List GoString) (numPredict : Int) :
    Consistent stop numPredict [] 0 (newSequence stop numPredict) where
  stop_eq := rfl
  numPredict_eq := rfl
  numPredicted_eq := rfl
  doneReason_eq := rfl
  text_eq := rfl
  valid := ⟨[], rfl⟩

theorem running_newSequence (hstop : ∀ s ∈ stop, s ≠ []) (numPredict : Int) :
    Running stop numPredict [] 0 (newSequence stop numPredict) where
  toConsistent := consistent_newSequence stop numPredict
  below_limit h := h
  apart := apart_nil
  free s hs hin := hstop s hs (List.infix_nil.mp hin)

/-- Another piece is pending. -/
theorem Consistent.add (h : Consistent stop numPredict text n seq) (piece : GoString) :
    Consistent stop numPredict (text ++ piece) (n + 1)
      { seq with
        numPredicted := seq.numPredicted + 1
        pendingResponses := seq.pendingResponses ++ [piece] } where
  stop_eq := h.stop_eq
  numPredict_eq := h.numPredict_eq
  numPredicted_eq := by
    show seq.numPredicted + 1 = _
    rw [h.numPredicted_eq]
    rfl
  doneReason_eq := h.doneReason_eq
  text_eq := by
    show seq.responses.flatten ++ (seq.pendingResponses ++ [piece]).flatten = _
    rw [List.flatten_append, List.flatten_singleton, ← List.append_assoc, h.text_eq]
  valid := h.valid

/-- A sequence that is removed with its pending pieces has sent all of the text. -/
theorem Consistent.removeSequence_kept (h : Consistent stop numPredict text n seq)
    {rest : GoString} (hvalid : ValidUtf8 (text ++ rest)) (reason : DoneReason) :
    Kept text text.length (removeSequence true reason seq).responses.flatten := by
  rw [← h.text_eq] at hvalid ⊢
  obtain ⟨t, ht, hsent, heq⟩ := exists_kept h.valid hvalid
  rw [responses_removeSequence]
  exact ⟨t, ht, hsent, by rw [List.take_length]; exact heq⟩

theorem Consistent.finish_kept (h : Consistent stop numPredict text n seq) {rest : GoString}
    (hvalid : ValidUtf8 (text ++ rest)) (fin : Ending) :
    Kept text text.length (finish seq fin).responses.flatten := by
  cases fin with
  | contextFull => exact h.removeSequence_kept hvalid .length
  | eos =>
    -- the token is counted, which leaves the text
    have hcount : seq.numPredicted + 1 = (n + 1 : Nat) := by
      rw [h.numPredicted_eq]
      rfl
    have hcounted : Consistent stop numPredict text (n + 1)
        { seq with numPredicted := seq.numPredicted + 1 } :=
      { h with numPredicted_eq := hcount }
    exact hcounted.removeSequence_kept hvalid .stop

/-- What is sent ends before the stop string that was found in the pending pieces. -/
theorem Consistent.truncate_kept (h : Consistent stop numPredict text n seq) {rest s : GoString}
    {i : Nat} (hvalid : ValidUtf8 (text ++ rest))
    (hi : index seq.pendingResponses.flatten s = some i) :
    Kept text (seq.responses.flatten.length + i)
      (removeSequence true .stop { seq with
        pendingResponses := (truncateStop seq.pendingResponses s).1 }).responses.flatten := by
  have htake : text.take (seq.responses.flatten.length + i)
      = seq.responses.flatten ++ seq.pendingResponses.flatten.take i := by
    rw [← h.text_eq, List.take_length_add_append]
  have hcut : ValidUtf8 (seq.responses.flatten ++ seq.pendingResponses.flatten.take i
      ++ (seq.pendingResponses.flatten.drop i ++ rest)) := by
    rw [List.append_assoc, ← List.append_assoc (List.take i _), List.take_append_drop,
      ← List.append_assoc, h.text_eq]
    exact hvalid
  obtain ⟨t, ht, hsent, heq⟩ := exists_kept h.valid hcut
  rw [responses_removeSequence, flatten_truncateStop hi]
  exact ⟨t, ht, hsent, htake.trans heq⟩

/-- Pending pieces that end in no beginning of a character are sent as they are. -/
theorem Consistent.flush (h : Consistent stop numPredict text n seq) {rest : GoString}
    (hvalid : ValidUtf8 (text ++ rest))
    (hcomplete : incompleteUnicode seq.pendingResponses.flatten = false) :
    Consistent stop numPredict text n (flushPending true seq).1 := by
  have hpending : ValidUtf8 seq.pendingResponses.flatten := by
    rw [← h.text_eq, List.append_assoc] at hvalid
    obtain ⟨v, p, hvp, hv, hp⟩ := (hvalid.of_append_right h.valid).of_append
    rcases eq_or_ne p [] with rfl | hne
    · rwa [hvp, List.append_nil]
    · rw [hvp, incompleteUnicode_of_beginning hp hne] at hcomplete
      cases hcomplete
  have htrim := trimInvalid_append hpending beginning_nil
  rw [List.append_nil] at htrim
  have hsent := responses_flushPending seq
  rw [htrim, h.text_eq] at hsent
  have hrest := (flushPending_accepted seq).2
  exact
    { stop_eq := by rw [hrest]; exact h.stop_eq
      numPredict_eq := by rw [hrest]; exact h.numPredict_eq
      numPredicted_eq := by rw [hrest]; exact h.numPredicted_eq
      doneReason_eq := by rw [hrest]; exact h.doneReason_eq
      text_eq := by
        rw [hsent, hrest]
        exact List.append_nil text
      valid := by
        rw [hsent, ← h.text_eq]
        exact h.valid.append hpending }

theorem Consistent.checkPending_checked (h : Consistent stop numPredict text n seq)
    {rest : GoString} (hvalid : ValidUtf8 (text ++ rest)) :
    Checked stop numPredict text n seq (checkPending true seq) := by
  rw [checkPending]
  split
  · rename_i hlimit
    rw [h.numPredict_eq, h.numPredicted_eq] at hlimit
    exact .limit hlimit rfl
  · rename_i hlimit
    rw [h.numPredict_eq, h.numPredicted_eq] at hlimit
    dsimp only
    split
    · rename_i s hfind
      rw [h.stop_eq] at hfind
      exact .stopped hlimit s hfind rfl
    · rename_i hfind
      rw [h.stop_eq] at hfind
      split
      · exact .held hlimit hfind rfl
      · rename_i hsuffix
        rw [h.stop_eq] at hsuffix
        split
        · exact .held hlimit hfind rfl
        · rename_i hcomplete
          rw [if_pos (flushPending_accepted seq).1]
          refine .flushed hlimit hfind (Bool.eq_false_of_not_eq_true hsuffix) ?_
            (h.flush hvalid (Bool.eq_false_of_not_eq_true hcomplete))
          rw [(flushPending_accepted seq).2]

/-- The same for a sequence that was running before the piece. -/
theorem Consistent.checkPending_decoded (h : Consistent stop numPredict text n seq)
    (hapart : Apart stop seq.responses.flatten) {rest : GoString}
    (hvalid : ValidUtf8 (text ++ rest)) (hle : 0 < numPredict → (n : Int) ≤ numPredict) :
    Decoded stop numPredict text n (checkPending true seq) := by
  have hbelow : ¬(0 < numPredict ∧ numPredict ≤ n) → 0 < numPredict → (n : Int) < numPredict :=
    fun hlimit hpos => not_le.mp fun hge => hlimit ⟨hpos, hge⟩
  have hsame : findStop text stop = findStop seq.pendingResponses.flatten stop := by
    rw [← h.text_eq, findStop_append hapart]
  cases h.checkPending_checked hvalid with
  | limit hlimit heq =>
    rw [heq]
    refine .limit (le_antisymm hlimit.2 (hle hlimit.1)) (Option.some_ne_none _) ?_
    exact h.removeSequence_kept hvalid .length
  | stopped hlimit s hfind heq =>
    obtain ⟨hmem, hin⟩ := of_findStop hfind
    obtain ⟨i, hi⟩ := Option.isSome_iff_exists.mp (contains_iff_occurs.mpr hin)
    have he : index text s = some (seq.responses.flatten.length + i) := by
      rw [← h.text_eq, hapart.index_append hmem, hi]
      rfl
    rw [heq]
    exact .stopped (hbelow hlimit) (Option.some_ne_none _) s _ (hsame.trans hfind) he
      (h.truncate_kept hvalid hi)
  | held hlimit hfind heq =>
    rw [heq]
    exact .running { h with
      below_limit := hbelow hlimit
      apart := hapart
      free := findStop_eq_none_iff.mp (hsame.trans hfind) }
  | flushed hlimit hfind hsuffix hpending hflushed =>
    have hsent := hflushed.text_eq
    rw [hpending, List.flatten_nil, List.append_nil] at hsent
    refine .running { hflushed with
      below_limit := hbelow hlimit
      apart := ?_
      free := findStop_eq_none_iff.mp (hsame.trans hfind) }
    rw [hsent, ← h.text_eq]
    exact hapart.append (findStop_eq_none_iff.mp hfind) (not_starts_of_containsStopSuffix hsuffix)

theorem Running.computeBatch_decoded (h : Running stop numPredict text n seq)
    {piece rest : GoString} (hvalid : ValidUtf8 (text ++ piece ++ rest)) :
    Decoded stop numPredict (text ++ piece) (n + 1) (computeBatch true seq (some piece)) :=
  (h.add piece).checkPending_decoded h.apart hvalid fun hpos => by
    have := h.below_limit hpos
    omega

/-! ## The whole run -/

theorem flatten_take_starts (pieces : List GoString) {j k : Nat} (h : j ≤ k) :
    (pieces.take j).flatten <+: (pieces.take k).flatten := by
  obtain ⟨rest, hrest⟩ := List.take_prefix_take_left (l := pieces) h
  rw [← hrest, List.flatten_append]
  exact List.prefix_append _ _

/-- How the sequence ends: the pieces that were decoded hold no stop string and all of them was
sent, or the last of them completes one. -/
inductive Outcome (stop : List GoString) (numPredict : Int) (pieces dec : List GoString)
    (sent : GoString) : Prop
  | free (k : Nat) (hdec : dec = pieces.take k)
      (hend : k = pieces.length ∨ 0 < numPredict ∧ numPredict = k)
      (hfree : ∀ s ∈ stop, ¬s <:+: (pieces.take k).flatten)
      (hkept : Kept (pieces.take k).flatten (pieces.take k).flatten.length sent)
  | cut (k : Nat) (hdec : dec = pieces.take k) (hk : CompletesStop stop pieces k)
      (hlimit : 0 < numPredict → (k : Int) ≤ numPredict)
      (hkept : Kept (pieces.take k).flatten
        (cutAt stop numPredict k (pieces.take k).flatten) sent)

/-- A piece that ends the sequence. -/
theorem Decoded.outcome {before rest : List GoString} {piece : GoString}
    (h : Decoded stop numPredict (before ++ [piece]).flatten (before.length + 1) seq)
    (hdone : seq.doneReason ≠ none) (hfree : ∀ s ∈ stop, ¬s <:+: before.flatten) :
    Outcome stop numPredict (before ++ piece :: rest) (before ++ [piece])
      seq.responses.flatten := by
  have htake : (before ++ piece :: rest).take (before.length + 1) = before ++ [piece] := by
    have hlen : before.length + 1 = (before ++ [piece]).length := by simp
    rw [List.append_cons, hlen, List.take_left]
  have hcompletes : (∃ s ∈ stop, s <:+: (before ++ [piece]).flatten) →
      CompletesStop stop (before ++ piece :: rest) (before.length + 1) := by
    intro hex
    refine ⟨?_, by rwa [htake], fun j hj s hs hin => hfree s hs ?_⟩
    · simp
    · have hstarts := flatten_take_starts (before ++ piece :: rest) (Nat.le_of_lt_succ hj)
      rw [List.take_left] at hstarts
      exact hin.trans hstarts.isInfix
  cases h with
  | limit hlimit _ hkept =>
    by_cases hex : ∃ s ∈ stop, s <:+: (before ++ [piece]).flatten
    · refine .cut (before.length + 1) htake.symm (hcompletes hex) (fun _ => hlimit.ge) ?_
      rwa [htake, cutAt, if_pos hlimit]
    · refine .free (before.length + 1) htake.symm (.inr ⟨by omega, hlimit⟩) ?_ (by rwa [htake])
      rw [htake]
      exact fun s hs hin => hex ⟨s, hs, hin⟩
  | stopped hlimit _ s e hfind he hkept =>
    have hne : numPredict ≠ (before.length + 1 : Nat) := by
      intro heq
      have := hlimit (by omega)
      omega
    refine .cut (before.length + 1) htake.symm (hcompletes ⟨s, of_findStop hfind⟩)
      (fun hpos => (hlimit hpos).le) ?_
    rw [htake, cutAt, if_neg hne, hfind]
    show Kept _ ((index (before ++ [piece]).flatten s).getD _) _
    rwa [he]
  | running hrunning => exact absurd hrunning.doneReason_eq hdone

/-- Every run ends in one of the two ways. -/
theorem Running.outcome {before : List GoString} (fin : Ending) (rest : List GoString)
    (h : Running stop numPredict before.flatten before.length seq)
    (hvalid : ValidUtf8 (before ++ rest).flatten) :
    Outcome stop numPredict (before ++ rest) (before ++ decoded rest seq)
      (run fin rest seq).responses.flatten := by
  induction rest generalizing before seq with
  | nil =>
    rw [List.append_nil] at hvalid
    have htake : (before ++ []).take before.length = before := List.take_left
    refine .free before.length ?_ (.inl (by rw [List.append_nil])) ?_ ?_
    · rw [htake]
      exact List.append_nil before
    · rw [htake]
      exact h.free
    · rw [htake]
      exact h.finish_kept (by rwa [List.append_nil]) fin
  | cons piece rest ih =>
    have hpart : ValidUtf8 (before.flatten ++ piece ++ rest.flatten) := by
      rw [List.append_assoc, ← List.flatten_cons, ← List.flatten_append]
      exact hvalid
    have hdecoded := h.computeBatch_decoded hpart
    have hflat : before.flatten ++ piece = (before ++ [piece]).flatten := by
      rw [List.flatten_append, List.flatten_singleton]
    rw [hflat] at hdecoded
    rw [run, decoded]
    by_cases hdone : (computeBatch true seq (some piece)).doneReason = none
    · rw [if_pos hdone, if_pos hdone]
      cases hdecoded with
      | limit _ hdone' _ => exact absurd hdone hdone'
      | stopped _ hdone' => exact absurd hdone hdone'
      | running hrunning =>
        rw [List.append_cons] at hvalid ⊢
        rw [List.append_cons before piece (decoded rest _)]
        have hlen : (before ++ [piece]).length = before.length + 1 := by simp
        refine ih ?_ hvalid
        rw [hlen]
        exact hrunning
    · rw [if_neg hdone, if_neg hdone]
      exact hdecoded.outcome hdone h.free

/-! ## What is sent of the text -/

/-- A text without stop strings is sent. -/
theorem Kept.streamed_of_free {sent : GoString} (h : Kept text text.length sent)
    (hfree : ∀ s ∈ stop, ¬s <:+: text) : Streamed stop text sent := by
  obtain ⟨t, ht, -, heq⟩ := h
  rw [List.take_length] at heq
  refine ⟨⟨t, ht, by rw [cutText_of_free hfree, heq]⟩, fun s hs hin => hfree s hs ?_⟩
  rw [heq]
  exact hin.trans (List.prefix_append sent t).isInfix

/-- A text that is cut where a stop string starts, or nowhere, is cut at the earliest one exactly
if no character ends between the two. -/
theorem Kept.streamed_iff {sent : GoString} {e : Nat} (h : Kept text e sent)
    (hstop : ∀ s ∈ stop, s ≠ []) (hin : ∃ s ∈ stop, s <:+: text) (he : e ≤ text.length)
    (hstart : e = text.length ∨ ∃ s ∈ stop, s <+: text.drop e) :
    Streamed stop text sent ↔ ∀ s ∈ stop, ∀ m, index text s = some m →
      ∀ b, m < b → b ≤ e → ¬ValidUtf8 (text.take b) := by
  obtain ⟨t, ht, hvalid, heq⟩ := h
  obtain ⟨m, hm, hstarts, hleast⟩ := exists_earliest hin
  have hcut : cutText stop text = text.take m := cutText_eq_take hm hstarts hleast
  have hme : m ≤ e := by
    rcases hstart with rfl | ⟨s, hs, hpre⟩
    · exact hm
    · exact not_lt.mp fun hlt => hleast e hlt s hs hpre
  have htake : ∀ b ≤ e, text.take b = (sent ++ t).take b := by
    intro b hb
    rw [← heq, List.take_take, Nat.min_eq_left hb]
  have hlen : (sent ++ t).length = e := by rw [← heq, List.length_take, Nat.min_eq_left he]
  rw [List.length_append] at hlen
  constructor
  · rintro ⟨⟨t', -, hsent⟩, -⟩ s hs m' hindex b hb hbe hvalidb
    obtain ⟨-, hpre, -⟩ := index_eq_some_iff.mp hindex
    have hmm : m ≤ m' := not_lt.mp fun hlt => hleast m' hlt s hs hpre
    rw [htake b hbe] at hvalidb
    have hbs := ht.le_length_of_valid hvalid (by rw [List.length_append]; omega) hvalidb
    have hsentlen := congrArg List.length (hcut.symm.trans hsent)
    rw [List.length_take, List.length_append] at hsentlen
    omega
  · intro hends
    obtain ⟨s, hs, hpre⟩ := hstarts
    have hindex : index text s = some m :=
      index_eq_some_iff.mpr ⟨hm, hpre, fun j hj => hleast j hj s hs⟩
    have hle : sent.length ≤ m := by
      by_contra hlt
      refine hends s hs m hindex sent.length (not_le.mp hlt) (by omega) ?_
      rwa [htake _ (by omega), List.take_left]
    have hsent : cutText stop text = sent ++ t.take (m - sent.length) := by
      rw [hcut, htake m hme, List.take_append, List.take_of_length_le hle]
    refine ⟨⟨_, ?_, hsent⟩, fun s hs hin => ?_⟩
    · exact Beginning.of_append (q := t.drop (m - sent.length)) (by rwa [List.take_append_drop])
    · refine not_infix_cutText hstop text s hs ?_
      rw [hsent]
      exact hin.trans (List.prefix_append sent _).isInfix

/-- The text is cut nowhere or where a stop string starts. -/
theorem cutAt_spec (stop : List GoString) (numPredict : Int) (k : Nat) (text : GoString) :
    cutAt stop numPredict k text ≤ text.length ∧ (cutAt stop numPredict k text = text.length ∨
      ∃ s ∈ stop, s <+: text.drop (cutAt stop numPredict k text)) := by
  rw [cutAt]
  split
  · exact ⟨le_refl _, .inl rfl⟩
  · cases hfind : findStop text stop with
    | none => exact ⟨le_refl _, .inl rfl⟩
    | some s =>
      cases hindex : index text s with
      | none =>
        have hnone : (some s).bind (index text) = none := hindex
        rw [hnone]
        exact ⟨le_refl _, .inl rfl⟩
      | some e =>
        have hsome : (some s).bind (index text) = some e := hindex
        obtain ⟨he, hpre, -⟩ := index_eq_some_iff.mp hindex
        rw [hsome]
        exact ⟨he, .inr ⟨s, (of_findStop hfind).1, hpre⟩⟩

theorem CompletesStop.unique {pieces : List GoString} {j k : Nat}
    (hj : CompletesStop stop pieces j) (hk : CompletesStop stop pieces k) : j = k := by
  obtain ⟨-, ⟨s, hs, hin⟩, hfree⟩ := hj
  obtain ⟨-, ⟨s', hs', hin'⟩, hfree'⟩ := hk
  refine le_antisymm (not_lt.mp fun hlt => ?_) (not_lt.mp fun hlt => ?_)
  · exact hfree k hlt s' hs' hin'
  · exact hfree' j hlt s hs hin

theorem validUtf8_take_of_starts {rest s : GoString} {m : Nat} (hvalid : ValidUtf8 (text ++ rest))
    (hs : ValidUtf8 s) (hne : s ≠ []) (hpre : s <+: text.drop m) : ValidUtf8 (text.take m) := by
  obtain ⟨t, ht⟩ := hpre
  rw [← List.take_append_drop m text, ← ht, List.append_assoc, List.append_assoc,
    ← List.append_assoc] at hvalid
  exact (hvalid.of_middle hs hne).1

/-- For valid stop strings the text has to be cut before every one of them. -/
theorem cutsAtEarliest_iff_of_valid {pieces : List GoString} (hstop : ∀ s ∈ stop, s ≠ [])
    (hstops : ∀ s ∈ stop, ValidUtf8 s) (hvalid : ValidUtf8 pieces.flatten) :
    CutsAtEarliest stop numPredict pieces ↔
      ∀ k, CompletesStop stop pieces k → (0 < numPredict → (k : Int) ≤ numPredict) →
        ∀ s ∈ stop, ∀ m, index (pieces.take k).flatten s = some m →
          cutAt stop numPredict k (pieces.take k).flatten ≤ m := by
  constructor
  · intro hends k hk hlimit s hs m hindex
    by_contra hlt
    rw [not_le] at hlt
    rw [← List.take_append_drop k pieces, List.flatten_append] at hvalid
    obtain ⟨-, hpre, -⟩ := index_eq_some_iff.mp hindex
    obtain ⟨hle, heq | ⟨s', hs', hpre'⟩⟩ :=
      cutAt_spec stop numPredict k (pieces.take k).flatten
    · -- the stop string itself ends behind its start
      have hlen := index_le hindex
      have hpos := List.length_pos_iff.mpr (hstop s hs)
      refine hends k hk hlimit s hs m hindex (m + s.length) (by omega) (by omega) ?_
      have htake : (pieces.take k).flatten.take (m + s.length)
          = (pieces.take k).flatten.take m ++ s := by
        rw [List.take_add, ← List.prefix_iff_eq_take.mp hpre]
      rw [htake]
      exact (validUtf8_take_of_starts hvalid (hstops s hs) (hstop s hs) hpre).append (hstops s hs)
    · exact hends k hk hlimit s hs m hindex _ hlt (le_refl _)
        (validUtf8_take_of_starts hvalid (hstops s' hs') (hstop s' hs') hpre')
  · intro hle k hk hlimit s hs m hindex b hb hbe
    have := hle k hk hlimit s hs m hindex
    omega

/-- The text is sent up to the earliest stop string exactly if no character ends between the
start of that one and the place where the text is cut. -/
theorem run_streamed_iff {stop : List GoString} (numPredict : Int) {pieces : List GoString}
    (fin : Ending) (hstop : ∀ s ∈ stop, s ≠ []) (hvalid : ValidUtf8 pieces.flatten) :
    Streamed stop (decoded pieces (newSequence stop numPredict)).flatten
        (run fin pieces (newSequence stop numPredict)).responses.flatten ↔
      CutsAtEarliest stop numPredict pieces := by
  have houtcome : Outcome stop numPredict ([] ++ pieces) ([] ++ decoded pieces _) _ :=
    (running_newSequence hstop numPredict).outcome fin pieces hvalid
  rw [List.nil_append, List.nil_append] at houtcome
  cases houtcome with
  | free k hdec hend hfree hkept =>
    rw [hdec]
    refine iff_of_true (hkept.streamed_of_free hfree) fun k' hk' hle => ?_
    obtain ⟨hlen, ⟨s, hs, hin⟩, -⟩ := hk'
    have hkk : k' ≤ k := by
      rcases hend with rfl | ⟨hpos, heq⟩
      · exact hlen
      · have := hle hpos
        omega
    exact absurd (hin.trans (flatten_take_starts pieces hkk).isInfix) (hfree s hs)
  | cut k hdec hk hlimit hkept =>
    obtain ⟨hle, hstart⟩ := cutAt_spec stop numPredict k (pieces.take k).flatten
    rw [hdec, hkept.streamed_iff hstop hk.2.1 hle hstart]
    constructor
    · intro hends k' hk' _
      rw [hk'.unique hk]
      exact hends
    · exact fun h => h k hk hlimit

theorem run_streamed_iff_ab : Streamed [lit "b"]
    (decoded [lit "a", lit "b"] (newSequence [lit "b"] 9)).flatten
      (run .eos [lit "a", lit "b"] (newSequence [lit "b"] 9)).responses.flatten ↔
    CutsAtEarliest [lit "b"] 9 [lit "a", lit "b"] :=
  run_streamed_iff 9 .eos (by decide) (validString_iff.mp (by decide))

/-- The first stop string in the list is later in the text than the second one, which is sent. At
the limit the stop string in the last piece is sent. -/
theorem run_not_streamed :
    ¬Streamed [lit "b", lit "a"] (decoded [lit "ab"] (newSequence [lit "b", lit "a"] 0)).flatten
        (run .eos [lit "ab"] (newSequence [lit "b", lit "a"] 0)).responses.flatten ∧
      ¬Streamed [lit "a"] (decoded [lit "a"] (newSequence [lit "a"] 1)).flatten
        (run .eos [lit "a"] (newSequence [lit "a"] 1)).responses.flatten := by
  have hfirst : (run .eos [lit "ab"] (newSequence [lit "b", lit "a"] 0)).responses.flatten
      = lit "a" := by decide
  have hsecond : (run .eos [lit "a"] (newSequence [lit "a"] 1)).responses.flatten
      = lit "a" := by decide
  constructor
  · rintro ⟨-, hfree⟩
    exact hfree (lit "a") (by decide) (by rw [hfirst])
  · rintro ⟨-, hfree⟩
    exact hfree (lit "a") (by decide) (by rw [hsecond])

end Prismalama.Runner.Responses
