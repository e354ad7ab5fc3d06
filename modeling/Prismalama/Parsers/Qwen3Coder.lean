import Prismalama.Lib.TagStream

/-!
# Qwen3-Coder tool calls in a stream (`model/parsers/qwen3coder.go`)

The parser takes tool calls out of the output of a model. Blanks before a call are kept back
until something follows them, blanks behind a call are dropped, but only those in the same
chunk. `ideal` is the parser that drops them however they arrive: what it gives does not
depend on the chunks (`ideal_append`), and the parser gives the same and perhaps blanks in
front (`run_blank`). A text is a list of runes: chunks are cut between runes.
-/

namespace Prismalama.Parsers.Qwen3Coder

open Prismalama.Lib

inductive State
  | lookingForToolStart
  | collectingToolContent
  deriving DecidableEq

def toolOpenTag : List Char := "<tool_call>".toList

def toolCloseTag : List Char := "</tool_call>".toList

structure Parser where
  state : State
  acc : List Char
  callIndex : Nat

inductive Event
  | rawToolCall (raw : List Char)
  | content (content : List Char)

/-- The content, if there is any. -/
def contentEvent (s : List Char) : List Event := if s = [] then [] else [.content s]

def trailingWhitespaceLen (s : List Char) : Nat := (s.rtakeWhile isSpace).length

/-- `eat`, and whether to go on -/
def eat (p : Parser) : Parser × List Event × Bool :=
  match p.state with
  | .lookingForToolStart =>
    match cut toolOpenTag p.acc with
    | some (before, after) =>
      ({ p with acc := after, state := .collectingToolContent }, contentEvent (trimRight before),
        true)
    | none =>
      let overlap := overlap p.acc toolOpenTag
      if 0 < overlap then
        let beforePartialTag := p.acc.take (p.acc.length - overlap)
        let ambiguousStart := beforePartialTag.length - trailingWhitespaceLen beforePartialTag
        ({ p with acc := p.acc.drop ambiguousStart }, contentEvent (p.acc.take ambiguousStart), false)
      else
        let ambiguousStart := p.acc.length - trailingWhitespaceLen p.acc
        ({ p with acc := p.acc.drop ambiguousStart }, contentEvent (p.acc.take ambiguousStart), false)
  | .collectingToolContent =>
    match cut toolCloseTag p.acc with
    | some (before, after) =>
      ({ p with acc := trimLeft after, state := .lookingForToolStart }, [.rawToolCall before], true)
    | none => (p, [], false)

theorem toolOpenTag_ne : toolOpenTag ≠ [] := by decide

theorem toolCloseTag_ne : toolCloseTag ≠ [] := by decide

theorem length_trimLeft_le (s : List Char) : (trimLeft s).length ≤ s.length :=
  (List.dropWhile_suffix isSpace).length_le

/-- With every tag the text gets shorter. -/
theorem eat_length {p : Parser} (h : (eat p).2.2 = true) :
    (eat p).1.acc.length < p.acc.length := by
  cases hstate : p.state with
  | lookingForToolStart =>
    simp only [eat, hstate] at h ⊢
    split at h
    · exact length_of_cut toolOpenTag_ne ‹_›
    · split at h <;> cases h
  | collectingToolContent =>
    simp only [eat, hstate] at h ⊢
    split at h
    · exact (length_trimLeft_le _).trans_lt (length_of_cut toolCloseTag_ne ‹_›)
    · cases h

/-- `parseEvents` -/
def parseEvents (p : Parser) : Parser × List Event :=
  if (eat p).2.2 = true then
    ((parseEvents (eat p).1).1, (eat p).2.1 ++ (parseEvents (eat p).1).2)
  else ((eat p).1, (eat p).2.1)
termination_by p.acc.length
decreasing_by all_goals exact eat_length ‹_›

variable {Call : Type}

/-- The loop over the events in `Add`: the call index behind it, and content and calls with
their indices, if every call can be parsed. -/
def collect (parseToolCall : List Char → Option Call) :
    Nat → List Event → Nat × Option (List Char × List (Call × Nat))
  | callIndex, [] => (callIndex, some ([], []))
  | callIndex, .rawToolCall raw :: events =>
    match parseToolCall raw with
    | none => (callIndex, none)
    | some call =>
      let rest := collect parseToolCall (callIndex + 1) events
      (rest.1, rest.2.map fun r => (r.1, (call, callIndex) :: r.2))
  | callIndex, .content s :: events =>
    let rest := collect parseToolCall callIndex events
    (rest.1, rest.2.map fun r => (s ++ r.1, r.2))

/-- `Add`; with an error (`none`) it returns neither content nor calls. `done` is not read. -/
def add (parseToolCall : List Char → Option Call) (p : Parser) (s : List Char) :
    Parser × Option (List Char × List (Call × Nat)) :=
  let (p, events) := parseEvents { p with acc := p.acc ++ s }
  let (callIndex, returned) := collect parseToolCall p.callIndex events
  ({ p with callIndex := callIndex }, returned)

/-- Content and calls of all chunks. -/
def addChunks (parseToolCall : List Char → Option Call) (p : Parser) (chunks : List (List Char)) :
    Parser × List Char × List (Call × Nat) :=
  runChunks (fun r r' => (r.1 ++ r'.1, r.2 ++ r'.2)) ([], [])
    (fun p s => ((add parseToolCall p s).1, (add parseToolCall p s).2.getD ([], []))) p chunks

/-- The parser after `Init`. -/
def init : Parser := ⟨.lookingForToolStart, [], 0⟩

/-! ## Content and raw calls -/

/-- The content and the raw calls of events. -/
abbrev Given := List Char × List (List Char)

def Given.append (g g' : Given) : Given := (g.1 ++ g'.1, g.2 ++ g'.2)

def given : List Event → Given
  | [] => ([], [])
  | .rawToolCall raw :: events => Given.append ([], [raw]) (given events)
  | .content s :: events => Given.append (s, []) (given events)

theorem Given.append_assoc (g g' g'' : Given) :
    (g.append g').append g'' = g.append (g'.append g'') := by
  simp only [Given.append, List.append_assoc]

theorem Given.append_empty (g : Given) : g.append ([], []) = g := by
  simp only [Given.append, List.append_nil]

theorem Given.empty_append (g : Given) : Given.append ([], []) g = g := rfl

theorem given_append (es es' : List Event) : given (es ++ es') = (given es).append (given es') := by
  induction es with
  | nil => rfl
  | cons e es ih => cases e <;> simp only [List.cons_append, given, ih, Given.append_assoc]

theorem given_contentEvent (s : List Char) : given (contentEvent s) = (s, []) := by
  rw [contentEvent]
  split
  · rename_i hnil
    rw [hnil]
    rfl
  · exact Given.append_empty _

/-- What a text without a tag gives: all but what may be the start of a tag and blanks before
it. -/
def unambiguous (s : List Char) : List Char := trimRight (sent toolOpenTag s)

def ambiguous (s : List Char) : List Char := s.drop (unambiguous s).length

theorem unambiguous_starts (s : List Char) : unambiguous s <+: s :=
  (trimRight_starts _).trans (List.take_prefix _ s)

theorem unambiguous_append_ambiguous (s : List Char) : unambiguous s ++ ambiguous s = s :=
  List.prefix_iff_eq_append.mp (unambiguous_starts s)

theorem ambiguous_eq (s : List Char) : ∃ e, Blank e ∧ ambiguous s = e ++ held toolOpenTag s ∧
    sent toolOpenTag s = unambiguous s ++ e := by
  have hsent : sent toolOpenTag s =
      unambiguous s ++ (sent toolOpenTag s).rtakeWhile isSpace :=
    (List.rdropWhile_append_rtakeWhile).symm
  have hrest : unambiguous s ++ ambiguous s =
      unambiguous s ++ ((sent toolOpenTag s).rtakeWhile isSpace ++ held toolOpenTag s) := by
    rw [unambiguous_append_ambiguous, ← List.append_assoc, ← hsent, sent_append_held]
  exact ⟨_, fun c hc => List.mem_rtakeWhile_imp hc, List.append_cancel_left hrest, hsent⟩

theorem length_unambiguous (s : List Char) : (unambiguous s).length =
    (sent toolOpenTag s).length - trailingWhitespaceLen (sent toolOpenTag s) := by
  have hsent : unambiguous s ++ (sent toolOpenTag s).rtakeWhile isSpace = sent toolOpenTag s :=
    List.rdropWhile_append_rtakeWhile
  have hlen := congrArg List.length hsent
  rw [List.length_append] at hlen
  rw [trailingWhitespaceLen]
  omega

/-! ## Runs of the parser -/

/-- A run of `parseEvents` on a text: the state, what is kept, and what is given. -/
def run (state : State) (s : List Char) : (State × List Char) × Given :=
  let r := parseEvents ⟨state, s, 0⟩
  ((r.1.state, r.1.acc), given r.2)

theorem toolOpenTag_blank : ∀ c ∈ toolOpenTag, isSpace c = false := by
  have hall : toolOpenTag.all (fun c => !isSpace c) = true := by decide
  intro c hc
  simpa using List.all_eq_true.mp hall c hc

section

variable {s a b : List Char}

theorem run_of_stop {state state' : State} {s' : List Char} {es : List Event}
    (h : eat ⟨state, s, 0⟩ = (⟨state', s', 0⟩, es, false)) :
    run state s = ((state', s'), given es) := by
  rw [run, parseEvents, h]
  rfl

theorem run_of_go {state state' : State} {s' : List Char} {es : List Event}
    (h : eat ⟨state, s, 0⟩ = (⟨state', s', 0⟩, es, true)) :
    run state s = ((run state' s').1, (given es).append (run state' s').2) := by
  rw [run, parseEvents, h, if_pos rfl, given_append]
  rfl

theorem run_open (h : cut toolOpenTag s = some (a, b)) : run .lookingForToolStart s =
    ((run .collectingToolContent b).1,
      Given.append (trimRight a, []) (run .collectingToolContent b).2) := by
  have heat : eat ⟨.lookingForToolStart, s, 0⟩ =
      (⟨.collectingToolContent, b, 0⟩, contentEvent (trimRight a), true) := by
    simp only [eat, h]
  rw [run_of_go heat, given_contentEvent]

theorem run_text (h : cut toolOpenTag s = none) : run .lookingForToolStart s =
    ((.lookingForToolStart, ambiguous s), (unambiguous s, [])) := by
  have htake : s.take (unambiguous s).length = unambiguous s :=
    (List.prefix_iff_eq_take.mp (unambiguous_starts s)).symm
  have heat : eat ⟨.lookingForToolStart, s, 0⟩ =
      (⟨.lookingForToolStart, ambiguous s, 0⟩, contentEvent (unambiguous s), false) := by
    simp only [eat, h]
    split
    · rw [← sent, ← length_unambiguous, htake, ambiguous]
    · rename_i hzero
      have hsent : sent toolOpenTag s = s := by
        rw [sent, Nat.eq_zero_of_not_pos hzero, Nat.sub_zero, List.take_length]
      have hlen := length_unambiguous s
      rw [hsent] at hlen
      rw [← hlen, htake, ambiguous]
  rw [run_of_stop heat, given_contentEvent]

theorem run_close (h : cut toolCloseTag s = some (a, b)) : run .collectingToolContent s =
    ((run .lookingForToolStart (trimLeft b)).1,
      Given.append ([], [a]) (run .lookingForToolStart (trimLeft b)).2) := by
  have heat : eat ⟨.collectingToolContent, s, 0⟩ =
      (⟨.lookingForToolStart, trimLeft b, 0⟩, [.rawToolCall a], true) := by
    simp only [eat, h]
  exact run_of_go heat

theorem run_call (h : cut toolCloseTag s = none) :
    run .collectingToolContent s = ((.collectingToolContent, s), ([], [])) := by
  have heat : eat ⟨.collectingToolContent, s, 0⟩ = (⟨.collectingToolContent, s, 0⟩, [], false) := by
    simp only [eat, h]
  exact run_of_stop heat

end

/-! ## The parser that drops all blanks behind a call -/

/-- Where a text ends: in content, in a call, or behind a call with only blanks since. -/
inductive Place
  | content
  | call
  | behind
  deriving DecidableEq

def Place.state : Place → State
  | .call => .collectingToolContent
  | _ => .lookingForToolStart

/-- Where a text ends, what of it is kept, and what it gives. -/
def ideal : Place → List Char → (Place × List Char) × Given
  | .content, s =>
    match _h : cut toolOpenTag s with
    | some (before, after) =>
      ((ideal .call after).1, Given.append (trimRight before, []) (ideal .call after).2)
    | none => ((.content, ambiguous s), (unambiguous s, []))
  | .behind, s =>
    if trimLeft s = [] then ((.behind, []), ([], [])) else ideal .content (trimLeft s)
  | .call, s =>
    match _h : cut toolCloseTag s with
    | some (raw, after) =>
      ((ideal .behind after).1, Given.append ([], [raw]) (ideal .behind after).2)
    | none => ((.call, s), ([], []))
termination_by place s => 2 * s.length + if place = .behind then 1 else 0
decreasing_by
  · have hlen := length_of_cut toolOpenTag_ne _h
    simp only [if_false]
    omega
  · have hlen := length_trimLeft_le s
    simp only [if_true, if_false]
    omega
  · have hlen := length_of_cut toolCloseTag_ne _h
    simp only [if_true, if_false]
    omega

section

variable {s a b : List Char}

theorem ideal_open (h : cut toolOpenTag s = some (a, b)) : ideal .content s =
    ((ideal .call b).1, Given.append (trimRight a, []) (ideal .call b).2) := by
  conv_lhs => rw [ideal]
  split
  · rename_i before after h'
    obtain ⟨rfl, rfl⟩ := Prod.mk.inj (Option.some.inj (h.symm.trans h'))
    rfl
  · rename_i h'
    rw [h] at h'
    cases h'

theorem ideal_text (h : cut toolOpenTag s = none) :
    ideal .content s = ((.content, ambiguous s), (unambiguous s, [])) := by
  conv_lhs => rw [ideal]
  split
  · rename_i h'
    rw [h] at h'
    cases h'
  · rfl

theorem ideal_close (h : cut toolCloseTag s = some (a, b)) : ideal .call s =
    ((ideal .behind b).1, Given.append ([], [a]) (ideal .behind b).2) := by
  conv_lhs => rw [ideal]
  split
  · rename_i before after h'
    obtain ⟨rfl, rfl⟩ := Prod.mk.inj (Option.some.inj (h.symm.trans h'))
    rfl
  · rename_i h'
    rw [h] at h'
    cases h'

theorem ideal_call (h : cut toolCloseTag s = none) : ideal .call s = ((.call, s), ([], [])) := by
  conv_lhs => rw [ideal]
  split
  · rename_i h'
    rw [h] at h'
    cases h'
  · rfl

theorem ideal_blank (h : trimLeft s = []) : ideal .behind s = ((.behind, []), ([], [])) := by
  conv_lhs => rw [ideal, if_pos h]

theorem ideal_behind (h : trimLeft s ≠ []) : ideal .behind s = ideal .content (trimLeft s) := by
  conv_lhs => rw [ideal, if_neg h]

end

/-- The text without the blanks that are dropped. -/
def front (place : Place) (s : List Char) : List Char :=
  match place with
  | .behind => trimLeft s
  | _ => s

/-- On one text the parser is the ideal one. -/
theorem run_eq_ideal (place : Place) (s : List Char) : run place.state (front place s) =
    (((ideal place s).1.1.state, (ideal place s).1.2), (ideal place s).2) := by
  fun_induction ideal place s with
  | case1 s before after h ih =>
    have hcall : run .collectingToolContent after = _ := ih
    show run .lookingForToolStart s = _
    rw [run_open h, hcall]
  | case2 s h => exact run_text h
  | case3 s h =>
    show run .lookingForToolStart (trimLeft s) = _
    rw [h]
    exact run_text rfl
  | case4 s h ih => exact ih
  | case5 s raw after h ih =>
    have hbehind : run .lookingForToolStart (trimLeft after) = _ := ih
    show run .collectingToolContent s = _
    rw [run_close h, hbehind]
  | case6 s h => exact run_call h

/-- What is kept of a text gives the same with what comes next. -/
theorem cut_ambiguous {s : List Char} (h : cut toolOpenTag s = none) (y : List Char) :
    cut toolOpenTag (s ++ y) =
      (cut toolOpenTag (ambiguous s ++ y)).map fun p => (unambiguous s ++ p.1, p.2) := by
  obtain ⟨e, -, hambiguous, hsent⟩ := ambiguous_eq s
  have hsuffix : e ++ held toolOpenTag s <:+ s :=
    hambiguous ▸ ⟨unambiguous s, unambiguous_append_ambiguous s⟩
  rw [cut_held h, hambiguous, cut_held_of_suffix h hsuffix, Option.map_map, hsent]
  simp only [Function.comp_def, List.append_assoc]

theorem held_ambiguous (s y : List Char) :
    held toolOpenTag (s ++ y) = held toolOpenTag (ambiguous s ++ y) := by
  obtain ⟨e, -, hambiguous, -⟩ := ambiguous_eq s
  have hsuffix : e ++ held toolOpenTag s <:+ s :=
    hambiguous ▸ ⟨unambiguous s, unambiguous_append_ambiguous s⟩
  rw [held_append, hambiguous, held_append toolOpenTag (e ++ held toolOpenTag s),
    held_of_suffix hsuffix]

theorem unambiguous_append (s y : List Char) :
    unambiguous (s ++ y) = unambiguous s ++ unambiguous (ambiguous s ++ y) := by
  have hsent : sent toolOpenTag (s ++ y) =
      unambiguous s ++ sent toolOpenTag (ambiguous s ++ y) := by
    have hall := sent_append_held toolOpenTag (s ++ y)
    have hrest := sent_append_held toolOpenTag (ambiguous s ++ y)
    rw [held_ambiguous] at hall
    refine List.append_cancel_right (hall.trans ?_)
    rw [List.append_assoc, hrest, ← List.append_assoc, unambiguous_append_ambiguous]
  rw [unambiguous, hsent, unambiguous, trimRight_trimRight_append]
  rfl

theorem ambiguous_append (s y : List Char) :
    ambiguous (s ++ y) = ambiguous (ambiguous s ++ y) := by
  have hall := unambiguous_append_ambiguous (s ++ y)
  have hrest := unambiguous_append_ambiguous (ambiguous s ++ y)
  rw [unambiguous_append, List.append_assoc] at hall
  have hs : s ++ y = unambiguous s ++ (ambiguous s ++ y) := by
    rw [← List.append_assoc, unambiguous_append_ambiguous]
  have hcancel := List.append_cancel_left (hall.trans hs)
  exact List.append_cancel_left (hcancel.trans hrest.symm)

/-- What the ideal parser gives does not depend on where the text was cut. -/
theorem ideal_append (place : Place) (s y : List Char) : ideal place (s ++ y) =
    ((ideal (ideal place s).1.1 ((ideal place s).1.2 ++ y)).1,
      (ideal place s).2.append (ideal (ideal place s).1.1 ((ideal place s).1.2 ++ y)).2) := by
  fun_induction ideal place s with
  | case1 s before after h ih =>
    rw [ideal_open (cut_append h y), ih, Given.append_assoc]
  | case2 s h =>
    show ideal .content (s ++ y) = ((ideal .content (ambiguous s ++ y)).1,
      Given.append (unambiguous s, []) (ideal .content (ambiguous s ++ y)).2)
    cases hrest : cut toolOpenTag (ambiguous s ++ y) with
    | some p =>
      obtain ⟨before, after⟩ := p
      have hcut : cut toolOpenTag (s ++ y) = some (unambiguous s ++ before, after) := by
        rw [cut_ambiguous h, hrest, Option.map_some]
      have htrim : trimRight (unambiguous s ++ before) = unambiguous s ++ trimRight before :=
        trimRight_trimRight_append _ _
      rw [ideal_open hcut, ideal_open hrest, htrim, ← Given.append_assoc]
      rfl
    | none =>
      have hcut : cut toolOpenTag (s ++ y) = none := by
        rw [cut_ambiguous h, hrest, Option.map_none]
      rw [ideal_text hcut, ideal_text hrest, unambiguous_append s y, ambiguous_append s y,
        Given.append, List.append_nil]
  | case3 s h =>
    have htrim : trimLeft (s ++ y) = trimLeft y := by rw [trimLeft_append, h, List.nil_append]
    rw [List.nil_append, Given.empty_append]
    by_cases hy : trimLeft y = []
    · rw [ideal_blank hy, ideal_blank (htrim.trans hy)]
    · rw [ideal_behind hy, ideal_behind (fun hnil => hy (htrim.symm.trans hnil)), htrim]
  | case4 s h ih =>
    have htrim := trimLeft_append_of_ne h y
    rw [ideal_behind (by rw [htrim]; exact List.append_ne_nil_of_left_ne_nil h y), htrim]
    exact ih
  | case5 s raw after h ih =>
    rw [ideal_close (cut_append h y), ih, Given.append_assoc]
  | case6 s h => rfl

/-! ## Blanks in front -/

/-- The content that a text gives before its first call. -/
def body (s : List Char) : List Char :=
  match cut toolOpenTag s with
  | some (before, _) => trimRight before
  | none => unambiguous s

/-- The same, from a place in the text. -/
def bodyFrom (place : Place) (s : List Char) : List Char :=
  match place with
  | .call => []
  | _ => body (front place s)

theorem body_append {s : List Char} (h : body s ≠ []) (y : List Char) : body (s ++ y) ≠ [] := by
  cases hcut : cut toolOpenTag s with
  | some p =>
    rw [body, hcut] at h
    rw [body, cut_append hcut]
    exact h
  | none =>
    rw [body, hcut] at h
    rw [body, cut_ambiguous hcut]
    cases hrest : cut toolOpenTag (ambiguous s ++ y) with
    | some p =>
      simp only [Option.map_some]
      rw [unambiguous, trimRight_trimRight_append]
      exact List.append_ne_nil_of_left_ne_nil h _
    | none =>
      simp only [Option.map_none]
      rw [unambiguous_append]
      exact List.append_ne_nil_of_left_ne_nil h _

/-- Behind an opening tag nothing is added to the content before it. -/
theorem body_append_of_cut {s : List Char} (h : cut toolOpenTag s ≠ none) (y : List Char) :
    body (s ++ y) = body s := by
  obtain ⟨p, hcut⟩ := Option.ne_none_iff_exists'.mp h
  rw [body, body, cut_append hcut, hcut]

section

variable {v : List Char}

theorem unambiguous_blank (hv : Blank v) (s : List Char) :
    unambiguous (v ++ s) = if unambiguous s = [] then [] else v ++ unambiguous s := by
  have hsent : sent toolOpenTag (v ++ s) = v ++ sent toolOpenTag s := by
    have hall := sent_append_held toolOpenTag (v ++ s)
    rw [held_blank toolOpenTag_blank hv] at hall
    refine List.append_cancel_right (hall.trans ?_)
    rw [List.append_assoc, sent_append_held]
  rw [unambiguous, hsent, trimRight_append, trimRight_eq_nil.mpr hv]
  rfl

/-- Blanks in front are given with the content, are dropped before a call, or are kept. -/
theorem ideal_content_blank (hv : Blank v) (s : List Char) : ideal .content (v ++ s) =
    (((ideal .content s).1.1,
        (if body s = [] ∧ cut toolOpenTag s = none then v else []) ++ (ideal .content s).1.2),
      Given.append (if body s = [] then [] else v, []) (ideal .content s).2) := by
  have hcut := cut_blank toolOpenTag_blank toolOpenTag_ne hv s
  cases hs : cut toolOpenTag s with
  | some p =>
    obtain ⟨before, after⟩ := p
    rw [hs, Option.map_some] at hcut
    have hbody : body s = trimRight before := by rw [body, hs]
    have htrim : trimRight (v ++ before) =
        if trimRight before = [] then [] else v ++ trimRight before := by
      rw [trimRight_append, trimRight_eq_nil.mpr hv]
    have hcall : ¬(trimRight before = [] ∧ some (before, after) = none) := by simp
    rw [ideal_open hcut, ideal_open hs, htrim, hbody, if_neg hcall, List.nil_append]
    split
    · rename_i hnil
      rw [hnil]
      rfl
    · simp only [Given.append, List.append_assoc, List.nil_append]
  | none =>
    rw [hs, Option.map_none] at hcut
    have hbody : body s = unambiguous s := by rw [body, hs]
    have hall := unambiguous_append_ambiguous (v ++ s)
    rw [ideal_text hcut, ideal_text hs, hbody]
    rw [unambiguous_blank hv] at hall ⊢
    by_cases hnil : unambiguous s = []
    · rw [if_pos hnil, List.nil_append] at hall
      have hkept := unambiguous_append_ambiguous s
      rw [hnil, List.nil_append] at hkept
      simp only [hnil, and_self, if_true, hall, hkept]
      rfl
    · rw [if_neg hnil, List.append_assoc] at hall
      have hkept := (List.append_cancel_left hall).trans (unambiguous_append_ambiguous s).symm
      simp only [hnil, false_and, if_false, List.append_cancel_left hkept]
      rfl

end

/-- The blanks that are dropped. -/
def lead (place : Place) (s : List Char) : List Char :=
  match place with
  | .behind => leading s
  | _ => []

/-- The blanks in front that the parser gives, of `v` and those it should have dropped. -/
def extra (v : List Char) (place : Place) (s : List Char) : List Char :=
  if bodyFrom place s = [] then [] else v ++ lead place s

/-- The blanks that the parser keeps in front. -/
def lag (v : List Char) (place : Place) (s : List Char) : List Char :=
  if bodyFrom place s = [] ∧ cut toolOpenTag (front place s) = none then v ++ lead place s else []

/-- Blanks in front that the ideal parser does not have; in a call there are none. -/
structure Lag (v : List Char) (place : Place) : Prop where
  blank : Blank v
  call : place = .call → v = []

/-- The parser with blanks in front does what the ideal parser does, and may give blanks. -/
theorem run_blank {v : List Char} {place : Place} (h : Lag v place) (s : List Char) :
    run place.state (v ++ s) =
      (((ideal place s).1.1.state, lag v place s ++ (ideal place s).1.2),
        Given.append (extra v place s, []) (ideal place s).2) := by
  cases place with
  | call =>
    obtain rfl := h.call rfl
    have hrun := run_eq_ideal .call s
    have hlag : lag [] .call s = [] := by rw [lag]; split <;> rfl
    rw [hlag]
    exact hrun
  | content =>
    have hrun := run_eq_ideal .content (v ++ s)
    rw [ideal_content_blank h.blank s] at hrun
    have hlead : v ++ lead .content s = v := List.append_nil v
    rw [lag, extra, hlead]
    exact hrun
  | behind =>
    have hs : v ++ s = v ++ leading s ++ trimLeft s := by
      rw [List.append_assoc, leading_append_trimLeft]
    have hrun := run_eq_ideal .content (v ++ s)
    rw [hs, ideal_content_blank (h.blank.append (blank_leading s))] at hrun
    rw [hs]
    by_cases htrim : trimLeft s = []
    · have hempty : ideal .content [] = ((.content, []), ([], [])) := ideal_text rfl
      rw [ideal_blank htrim]
      rw [htrim, hempty] at hrun
      have hbody : bodyFrom .behind s = body (trimLeft s) := rfl
      rw [htrim, lag, extra, hbody, front, htrim]
      exact hrun
    · rw [ideal_behind htrim]
      exact hrun

theorem blank_lead (place : Place) (s : List Char) : Blank (lead place s) := by
  cases place with
  | behind => exact blank_leading s
  | content => exact blank_nil
  | call => exact blank_nil

theorem Lag.next {v : List Char} {place : Place} (h : Lag v place) (s : List Char) :
    Lag (lag v place s) (ideal place s).1.1 := by
  rw [lag]
  split
  · rename_i hwait
    refine ⟨h.blank.append (blank_lead place s), fun hcall => ?_⟩
    cases place with
    | call => exact (List.append_nil v).trans (h.call rfl)
    | content =>
      have hcut : cut toolOpenTag s = none := hwait.2
      rw [ideal_text hcut] at hcall
      cases hcall
    | behind =>
      by_cases htrim : trimLeft s = []
      · rw [ideal_blank htrim] at hcall
        cases hcall
      · have hcut : cut toolOpenTag (trimLeft s) = none := hwait.2
        rw [ideal_behind htrim, ideal_text hcut] at hcall
        cases hcall
  · exact ⟨blank_nil, fun _ => rfl⟩

/-- Nothing more is to be given. -/
def Settled (place : Place) (kept : List Char) : Prop :=
  match place with
  | .content => cut toolOpenTag kept = none ∧ unambiguous kept = []
  | .behind => kept = []
  | .call => cut toolCloseTag kept = none

theorem settled_ideal (place : Place) (s : List Char) :
    Settled (ideal place s).1.1 (ideal place s).1.2 := by
  fun_induction ideal place s with
  | case1 s before after h ih => exact ih
  | case2 s h =>
    constructor
    · have hcut := cut_ambiguous h []
      rw [List.append_nil, List.append_nil, h] at hcut
      exact Option.map_eq_none_iff.mp hcut.symm
    · have hnil := unambiguous_append s []
      rw [List.append_nil, List.append_nil] at hnil
      exact (List.self_eq_append_right.mp hnil)
  | case3 s h => rfl
  | case4 s h ih => exact ih
  | case5 s raw after h ih => exact ih
  | case6 s h => exact h

theorem Settled.ideal_eq {place : Place} {kept : List Char} (h : Settled place kept) :
    ideal place kept = ((place, kept), ([], [])) := by
  cases place with
  | content =>
    have hkept := unambiguous_append_ambiguous kept
    rw [h.2, List.nil_append] at hkept
    rw [ideal_text h.1, h.2, hkept]
  | behind =>
    obtain rfl : kept = [] := h
    exact ideal_blank rfl
  | call => exact ideal_call h

theorem Settled.body_eq {place : Place} {kept : List Char} (h : Settled place kept) :
    bodyFrom place kept = [] := by
  cases place with
  | content =>
    show body kept = []
    rw [body, h.1]
    exact h.2
  | behind =>
    obtain rfl : kept = [] := h
    rfl
  | call => rfl

/-- Behind a call there are blanks, and content behind them. -/
def BlanksBehind (place : Place) (y : List Char) : Prop :=
  place = .behind ∧ leading y ≠ [] ∧ body (trimLeft y) ≠ []

theorem leading_of_trimLeft {s : List Char} (h : trimLeft s = []) : leading s = s := by
  have hs := leading_append_trimLeft s
  rwa [h, List.append_nil] at hs

theorem leading_append_of_eq {c : List Char} (h : trimLeft c = []) (y : List Char) :
    leading (c ++ y) = c ++ leading y :=
  List.takeWhile_append_of_pos (trimLeft_eq_nil.mp h)

theorem leading_append_of_ne {c : List Char} (h : trimLeft c ≠ []) (y : List Char) :
    leading (c ++ y) = leading c := by
  have hboth := leading_append_trimLeft (c ++ y)
  have hc := congrArg (· ++ y) (leading_append_trimLeft c)
  rw [trimLeft_append_of_ne h] at hboth
  simp only [List.append_assoc] at hc
  exact List.append_cancel_right (hboth.trans hc.symm)

theorem blanks_content (V t y : List Char) :
    ((if body t = [] then [] else V) = [] ∧
        ((if body t = [] ∧ cut toolOpenTag t = none then V else []) = [] ∨
          bodyFrom (ideal .content t).1.1 ((ideal .content t).1.2 ++ y) = [])) ↔
      (V = [] ∨ body (t ++ y) = []) := by
  by_cases hbody : body t = []
  · cases hcut : cut toolOpenTag t with
    | some p =>
      rw [body_append_of_cut (by rw [hcut]; exact Option.some_ne_none p)]
      simp [hbody]
    | none =>
      have hkept := unambiguous_append_ambiguous t
      have htext : body t = unambiguous t := by rw [body, hcut]
      rw [← htext, hbody, List.nil_append] at hkept
      have hnext : bodyFrom .content (t ++ y) = body (t ++ y) := rfl
      simp [ideal_text hcut, hkept, hbody, hnext]
  · have hboth := body_append hbody y
    simp [hbody, hboth]

/-- One chunk: the parser gives no blanks and has none to give with what follows, if and only
if it had none, and there are none in the chunk. -/
theorem blanks_step {v : List Char} {place : Place} {kept : List Char} (h : Lag v place)
    (hkept : Settled place kept) (c y : List Char) :
    (extra v place (kept ++ c) = [] ∧
        (lag v place (kept ++ c) = [] ∨ bodyFrom (ideal place (kept ++ c)).1.1
          ((ideal place (kept ++ c)).1.2 ++ y) = []) ∧
        ¬BlanksBehind (ideal place (kept ++ c)).1.1 y) ↔
      ((v = [] ∨ bodyFrom place (kept ++ (c ++ y)) = []) ∧ ¬BlanksBehind place (c ++ y) ∧
        ¬BlanksBehind (ideal place (kept ++ c)).1.1 y) := by
  cases place with
  | call =>
    have hlag : lag v .call (kept ++ c) = [] := by
      rw [lag]
      split
      · exact (List.append_nil v).trans (h.call rfl)
      · rfl
    have hextra : extra v .call (kept ++ c) = [] := rfl
    have hnot : ¬BlanksBehind .call (c ++ y) := fun hbehind => by cases hbehind.1
    rw [hlag, hextra]
    simp only [h.call rfl, hnot, true_or, not_false_eq_true, true_and]
  | content =>
    have hcontent := blanks_content v (kept ++ c) y
    have hlead : v ++ lead .content (kept ++ c) = v := List.append_nil v
    have hnot : ¬BlanksBehind .content (c ++ y) := fun hbehind => by cases hbehind.1
    rw [extra, lag, hlead, ← List.append_assoc, ← and_assoc]
    simp only [hnot, not_false_eq_true, true_and]
    exact and_congr_left' hcontent
  | behind =>
    obtain rfl : kept = [] := hkept
    rw [List.nil_append, List.nil_append]
    by_cases htrim : trimLeft c = []
    · have hboth : trimLeft (c ++ y) = trimLeft y := by
        rw [trimLeft_append, htrim, List.nil_append]
      have hbody : bodyFrom .behind c = [] := by
        show body (trimLeft c) = []
        rw [htrim]
        rfl
      have hcut : cut toolOpenTag (front .behind c) = none := by
        show cut toolOpenTag (trimLeft c) = none
        rw [htrim]
        rfl
      have hlead : lead .behind c = c := leading_of_trimLeft htrim
      have hfrom : ∀ s, bodyFrom .behind s = body (trimLeft s) := fun _ => rfl
      simp only [ideal_blank htrim, extra, lag, hbody, hcut, hlead, hfrom, hboth, BlanksBehind,
        leading_append_of_eq htrim, List.nil_append, and_self, if_true, true_and, ne_eq,
        List.append_eq_nil_iff]
      tauto
    · have hcontent := blanks_content (v ++ leading c) (trimLeft c) y
      have hboth := trimLeft_append_of_ne htrim y
      have hextra : extra v .behind c =
        if body (trimLeft c) = [] then [] else v ++ leading c := rfl
      have hlag : lag v .behind c = if body (trimLeft c) = [] ∧
        cut toolOpenTag (trimLeft c) = none then v ++ leading c else [] := rfl
      have hfrom : bodyFrom .behind (c ++ y) = body (trimLeft (c ++ y)) := rfl
      have hbehind : BlanksBehind .behind (c ++ y) ↔
          leading c ≠ [] ∧ body (trimLeft c ++ y) ≠ [] := by
        rw [BlanksBehind, leading_append_of_ne htrim, hboth]
        simp only [true_and]
      rw [hextra, hlag, ideal_behind htrim, ← and_assoc, hcontent, hfrom, hboth, hbehind,
        List.append_eq_nil_iff]
      tauto

/-! ## Chunks -/

/-- What each chunk gives. -/
def outputs {σ : Type} (step : σ → List Char → (σ × List Char) × Given) :
    σ × List Char → List (List Char) → List Given
  | _, [] => []
  | (p, kept), c :: cs => (step p (kept ++ c)).2 :: outputs step (step p (kept ++ c)).1 cs

/-- The content of outputs. -/
def contents (gs : List Given) : List Char := (gs.map Prod.fst).flatten

/-- The raw calls of outputs. -/
def raws (gs : List Given) : List (List Char) := (gs.map Prod.snd).flatten

/-- Where a text ends that starts at a place with some text kept. -/
def after (place : Place) (kept : List Char) (chunks : List (List Char)) : Place × List Char :=
  (ideal place (kept ++ chunks.flatten)).1

theorem after_nil {place : Place} {kept : List Char} (h : Settled place kept) :
    after place kept [] = (place, kept) := by
  rw [after, List.flatten_nil, List.append_nil, h.ideal_eq]

theorem after_cons (place : Place) (kept c : List Char) (cs : List (List Char)) :
    after place kept (c :: cs) =
      after (ideal place (kept ++ c)).1.1 (ideal place (kept ++ c)).1.2 cs := by
  rw [after, List.flatten_cons, ← List.append_assoc, ideal_append]
  rfl

/-- All chunks of the ideal parser together give what the whole text gives. -/
theorem outputs_ideal {place : Place} {kept : List Char} (hkept : Settled place kept)
    (chunks : List (List Char)) : (contents (outputs ideal (place, kept) chunks),
      raws (outputs ideal (place, kept) chunks)) = (ideal place (kept ++ chunks.flatten)).2 := by
  induction chunks generalizing place kept with
  | nil =>
    rw [List.flatten_nil, List.append_nil, hkept.ideal_eq]
    rfl
  | cons c cs ih =>
    have hrest := ih (settled_ideal place (kept ++ c))
    rw [List.flatten_cons, ← List.append_assoc, ideal_append, ← hrest]
    rfl

theorem contents_cons (g : Given) (gs : List Given) : contents (g :: gs) = g.1 ++ contents gs := rfl

theorem outputs_ideal_cons (place : Place) (kept c : List Char) (cs : List (List Char)) :
    outputs ideal (place, kept) (c :: cs) = (ideal place (kept ++ c)).2 ::
      outputs ideal ((ideal place (kept ++ c)).1.1, (ideal place (kept ++ c)).1.2) cs := rfl

theorem outputs_run_cons {v : List Char} {place : Place} (h : Lag v place) (kept c : List Char)
    (cs : List (List Char)) : outputs run (place.state, v ++ kept) (c :: cs) =
      Given.append (extra v place (kept ++ c), []) (ideal place (kept ++ c)).2 ::
        outputs run ((ideal place (kept ++ c)).1.1.state,
          lag v place (kept ++ c) ++ (ideal place (kept ++ c)).1.2) cs := by
  rw [outputs, List.append_assoc, run_blank h]

/-- The ideal parser gives the content before the first call. -/
theorem bodyFrom_prefix (place : Place) (s : List Char) :
    bodyFrom place s <+: (ideal place s).2.1 := by
  have hbody : ∀ s, body s <+: (ideal .content s).2.1 := by
    intro s
    cases hcut : cut toolOpenTag s with
    | some p =>
      rw [body, hcut, ideal_open hcut]
      exact List.prefix_append _ _
    | none =>
      rw [body, hcut, ideal_text hcut]
  cases place with
  | call => exact List.nil_prefix
  | content => exact hbody s
  | behind =>
    by_cases htrim : trimLeft s = []
    · show body (trimLeft s) <+: _
      rw [htrim]
      exact List.nil_prefix
    · rw [ideal_behind htrim]
      exact hbody (trimLeft s)

/-- Blanks are given only in front of content. -/
theorem extra_eq_nil {v : List Char} {place : Place} {s : List Char}
    (h : (ideal place s).2.1 = []) : extra v place s = [] := by
  have hprefix := bodyFrom_prefix place s
  rw [h, List.prefix_nil] at hprefix
  rw [extra, if_pos hprefix]

/-- The raw calls of each chunk are those of the ideal parser, and a chunk gives nothing if
the ideal parser gives nothing. -/
theorem outputs_run {v : List Char} {place : Place} (h : Lag v place) (kept : List Char)
    (chunks : List (List Char)) :
    List.Forall₂ (fun g g' : Given => g.2 = g'.2 ∧ (g.1 = [] ↔ g'.1 = []))
      (outputs run (place.state, v ++ kept) chunks) (outputs ideal (place, kept) chunks) := by
  induction chunks generalizing v place kept with
  | nil => exact List.Forall₂.nil
  | cons c cs ih =>
    rw [outputs_run_cons h, outputs_ideal_cons]
    refine List.Forall₂.cons ⟨rfl, ?_⟩ (ih (h.next (kept ++ c)) _)
    show extra v place (kept ++ c) ++ _ = [] ↔ _
    rw [List.append_eq_nil_iff]
    exact ⟨And.right, fun hnil => ⟨extra_eq_nil hnil, hnil⟩⟩

theorem length_contents_le {v : List Char} {place : Place} (h : Lag v place) (kept : List Char)
    (chunks : List (List Char)) :
    (contents (outputs ideal (place, kept) chunks)).length ≤
      (contents (outputs run (place.state, v ++ kept) chunks)).length := by
  induction chunks generalizing v place kept with
  | nil => exact le_rfl
  | cons c cs ih =>
    have hrest := ih (h.next (kept ++ c)) (ideal place (kept ++ c)).1.2
    rw [outputs_run_cons h, outputs_ideal_cons, contents_cons, contents_cons]
    simp only [List.length_append, Given.append]
    omega

/-- No chunk has extra blanks, if and only if there were none and no blanks behind a call come
in a later chunk. -/
theorem contents_eq_iff {v : List Char} {place : Place} {kept : List Char} (h : Lag v place)
    (hkept : Settled place kept) (chunks : List (List Char)) :
    contents (outputs run (place.state, v ++ kept) chunks) =
        contents (outputs ideal (place, kept) chunks) ↔
      (v = [] ∨ bodyFrom place (kept ++ chunks.flatten) = []) ∧
        ∀ as bs, as ++ bs = chunks → ¬BlanksBehind (after place kept as).1 bs.flatten := by
  induction chunks generalizing v place kept with
  | nil =>
    have hnot : ¬BlanksBehind (after place kept []).1 [] := fun hbehind => hbehind.2.1 rfl
    simp only [List.append_eq_nil_iff, List.flatten_nil, List.append_nil, hkept.body_eq, or_true,
      true_and]
    refine iff_of_true rfl ?_
    rintro as bs ⟨rfl, rfl⟩
    exact hnot
  | cons c cs ih =>
    have hnext := ih (h.next (kept ++ c)) (settled_ideal place (kept ++ c))
    have hle := length_contents_le (h.next (kept ++ c)) (ideal place (kept ++ c)).1.2 cs
    -- the first chunk, and the rest
    have hcontents : contents (outputs run (place.state, v ++ kept) (c :: cs)) =
        contents (outputs ideal (place, kept) (c :: cs)) ↔
      extra v place (kept ++ c) = [] ∧
        contents (outputs run ((ideal place (kept ++ c)).1.1.state,
            lag v place (kept ++ c) ++ (ideal place (kept ++ c)).1.2) cs) =
          contents (outputs ideal ((ideal place (kept ++ c)).1.1, (ideal place (kept ++ c)).1.2) cs) := by
      rw [outputs_run_cons h, outputs_ideal_cons, contents_cons, contents_cons]
      constructor
      · intro heq
        have hlen := congrArg List.length heq
        simp only [List.length_append, Given.append] at hlen
        have hnil : extra v place (kept ++ c) = [] := List.length_eq_zero_iff.mp (by omega)
        rw [hnil] at heq
        exact ⟨hnil, List.append_cancel_left heq⟩
      · rintro ⟨hnil, heq⟩
        rw [hnil, heq]
        rfl
    have hsplits : (∀ as bs, as ++ bs = c :: cs →
          ¬BlanksBehind (after place kept as).1 bs.flatten) ↔
        ¬BlanksBehind place (c ++ cs.flatten) ∧ ∀ as bs, as ++ bs = cs →
          ¬BlanksBehind (after (ideal place (kept ++ c)).1.1 (ideal place (kept ++ c)).1.2 as).1
            bs.flatten := by
      constructor
      · intro hall
        refine ⟨?_, fun as bs hsplit => ?_⟩
        · have hfirst := hall [] (c :: cs) rfl
          rwa [after_nil hkept, List.flatten_cons] at hfirst
        · have hlater := hall (c :: as) bs (congrArg (c :: ·) hsplit)
          rwa [after_cons] at hlater
      · rintro ⟨hfirst, hlater⟩ as bs hsplit
        cases as with
        | nil =>
          obtain rfl : bs = c :: cs := hsplit
          rwa [after_nil hkept, List.flatten_cons]
        | cons a as =>
          obtain ⟨rfl, rfl⟩ := List.cons.inj hsplit
          rw [after_cons]
          exact hlater as bs rfl
    have hnow : (∀ as bs, as ++ bs = cs →
        ¬BlanksBehind (after (ideal place (kept ++ c)).1.1 (ideal place (kept ++ c)).1.2 as).1
          bs.flatten) → ¬BlanksBehind (ideal place (kept ++ c)).1.1 cs.flatten := by
      intro hall
      have hfirst := hall [] cs rfl
      rwa [after_nil (settled_ideal place (kept ++ c))] at hfirst
    have hstep := blanks_step h hkept c cs.flatten
    rw [hcontents, hnext, hsplits, List.flatten_cons]
    constructor
    · rintro ⟨hextra, hlag, hall⟩
      obtain ⟨hfirst, hblanks, -⟩ := hstep.mp ⟨hextra, hlag, hnow hall⟩
      exact ⟨hfirst, hblanks, hall⟩
    · rintro ⟨hfirst, hblanks, hall⟩
      obtain ⟨hextra, hlag, -⟩ := hstep.mpr ⟨hfirst, hblanks, hnow hall⟩
      exact ⟨hextra, hlag, hall⟩

/-! ## Tool calls -/

variable (parseToolCall : List Char → Option Call)

/-- The calls with their indices, up to the first that cannot be parsed. -/
def number : Nat → List (List Char) → List (Call × Nat)
  | _, [] => []
  | callIndex, raw :: rest =>
    match parseToolCall raw with
    | some call => (call, callIndex) :: number (callIndex + 1) rest
    | none => []

/-- Every raw call can be parsed. -/
def Parses (rs : List (List Char)) : Prop := ∀ raw ∈ rs, parseToolCall raw ≠ none

theorem collect_eq (callIndex : Nat) (events : List Event)
    (h : Parses parseToolCall (given events).2) :
    collect parseToolCall callIndex events = (callIndex + (given events).2.length,
      some ((given events).1, number parseToolCall callIndex (given events).2)) := by
  induction events generalizing callIndex with
  | nil => rfl
  | cons e es ih =>
    cases e with
    | content s => rw [collect, ih callIndex h]; rfl
    | rawToolCall raw =>
      obtain ⟨call, hcall⟩ := Option.ne_none_iff_exists'.mp (h raw (List.mem_cons_self ..))
      have hrest := ih (callIndex + 1) fun r hr => h r (List.mem_cons_of_mem raw hr)
      simp only [collect, hcall, hrest, given, Given.append, number, List.singleton_append,
        List.nil_append, List.length_cons, Option.map_some, Nat.add_assoc, Nat.add_comm 1]

theorem collect_error (callIndex : Nat) (events : List Event)
    (h : ¬Parses parseToolCall (given events).2) :
    (collect parseToolCall callIndex events).2 = none := by
  induction events generalizing callIndex with
  | nil => exact absurd (fun _ hmem => absurd hmem List.not_mem_nil) h
  | cons e es ih =>
    cases e with
    | content s =>
      rw [collect]
      simp only [ih callIndex h, Option.map_none]
    | rawToolCall raw =>
      rw [collect]
      cases hcall : parseToolCall raw with
      | none => rfl
      | some call =>
        have hrest : ¬Parses parseToolCall (given es).2 := by
          intro hparses
          refine h fun r hr => ?_
          rcases List.mem_cons.mp hr with rfl | hr
          · rw [hcall]
            exact Option.some_ne_none call
          · exact hparses r hr
        simp only [ih (callIndex + 1) hrest, Option.map_none]

theorem number_append {rs : List (List Char)} (h : Parses parseToolCall rs) (callIndex : Nat)
    (rs' : List (List Char)) : number parseToolCall callIndex (rs ++ rs') =
      number parseToolCall callIndex rs ++ number parseToolCall (callIndex + rs.length) rs' := by
  induction rs generalizing callIndex with
  | nil => rfl
  | cons raw rs ih =>
    obtain ⟨call, hcall⟩ := Option.ne_none_iff_exists'.mp (h raw (List.mem_cons_self ..))
    have hrest := ih (fun r hr => h r (List.mem_cons_of_mem raw hr)) (callIndex + 1)
    simp only [List.cons_append, number, hcall, hrest, List.length_cons, Nat.add_assoc,
      Nat.add_comm 1]

theorem number_eq_nil {rs : List (List Char)} (h : Parses parseToolCall rs) (callIndex : Nat) :
    number parseToolCall callIndex rs = [] ↔ rs = [] := by
  cases rs with
  | nil => simp [number]
  | cons raw rs =>
    obtain ⟨call, hcall⟩ := Option.ne_none_iff_exists'.mp (h raw (List.mem_cons_self ..))
    simp [number, hcall]

theorem eat_callIndex (state : State) (s : List Char) (callIndex : Nat) :
    eat ⟨state, s, callIndex⟩ =
      ({ (eat ⟨state, s, 0⟩).1 with callIndex := callIndex }, (eat ⟨state, s, 0⟩).2) := by
  cases state with
  | lookingForToolStart =>
    simp only [eat]
    split
    · rfl
    · split <;> rfl
  | collectingToolContent =>
    simp only [eat]
    split <;> rfl

/-- The call index does not matter to the events. -/
theorem parseEvents_callIndex (state : State) (s : List Char) (callIndex : Nat) :
    parseEvents ⟨state, s, callIndex⟩ =
      (⟨(run state s).1.1, (run state s).1.2, callIndex⟩, (parseEvents ⟨state, s, 0⟩).2) := by
  -- on the length of the text, as the loop
  induction hlen : s.length using Nat.strong_induction_on generalizing state s with
  | _ n ih =>
    subst hlen
    have heat := eat_callIndex state s callIndex
    have hindex : (eat ⟨state, s, 0⟩).1.callIndex = 0 :=
      congrArg (fun r => r.1.callIndex) (eat_callIndex state s 0)
    rw [run, parseEvents, parseEvents.eq_1 ⟨state, s, 0⟩, heat]
    by_cases hgo : (eat ⟨state, s, 0⟩).2.2 = true
    · have hrest := ih _ (eat_length hgo) (eat ⟨state, s, 0⟩).1.state _ rfl
      simp only [hgo, if_true]
      generalize eat ⟨state, s, 0⟩ = r at hindex hrest ⊢
      obtain ⟨⟨state', s', callIndex'⟩, events, go⟩ := r
      obtain rfl : callIndex' = 0 := hindex
      simp only at hrest ⊢
      rw [hrest]
      rfl
    · simp only [hgo, Bool.false_eq_true, if_false]

/-- What one chunk returns. -/
def returned (callIndex : Nat) (state : State) (s : List Char) : List Char × List (Call × Nat) :=
  (collect parseToolCall callIndex (parseEvents ⟨state, s, 0⟩).2).2.getD ([], [])

/-- The call index behind one chunk. -/
def nextIndex (callIndex : Nat) (state : State) (s : List Char) : Nat :=
  (collect parseToolCall callIndex (parseEvents ⟨state, s, 0⟩).2).1

theorem addChunks_cons (state : State) (kept : List Char) (callIndex : Nat) (c : List Char)
    (cs : List (List Char)) :
    let rest := (addChunks parseToolCall ⟨(run state (kept ++ c)).1.1, (run state (kept ++ c)).1.2,
      nextIndex parseToolCall callIndex state (kept ++ c)⟩ cs).2
    (addChunks parseToolCall ⟨state, kept, callIndex⟩ (c :: cs)).2 =
      ((returned parseToolCall callIndex state (kept ++ c)).1 ++ rest.1,
        (returned parseToolCall callIndex state (kept ++ c)).2 ++ rest.2) := by
  have hadd : add parseToolCall ⟨state, kept, callIndex⟩ c =
      (⟨(run state (kept ++ c)).1.1, (run state (kept ++ c)).1.2,
        nextIndex parseToolCall callIndex state (kept ++ c)⟩,
        (collect parseToolCall callIndex (parseEvents ⟨state, kept ++ c, 0⟩).2).2) := by
    rw [add, parseEvents_callIndex]
    rfl
  show (((add parseToolCall ⟨state, kept, callIndex⟩ c).2.getD ([], [])).1 ++
      (addChunks parseToolCall (add parseToolCall ⟨state, kept, callIndex⟩ c).1 cs).2.1,
    ((add parseToolCall ⟨state, kept, callIndex⟩ c).2.getD ([], [])).2 ++
      (addChunks parseToolCall (add parseToolCall ⟨state, kept, callIndex⟩ c).1 cs).2.2) = _
  rw [hadd]
  rfl

theorem returned_eq {callIndex : Nat} {state : State} {s : List Char}
    (h : Parses parseToolCall (run state s).2.2) : returned parseToolCall callIndex state s =
      ((run state s).2.1, number parseToolCall callIndex (run state s).2.2) := by
  rw [returned, collect_eq parseToolCall callIndex _ h]
  rfl

theorem nextIndex_eq {callIndex : Nat} {state : State} {s : List Char}
    (h : Parses parseToolCall (run state s).2.2) :
    nextIndex parseToolCall callIndex state s = callIndex + (run state s).2.2.length := by
  rw [nextIndex, collect_eq parseToolCall callIndex _ h]
  rfl

theorem returned_error {callIndex : Nat} {state : State} {s : List Char}
    (h : ¬Parses parseToolCall (run state s).2.2) :
    returned parseToolCall callIndex state s = ([], []) := by
  rw [returned, collect_error parseToolCall callIndex _ h]
  rfl

/-- When every call can be parsed, chunks return their contents and calls. -/
theorem addChunks_eq (state : State) (kept : List Char) (callIndex : Nat)
    (chunks : List (List Char))
    (h : Parses parseToolCall (raws (outputs run (state, kept) chunks))) :
    (addChunks parseToolCall ⟨state, kept, callIndex⟩ chunks).2 =
      (contents (outputs run (state, kept) chunks),
        number parseToolCall callIndex (raws (outputs run (state, kept) chunks))) := by
  induction chunks generalizing state kept callIndex with
  | nil => rfl
  | cons c cs ih =>
    have hfirst : Parses parseToolCall (run state (kept ++ c)).2.2 :=
      fun raw hraw => h raw (List.mem_append_left _ hraw)
    have hrest : Parses parseToolCall (raws (outputs run (run state (kept ++ c)).1 cs)) :=
      fun raw hraw => h raw (List.mem_append_right _ hraw)
    have happend := number_append parseToolCall hfirst callIndex
      (raws (outputs run (run state (kept ++ c)).1 cs))
    have hnext := ih (run state (kept ++ c)).1.1 (run state (kept ++ c)).1.2
      (nextIndex parseToolCall callIndex state (kept ++ c)) hrest
    rw [addChunks_cons, hnext, returned_eq parseToolCall hfirst, nextIndex_eq parseToolCall hfirst]
    exact congrArg (Prod.mk _) happend.symm

/-- Chunks return nothing, if and only if each gives nothing or has a call that cannot be
parsed. -/
theorem addChunks_eq_nil (state : State) (kept : List Char) (callIndex : Nat)
    (chunks : List (List Char)) :
    (addChunks parseToolCall ⟨state, kept, callIndex⟩ chunks).2 = ([], []) ↔
      ∀ g ∈ outputs run (state, kept) chunks,
        (g.1 = [] ∧ g.2 = []) ∨ ¬Parses parseToolCall g.2 := by
  induction chunks generalizing state kept callIndex with
  | nil => simp [addChunks, runChunks, outputs]
  | cons c cs ih =>
    have hfirst : returned parseToolCall callIndex state (kept ++ c) = ([], []) ↔
        ((run state (kept ++ c)).2.1 = [] ∧ (run state (kept ++ c)).2.2 = []) ∨
          ¬Parses parseToolCall (run state (kept ++ c)).2.2 := by
      by_cases hparses : Parses parseToolCall (run state (kept ++ c)).2.2
      · rw [returned_eq parseToolCall hparses, Prod.mk.injEq, number_eq_nil parseToolCall hparses]
        simp [hparses]
      · simp [returned_error parseToolCall hparses, hparses]
    have hnext := ih (run state (kept ++ c)).1.1 (run state (kept ++ c)).1.2
      (nextIndex parseToolCall callIndex state (kept ++ c))
    rw [addChunks_cons, outputs, List.forall_mem_cons, ← hfirst, ← hnext]
    simp only [Prod.ext_iff, List.append_eq_nil_iff]
    tauto

/-! ## What the parser returns -/

/-- Where a text of a model ends. -/
def placeOf (text : List Char) : Place := (ideal .content text).1.1

/-- The raw calls in a text of a model. -/
def rawCalls (text : List Char) : List (List Char) := (ideal .content text).2.2

/-- What a chunk gives behind a text. -/
def gives (text c : List Char) : Given :=
  (ideal (ideal .content text).1.1 ((ideal .content text).1.2 ++ c)).2

/-- When every call can be parsed: no chunk ends behind a call, with only blanks since, before
a blank that has content behind it. When one cannot: every chunk gives nothing or has such a
call. -/
structure Clean (chunks : List (List Char)) : Prop where
  blanks : Parses parseToolCall (rawCalls chunks.flatten) →
    ∀ as bs, as ++ bs = chunks → ¬BlanksBehind (placeOf as.flatten) bs.flatten
  errors : ¬Parses parseToolCall (rawCalls chunks.flatten) →
    ∀ as c bs, as ++ c :: bs = chunks →
      ((gives as.flatten c).1 = [] ∧ (gives as.flatten c).2 = []) ∨
        ¬Parses parseToolCall (gives as.flatten c).2

theorem mem_outputs_ideal {place : Place} {kept : List Char} (hkept : Settled place kept)
    {chunks : List (List Char)} {g : Given} :
    g ∈ outputs ideal (place, kept) chunks ↔ ∃ as c bs, as ++ c :: bs = chunks ∧
      g = (ideal (after place kept as).1 ((after place kept as).2 ++ c)).2 := by
  induction chunks generalizing place kept with
  | nil => simp [outputs]
  | cons c cs ih =>
    rw [outputs_ideal_cons, List.mem_cons, ih (settled_ideal place (kept ++ c))]
    constructor
    · rintro (rfl | ⟨as, d, bs, rfl, rfl⟩)
      · exact ⟨[], c, cs, rfl, by rw [after_nil hkept]⟩
      · exact ⟨c :: as, d, bs, rfl, by rw [after_cons]⟩
    · rintro ⟨as, d, bs, hsplit, rfl⟩
      cases as with
      | nil =>
        obtain ⟨rfl, rfl⟩ := List.cons.inj hsplit
        exact Or.inl (by rw [after_nil hkept])
      | cons a as =>
        obtain ⟨rfl, rfl⟩ := List.cons.inj hsplit
        exact Or.inr ⟨as, d, bs, rfl, by rw [after_cons]⟩

/-- Outputs that agree but for blanks in front of contents. -/
abbrev Agree : List Given → List Given → Prop :=
  List.Forall₂ fun g g' => g.2 = g'.2 ∧ (g.1 = [] ↔ g'.1 = [])

theorem raws_of_agree {gs gs' : List Given} (h : Agree gs gs') : raws gs = raws gs' := by
  induction h with
  | nil => rfl
  | cons hg _ ih => exact congrArg₂ (· ++ ·) hg.1 ih

theorem nothing_of_agree {gs gs' : List Given} (h : Agree gs gs') :
    (∀ g ∈ gs, (g.1 = [] ∧ g.2 = []) ∨ ¬Parses parseToolCall g.2) ↔
      ∀ g ∈ gs', (g.1 = [] ∧ g.2 = []) ∨ ¬Parses parseToolCall g.2 := by
  induction h with
  | nil => rfl
  | cons hg _ ih => rw [List.forall_mem_cons, List.forall_mem_cons, ih, hg.1, hg.2]

/-- The chunks return what the whole text returns, if and only if they are clean. -/
theorem addChunks_iff (chunks : List (List Char)) :
    (addChunks parseToolCall init chunks).2 =
        (addChunks parseToolCall init [chunks.flatten]).2 ↔ Clean parseToolCall chunks := by
  have hlag : Lag [] .content := ⟨blank_nil, fun _ => rfl⟩
  have hkept : Settled .content [] := ⟨rfl, rfl⟩
  -- the chunks against those of the ideal parser, and these against the whole text
  have hagree : Agree (outputs run (.lookingForToolStart, []) chunks)
    (outputs ideal (.content, []) chunks) := outputs_run hlag [] chunks
  have hcontents := contents_eq_iff hlag hkept chunks
  obtain ⟨hall, hraws⟩ : contents (outputs ideal (.content, []) chunks) =
        (ideal .content chunks.flatten).2.1 ∧
      raws (outputs ideal (.content, []) chunks) = rawCalls chunks.flatten :=
    Prod.mk.inj (outputs_ideal hkept chunks)
  have hwhole : outputs run (.lookingForToolStart, []) [chunks.flatten] =
      [(ideal .content chunks.flatten).2] := by
    have hrun : run .lookingForToolStart chunks.flatten = _ :=
      run_eq_ideal .content chunks.flatten
    show [(run .lookingForToolStart chunks.flatten).2] = _
    rw [hrun]
  have hrawsWhole : raws [(ideal .content chunks.flatten).2] = rawCalls chunks.flatten :=
    List.append_nil _
  have hcontentsWhole : contents [(ideal .content chunks.flatten).2] =
    (ideal .content chunks.flatten).2.1 := List.append_nil _
  have hrawsChunks : raws (outputs run (.lookingForToolStart, []) chunks) =
    rawCalls chunks.flatten := (raws_of_agree hagree).trans hraws
  by_cases hparses : Parses parseToolCall (rawCalls chunks.flatten)
  · rw [init, addChunks_eq _ _ _ _ _ (by rwa [hrawsChunks]),
      addChunks_eq _ _ _ _ _ (by rwa [hwhole, hrawsWhole]), hrawsChunks, hwhole, hrawsWhole,
      hcontentsWhole, Prod.mk.injEq, ← hall]
    refine (and_iff_left rfl).trans (hcontents.trans ⟨fun h => ⟨fun _ => h.2, ?_⟩, fun h => ?_⟩)
    · exact fun hnot => absurd hparses hnot
    · exact ⟨Or.inl rfl, h.blanks hparses⟩
  · have hnothing : (addChunks parseToolCall init [chunks.flatten]).2 = ([], []) := by
      refine (addChunks_eq_nil _ _ _ _ _).mpr fun g hg => Or.inr ?_
      rw [hwhole, List.mem_singleton] at hg
      rw [hg]
      exact hparses
    rw [hnothing, init, addChunks_eq_nil, nothing_of_agree parseToolCall hagree]
    constructor
    · exact fun h => ⟨fun hyes => absurd hyes hparses, fun _ as c bs hsplit =>
        h _ ((mem_outputs_ideal hkept).mpr ⟨as, c, bs, hsplit, rfl⟩)⟩
    · rintro h g hg
      obtain ⟨as, c, bs, hsplit, rfl⟩ := (mem_outputs_ideal hkept).mp hg
      exact h.errors hparses as c bs hsplit

/-- Blanks behind a call in the chunk of its closing tag are dropped, those in the next chunk
are not. -/
theorem chunks_keep_blanks :
    let parseToolCall := fun raw : List Char =>
      if raw = "<function=f></function>".toList then some "f".toList else none
    let chunks := ["<tool_call><function=f></function></tool_call>".toList, "\n hello".toList]
    (addChunks parseToolCall init chunks).2 ≠ (addChunks parseToolCall init [chunks.flatten]).2 := by
  decide +kernel

end Prismalama.Parsers.Qwen3Coder
