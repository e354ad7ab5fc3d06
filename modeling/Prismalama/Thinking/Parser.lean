import Prismalama.Lib.TagStream

/-!
# Thinking in a stream (`thinking/parser.go`)

The parser splits the output of a model at an opening and a closing tag. However the output
is cut into chunks, what it gives as thinking and as content is the same
(`thinking_chunks`). A text is a list of runes: chunks are cut between runes.
-/

namespace Prismalama.Thinking

open Prismalama.Lib

inductive State
  | lookingForOpening
  | thinkingStartedEatingWhitespace
  | thinking
  | thinkingDoneEatingWhitespace
  | thinkingDone
  deriving DecidableEq

structure Parser where
  state : State
  openingTag : List Char
  closingTag : List Char
  acc : List Char

/-- Thinking and content. -/
abbrev Output := List Char × List Char

def Output.append (o o' : Output) : Output := (o.1 ++ o'.1, o.2 ++ o'.2)

/-- `eat`, and whether to go on. `Split` and `Join` with one tag leave what is behind the
first one. -/
def eat (s : Parser) : Parser × Output × Bool :=
  match s.state with
  | .lookingForOpening =>
    let trimmed := trimLeft s.acc
    if s.openingTag <+: trimmed then
      let after := trimLeft (trimmed.drop s.openingTag.length)
      ({ s with
          acc := after
          state := if after = [] then .thinkingStartedEatingWhitespace else .thinking },
        ([], []), true)
    else if trimmed <+: s.openingTag then (s, ([], []), false)
    else if trimmed = [] then (s, ([], []), false)
    else ({ s with acc := [], state := .thinkingDone }, ([], s.acc), false)
  | .thinkingStartedEatingWhitespace =>
    let trimmed := trimLeft s.acc
    if trimmed = [] then ({ s with acc := [] }, ([], []), false)
    else ({ s with acc := trimmed, state := .thinking }, ([], []), true)
  | .thinking =>
    match cut s.closingTag s.acc with
    | some (thinking, rest) =>
      let remaining := trimLeft rest
      ({ s with
          acc := []
          state := if remaining = [] then .thinkingDoneEatingWhitespace else .thinkingDone },
        (thinking, remaining), false)
    | none =>
      if 0 < overlap s.acc s.closingTag then
        ({ s with acc := held s.closingTag s.acc }, (sent s.closingTag s.acc, []), false)
      else ({ s with acc := [] }, (s.acc, []), false)
  | .thinkingDoneEatingWhitespace =>
    let trimmed := trimLeft s.acc
    ({ s with acc := [], state := if trimmed = [] then s.state else .thinkingDone },
      ([], trimmed), false)
  | .thinkingDone => ({ s with acc := [] }, ([], s.acc), false)

/-- How often the parser may still go on. -/
def State.rank : State → Nat
  | .lookingForOpening => 2
  | .thinkingStartedEatingWhitespace => 1
  | _ => 0

theorem eat_rank {s : Parser} (h : (eat s).2.2 = true) :
    (eat s).1.state.rank < s.state.rank := by
  cases hstate : s.state with
  | lookingForOpening =>
    simp only [eat, hstate] at h ⊢
    split at h
    · rename_i hprefix
      rw [if_pos hprefix]
      simp only
      split <;> decide
    · split at h
      · cases h
      · split at h <;> cases h
  | thinkingStartedEatingWhitespace =>
    simp only [eat, hstate] at h ⊢
    split at h
    · cases h
    · rename_i hne
      rw [if_neg hne]
      exact Nat.zero_lt_one
  | thinking =>
    simp only [eat, hstate] at h
    split at h
    · cases h
    · split at h <;> cases h
  | thinkingDoneEatingWhitespace =>
    simp only [eat, hstate] at h
    cases h
  | thinkingDone =>
    simp only [eat, hstate] at h
    cases h

/-- The loop of `AddContent`. -/
def eatAll (s : Parser) : Parser × Output :=
  if (eat s).2.2 = true then
    ((eatAll (eat s).1).1, (eat s).2.1.append (eatAll (eat s).1).2)
  else ((eat s).1, (eat s).2.1)
termination_by s.state.rank
decreasing_by all_goals exact eat_rank ‹_›

def addContent (s : Parser) (content : List Char) : Parser × Output :=
  eatAll { s with acc := s.acc ++ content }

/-- The output of `AddContent` on chunks. -/
def addChunks (s : Parser) (chunks : List (List Char)) : Parser × Output :=
  runChunks Output.append ([], []) addContent s chunks

/-! ## Two chunks -/

theorem Output.append_nil (o : Output) : o.append ([], []) = o := by
  rw [Output.append, List.append_nil, List.append_nil]

theorem Output.nil_append (o : Output) : Output.append ([], []) o = o := rfl

theorem eatAll_of_stop {s : Parser} (h : (eat s).2.2 = false) :
    eatAll s = ((eat s).1, (eat s).2.1) := by
  rw [eatAll, if_neg (by rw [h]; exact Bool.false_ne_true)]

theorem eatAll_of_go {s : Parser} (h : (eat s).2.2 = true) :
    eatAll s = ((eatAll (eat s).1).1, (eat s).2.1.append (eatAll (eat s).1).2) := by
  rw [eatAll, if_pos h]

section

variable (o c acc y : List Char)

theorem addContent_mk (state : State) :
    addContent ⟨state, o, c, acc⟩ y = eatAll ⟨state, o, c, acc ++ y⟩ := rfl

theorem eatAll_thinkingDone :
    eatAll ⟨.thinkingDone, o, c, acc⟩ = (⟨.thinkingDone, o, c, []⟩, ([], acc)) :=
  eatAll_of_stop rfl

theorem eatAll_doneEating : eatAll ⟨.thinkingDoneEatingWhitespace, o, c, acc⟩ =
    (⟨if trimLeft acc = [] then .thinkingDoneEatingWhitespace else .thinkingDone, o, c, []⟩,
      ([], trimLeft acc)) :=
  eatAll_of_stop rfl

theorem eatAll_thinking : eatAll ⟨.thinking, o, c, acc⟩ =
    match cut c acc with
    | some (thinking, rest) =>
      (⟨if trimLeft rest = [] then .thinkingDoneEatingWhitespace else .thinkingDone, o, c, []⟩,
        (thinking, trimLeft rest))
    | none => (⟨.thinking, o, c, held c acc⟩, (sent c acc, [])) := by
  have hstop : (eat ⟨.thinking, o, c, acc⟩).2.2 = false := by
    simp only [eat]
    split
    · rfl
    · split <;> rfl
  rw [eatAll_of_stop hstop]
  simp only [eat]
  split
  · rfl
  · split
    · rfl
    · rename_i hzero
      have hoverlap : overlap acc c = 0 := Nat.eq_zero_of_not_pos hzero
      have hheld : held c acc = [] := List.length_eq_zero_iff.mp ((length_held c acc).trans hoverlap)
      have hsent := sent_append_held c acc
      rw [hheld, List.append_nil] at hsent
      rw [hheld, hsent]

theorem eatAll_started : eatAll ⟨.thinkingStartedEatingWhitespace, o, c, acc⟩ =
    if trimLeft acc = [] then (⟨.thinkingStartedEatingWhitespace, o, c, []⟩, ([], []))
    else eatAll ⟨.thinking, o, c, trimLeft acc⟩ := by
  split
  · rename_i htrim
    have heat : eat ⟨.thinkingStartedEatingWhitespace, o, c, acc⟩ =
        (⟨.thinkingStartedEatingWhitespace, o, c, []⟩, ([], []), false) := by
      simp only [eat, htrim, if_true]
    rw [eatAll_of_stop (by rw [heat]), heat]
  · rename_i htrim
    have heat : eat ⟨.thinkingStartedEatingWhitespace, o, c, acc⟩ =
        (⟨.thinking, o, c, trimLeft acc⟩, ([], []), true) := by
      simp only [eat, htrim, if_false]
    rw [eatAll_of_go (by rw [heat]), heat]
    rfl

/-- Behind the opening tag the parser eats blanks; before it, it keeps what may be the tag. -/
theorem eatAll_looking : eatAll ⟨.lookingForOpening, o, c, acc⟩ =
    if o <+: trimLeft acc then
      eatAll ⟨.thinkingStartedEatingWhitespace, o, c, (trimLeft acc).drop o.length⟩
    else if trimLeft acc <+: o then (⟨.lookingForOpening, o, c, acc⟩, ([], []))
    else (⟨.thinkingDone, o, c, []⟩, ([], acc)) := by
  split
  · rename_i hopening
    generalize hafter : (trimLeft acc).drop o.length = after
    have heat : eat ⟨.lookingForOpening, o, c, acc⟩ =
        (⟨if trimLeft after = [] then .thinkingStartedEatingWhitespace else .thinking, o, c,
          trimLeft after⟩, ([], []), true) := by
      simp only [eat, hopening, if_true, hafter]
    rw [eatAll_of_go (by rw [heat]), heat, eatAll_started]
    simp only
    split
    · rename_i htrim
      rw [htrim, eatAll_started, if_pos (by rfl)]
      rfl
    · rfl
  · rename_i hopening
    split
    · rename_i hpartial
      have heat : eat ⟨.lookingForOpening, o, c, acc⟩ =
          (⟨.lookingForOpening, o, c, acc⟩, ([], []), false) := by
        simp only [eat, hopening, hpartial, if_true, if_false]
      rw [eatAll_of_stop (by rw [heat]), heat]
    · rename_i hpartial
      have hne : trimLeft acc ≠ [] := fun hnil => hpartial (hnil ▸ List.nil_prefix)
      have heat : eat ⟨.lookingForOpening, o, c, acc⟩ =
          (⟨.thinkingDone, o, c, []⟩, ([], acc), false) := by
        simp only [eat, hopening, hpartial, hne, if_false]
      rw [eatAll_of_stop (by rw [heat]), heat]

/-- What comes next gives the same as if it had been there before. -/
def Continues (s : Parser) (y : List Char) : Prop :=
  addContent s y = ((addContent (eatAll s).1 y).1, (eatAll s).2.append (addContent (eatAll s).1 y).2)

theorem continues_thinkingDone : Continues ⟨.thinkingDone, o, c, acc⟩ y := by
  rw [Continues, eatAll_thinkingDone, addContent_mk, addContent_mk, eatAll_thinkingDone,
    eatAll_thinkingDone]
  rfl

theorem continues_doneEating : Continues ⟨.thinkingDoneEatingWhitespace, o, c, acc⟩ y := by
  rw [Continues, eatAll_doneEating, addContent_mk, addContent_mk, eatAll_doneEating]
  by_cases htrim : trimLeft acc = []
  · have hboth : trimLeft (acc ++ y) = trimLeft y := by
      rw [trimLeft_append, htrim, List.nil_append]
    rw [hboth, htrim, if_pos rfl, eatAll_doneEating]
    rfl
  · have hboth := trimLeft_append_of_ne htrim y
    have hne : trimLeft acc ++ y ≠ [] := List.append_ne_nil_of_left_ne_nil htrim y
    rw [hboth, if_neg htrim, if_neg hne, eatAll_thinkingDone]
    rfl

theorem continues_thinking : Continues ⟨.thinking, o, c, acc⟩ y := by
  rw [Continues, addContent_mk, eatAll_thinking, eatAll_thinking]
  cases hcut : cut c acc with
  | some p =>
    obtain ⟨thinking, rest⟩ := p
    simp only [cut_append hcut]
    -- behind the tag the parser is one that eats blanks
    have hnext := continues_doneEating o c rest y
    rw [Continues, eatAll_doneEating, addContent_mk, eatAll_doneEating] at hnext
    obtain ⟨hparser, houtput⟩ := Prod.mk.inj hnext
    obtain ⟨hfirst, hsecond⟩ := Prod.mk.inj houtput
    rw [hparser, hsecond]
    refine congrArg (Prod.mk _) (Prod.ext ?_ rfl)
    rw [List.nil_append] at hfirst
    show thinking = thinking ++ _
    rw [← hfirst, List.append_nil]
  | none =>
    simp only [addContent_mk]
    rw [eatAll_thinking, cut_held hcut]
    cases hrest : cut c (held c acc ++ y) with
    | some p =>
      obtain ⟨thinking, rest⟩ := p
      rfl
    | none =>
      simp only [Option.map_none, held_append c acc y, sent_append c acc y]
      rfl

theorem continues_started : Continues ⟨.thinkingStartedEatingWhitespace, o, c, acc⟩ y := by
  rw [Continues, addContent_mk, eatAll_started, eatAll_started]
  by_cases htrim : trimLeft acc = []
  · have hboth : trimLeft (acc ++ y) = trimLeft y := by
      rw [trimLeft_append, htrim, List.nil_append]
    rw [if_pos htrim, addContent_mk, eatAll_started, hboth]
    rfl
  · have hboth := trimLeft_append_of_ne htrim y
    have hne : trimLeft acc ++ y ≠ [] := List.append_ne_nil_of_left_ne_nil htrim y
    rw [hboth, if_neg htrim, if_neg hne]
    exact continues_thinking o c (trimLeft acc) y

theorem continues_looking : Continues ⟨.lookingForOpening, o, c, acc⟩ y := by
  rw [Continues, addContent_mk, eatAll_looking, eatAll_looking]
  by_cases hopening : o <+: trimLeft acc
  · have hnext := continues_started o c ((trimLeft acc).drop o.length) y
    rw [Continues, addContent_mk] at hnext
    rw [if_pos hopening, ← hnext]
    by_cases htrim : trimLeft acc = []
    · -- the opening tag is empty
      obtain rfl : o = [] := List.prefix_nil.mp (htrim ▸ hopening)
      rw [if_pos List.nil_prefix, htrim, trimLeft_append, htrim, eatAll_started, eatAll_started]
      simp only [List.length_nil, List.drop_zero, List.nil_append, trimLeft_trimLeft]
    · have hboth := trimLeft_append_of_ne htrim y
      rw [hboth, if_pos (hopening.trans (List.prefix_append _ y)),
        List.drop_append_of_le_length hopening.length_le]
  · rw [if_neg hopening]
    by_cases hpartial : trimLeft acc <+: o
    · rw [if_pos hpartial, addContent_mk, eatAll_looking]
      rfl
    · have htrim : trimLeft acc ≠ [] := fun hnil => hpartial (hnil ▸ List.nil_prefix)
      have hboth := trimLeft_append_of_ne htrim y
      have hopening' : ¬o <+: trimLeft acc ++ y := fun hprefix =>
        (List.prefix_or_prefix_of_prefix hprefix (List.prefix_append _ y)).elim hopening hpartial
      have hpartial' : ¬trimLeft acc ++ y <+: o := fun hprefix =>
        hpartial ((List.prefix_append _ y).trans hprefix)
      rw [if_neg hpartial, hboth, if_neg hopening', if_neg hpartial', addContent_mk,
        eatAll_thinkingDone]
      rfl

end

theorem continues (s : Parser) (y : List Char) : Continues s y := by
  obtain ⟨state, o, c, acc⟩ := s
  cases state with
  | lookingForOpening => exact continues_looking o c acc y
  | thinkingStartedEatingWhitespace => exact continues_started o c acc y
  | thinking => exact continues_thinking o c acc y
  | thinkingDoneEatingWhitespace => exact continues_doneEating o c acc y
  | thinkingDone => exact continues_thinkingDone o c acc y

/-- Two chunks give what both in one give. -/
theorem addContent_append (s : Parser) (x y : List Char) : addContent s (x ++ y) =
    ((addContent (addContent s x).1 y).1,
      (addContent s x).2.append (addContent (addContent s x).1 y).2) := by
  have h := continues { s with acc := s.acc ++ x } y
  rw [Continues, addContent_mk, List.append_assoc] at h
  exact h

/-- A parser before the first chunk. -/
def newParser (openingTag closingTag : List Char) : Parser :=
  ⟨.lookingForOpening, openingTag, closingTag, []⟩

/-- Thinking and content do not depend on how the text was cut. -/
theorem thinking_chunks (openingTag closingTag : List Char) (chunks : List (List Char)) :
    (addChunks (newParser openingTag closingTag) chunks).2 =
      (addContent (newParser openingTag closingTag) chunks.flatten).2 := by
  by_cases hchunks : chunks = []
  · subst hchunks
    rw [List.flatten_nil, newParser, addContent_mk, List.append_nil, eatAll_looking]
    split
    · have htrim : trimLeft [] = [] := rfl
      rw [htrim, List.drop_nil, eatAll_started, if_pos htrim]
      rfl
    · rfl
  · exact congrArg Prod.snd (runChunks_eq Output.append_nil addContent_append _ hchunks)

/-- A closing tag in three chunks, with blanks around it. -/
example : (addChunks (newParser "<think>".toList "</think>".toList)
    ["<thi".toList, "nk> a </th".toList, "ink>".toList, " b".toList]).2 =
      ("a ".toList, "b".toList) := by
  decide +kernel

end Prismalama.Thinking
