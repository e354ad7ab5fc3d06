import Prismalama.Lib.TagStream

/-!
# Harmony messages in a stream (`harmony/harmonyparser.go`)

The parser turns the output of a model into messages with headers, and gives events. When
adjacent contents are put together, the events do not depend on how the output was cut into
chunks (`addContent_chunks`), and neither do the texts of the message handler
(`handler_chunks`). A text is a list of runes: chunks are cut between runes.
-/

namespace Prismalama.Harmony

open Prismalama.Lib

inductive State
  | lookingForMessageStart
  | parsingHeader
  | parsingContent
  deriving DecidableEq

/-- Tags are not empty. -/
structure Tags where
  messageStart : List Char
  messageEnd : List Char
  headerEnd : List Char
  messageStart_ne : messageStart ≠ []
  messageEnd_ne : messageEnd ≠ []
  headerEnd_ne : headerEnd ≠ []

/-- The tags of `NewHarmonyMessageHandler`. -/
def harmonyTags : Tags where
  messageStart := "<|start|>".toList
  messageEnd := "<|end|>".toList
  headerEnd := "<|message|>".toList
  messageStart_ne := by decide
  messageEnd_ne := by decide
  headerEnd_ne := by decide

structure Parser where
  state : State
  acc : List Char

structure Header where
  role : List Char
  channel : List Char
  recipient : List Char
  deriving DecidableEq

inductive Event
  | messageStart
  | headerComplete (header : Header)
  | contentEmitted (content : List Char)
  | messageEnd
  deriving DecidableEq

/-! ## Headers -/

/-- `strings.Fields` -/
def fields (s : List Char) : List (List Char) :=
  (s.splitOnP isSpace).filter (· ≠ [])

/-- The channel, and the header without it. -/
def splitChannel (raw : List Char) : List Char × List Char :=
  match cut "<|channel|>".toList raw with
  | some (before, after) =>
    (after.takeWhile fun c => !isSpace c, trimSpace (before ++ after.dropWhile fun c => !isSpace c))
  | none => ([], raw)

def parseHeader (raw : List Char) : Header :=
  let raw :=
    match cut "<|constrain|>".toList raw with
    | some (before, after) => trimSpace (before ++ " <|constrain|>".toList ++ after)
    | none => raw
  let (channel, raw) := splitChannel raw
  match fields raw with
  | [] => { role := [], channel := channel, recipient := [] }
  | role :: tokens =>
    let toRole := "to=".toList.isPrefixOf role
    let recipient := if toRole then role.drop 3 else []
    { role := if toRole then "tool".toList else role
      channel := channel
      recipient :=
        match tokens with
        | token :: _ =>
          if recipient = [] ∧ "to=".toList.isPrefixOf token then token.drop 3 else recipient
        | [] => recipient }

/-! ## Events -/

/-- The content, if there is any. -/
def emitted (content : List Char) : List Event :=
  if content = [] then [] else [.contentEmitted content]

variable (tags : Tags)

/-- `eat`, and whether to go on -/
def eat (s : Parser) : Parser × List Event × Bool :=
  match s.state with
  | .lookingForMessageStart =>
    match cut tags.messageStart s.acc with
    | some (_, after) => (⟨.parsingHeader, after⟩, [.messageStart], true)
    | none => (s, [], false)
  | .parsingHeader =>
    match cut tags.headerEnd s.acc with
    | some (header, after) => (⟨.parsingContent, after⟩, [.headerComplete (parseHeader header)], true)
    | none => (s, [], false)
  | .parsingContent =>
    match cut tags.messageEnd s.acc with
    | some (content, after) =>
      (⟨.lookingForMessageStart, after⟩, emitted content ++ [.messageEnd], true)
    | none =>
      if 0 < overlap s.acc tags.messageEnd then
        (⟨.parsingContent, held tags.messageEnd s.acc⟩, emitted (sent tags.messageEnd s.acc), false)
      else if s.acc = [] then (s, [], false)
      else (⟨.parsingContent, []⟩, [.contentEmitted s.acc], false)

/-- With every tag the text gets shorter. -/
theorem eat_length {s : Parser} (h : (eat tags s).2.2 = true) :
    (eat tags s).1.acc.length < s.acc.length := by
  cases hstate : s.state with
  | lookingForMessageStart =>
    simp only [eat, hstate] at h ⊢
    split at h
    · exact length_of_cut tags.messageStart_ne ‹_›
    · cases h
  | parsingHeader =>
    simp only [eat, hstate] at h ⊢
    split at h
    · exact length_of_cut tags.headerEnd_ne ‹_›
    · cases h
  | parsingContent =>
    simp only [eat, hstate] at h ⊢
    split at h
    · exact length_of_cut tags.messageEnd_ne ‹_›
    · split at h
      · cases h
      · split at h <;> cases h

/-- The loop of `AddContent`. -/
def eatAll (s : Parser) : Parser × List Event :=
  if (eat tags s).2.2 = true then
    ((eatAll (eat tags s).1).1, (eat tags s).2.1 ++ (eatAll (eat tags s).1).2)
  else ((eat tags s).1, (eat tags s).2.1)
termination_by s.acc.length
decreasing_by all_goals exact eat_length tags ‹_›

def addContent (s : Parser) (content : List Char) : Parser × List Event :=
  eatAll tags ⟨s.state, s.acc ++ content⟩

/-- Events with adjacent contents put together. -/
def merge : List Event → List Event
  | [] => []
  | .contentEmitted a :: es =>
    match merge es with
    | .contentEmitted b :: rest => .contentEmitted (a ++ b) :: rest
    | rest => .contentEmitted a :: rest
  | e :: es => e :: merge es

/-- The events of `AddContent` on chunks. -/
def addChunks (s : Parser) (chunks : List (List Char)) : Parser × List Event :=
  runChunks (· ++ ·) [] (addContent tags) s chunks

/-! ## The message handler -/

inductive MessageState
  | normal
  | thinking
  | toolCalling
  deriving DecidableEq

/-- Where contents go, and the tool name of the tool parser. -/
structure Target where
  state : MessageState
  toolName : Option (List Char)
  deriving DecidableEq

/-- Content, thinking and tool content. -/
structure Texts where
  content : List Char
  thinking : List Char
  toolContent : List Char
  deriving DecidableEq

def Texts.empty : Texts := ⟨[], [], []⟩

def Texts.append (t t' : Texts) : Texts :=
  ⟨t.content ++ t'.content, t.thinking ++ t'.thinking, t.toolContent ++ t'.toolContent⟩

/-- The texts when `s` goes where the state says. -/
def Texts.of (state : MessageState) (s : List Char) : Texts :=
  match state with
  | .normal => ⟨s, [], []⟩
  | .thinking => ⟨[], s, []⟩
  | .toolCalling => ⟨[], [], s⟩

/-- What a complete header changes. -/
def Target.header (t : Target) (header : Header) : Target :=
  if header.channel = "analysis".toList then
    if header.recipient ≠ [] then ⟨.toolCalling, some header.recipient⟩
    else { t with state := .thinking }
  else if header.channel = "commentary".toList then
    if header.recipient ≠ [] then ⟨.toolCalling, some header.recipient⟩
    else { t with state := .normal }
  else if header.channel = "final".toList then { t with state := .normal }
  else t

/-- One event in the loop of the handler's `AddContent`. -/
def handle (t : Target) : Event → Target × Texts
  | .messageStart => (t, .empty)
  | .headerComplete header => (t.header header, .empty)
  | .contentEmitted content => (t, .of t.state content)
  | .messageEnd => ({ t with state := .normal }, .empty)

def handleAll (t : Target) : List Event → Target × Texts
  | [] => (t, .empty)
  | e :: es =>
    let rest := handleAll (handle t e).1 es
    (rest.1, (handle t e).2.append rest.2)

structure Handler where
  target : Target
  parser : Parser

def Handler.addContent (h : Handler) (content : List Char) : Handler × Texts :=
  let (parser, events) := Harmony.addContent harmonyTags h.parser content
  let (target, texts) := handleAll h.target events
  (⟨target, parser⟩, texts)

/-- The handler's texts, accumulated over chunks. -/
def Handler.addChunks (h : Handler) (chunks : List (List Char)) : Handler × Texts :=
  runChunks Texts.append .empty Handler.addContent h chunks

/-! ## Events, rune by rune -/

/-- Events with one rune in each content. -/
def expand : List Event → List Event
  | [] => []
  | .contentEmitted s :: es => s.map (fun c => .contentEmitted [c]) ++ expand es
  | e :: es => e :: expand es

theorem expand_append (es es' : List Event) : expand (es ++ es') = expand es ++ expand es' := by
  induction es with
  | nil => rfl
  | cons e es ih => cases e <;> simp only [List.cons_append, expand, ih, List.append_assoc]

theorem expand_emitted (s : List Char) :
    expand (emitted s) = s.map fun c => .contentEmitted [c] := by
  rw [emitted]
  split
  · rename_i hnil
    rw [hnil]
    rfl
  · exact List.append_nil _

/-- No content is empty. -/
def Full (es : List Event) : Prop := .contentEmitted [] ∉ es

theorem full_emitted (s : List Char) : Full (emitted s) := by
  rw [emitted]
  split
  · exact List.not_mem_nil
  · rename_i hne
    intro hmem
    exact hne (Event.contentEmitted.inj (List.mem_singleton.mp hmem)).symm

theorem Full.append {es es' : List Event} (h : Full es) (h' : Full es') : Full (es ++ es') :=
  fun hmem => (List.mem_append.mp hmem).elim h h'

/-- A content in front, put together with the one behind it. -/
def mergeContent (s : List Char) : List Event → List Event
  | .contentEmitted b :: rest => .contentEmitted (s ++ b) :: rest
  | rest => .contentEmitted s :: rest

theorem merge_content (s : List Char) (es : List Event) :
    merge (.contentEmitted s :: es) = mergeContent s (merge es) := by
  rw [merge]
  split <;> simp_all [mergeContent]

theorem mergeContent_append (s t : List Char) (es : List Event) :
    mergeContent s (mergeContent t es) = mergeContent (s ++ t) es := by
  cases es with
  | nil => rfl
  | cons e es => cases e <;> simp only [mergeContent, List.append_assoc]

theorem merge_runes (c : Char) (s : List Char) (es : List Event) :
    merge ((c :: s).map (fun c => .contentEmitted [c]) ++ es) = mergeContent (c :: s) (merge es) := by
  induction s generalizing c with
  | nil => exact merge_content [c] es
  | cons d s ih =>
    rw [List.map_cons, List.cons_append, merge_content, ih, mergeContent_append]
    rfl

/-- Contents put together are made of their runes. -/
theorem merge_expand {es : List Event} (h : Full es) : merge (expand es) = merge es := by
  induction es with
  | nil => rfl
  | cons e es ih =>
    have hrest : Full es := fun hmem => h (List.mem_cons_of_mem e hmem)
    cases e with
    | contentEmitted s =>
      cases s with
      | nil => exact absurd (List.mem_cons_self ..) h
      | cons c s => rw [expand, merge_runes, ih hrest, merge_content]
    | messageStart => rw [expand, merge, merge, ih hrest] <;> simp
    | headerComplete header => rw [expand, merge, merge, ih hrest] <;> simp
    | messageEnd => rw [expand, merge, merge, ih hrest] <;> simp

/-! ## Two chunks -/

/-- A run of the loop, with the events rune by rune. -/
def run (s : Parser) : Parser × List Event := ((eatAll tags s).1, expand (eatAll tags s).2)

theorem run_of_stop {s s' : Parser} {es : List Event} (h : eat tags s = (s', es, false)) :
    run tags s = (s', expand es) := by
  rw [run, eatAll, h]
  rfl

theorem run_of_go {s s' : Parser} {es : List Event} (h : eat tags s = (s', es, true)) :
    run tags s = ((run tags s').1, expand es ++ (run tags s').2) := by
  rw [run, eatAll, h, if_pos rfl, expand_append]
  rfl

section

variable {tags}
variable {acc a b : List Char}

theorem run_start_some (h : cut tags.messageStart acc = some (a, b)) :
    run tags ⟨.lookingForMessageStart, acc⟩ =
      ((run tags ⟨.parsingHeader, b⟩).1, .messageStart :: (run tags ⟨.parsingHeader, b⟩).2) := by
  have heat : eat tags ⟨.lookingForMessageStart, acc⟩ =
      (⟨.parsingHeader, b⟩, [.messageStart], true) := by
    simp only [eat, h]
  exact run_of_go tags heat

theorem run_start_none (h : cut tags.messageStart acc = none) :
    run tags ⟨.lookingForMessageStart, acc⟩ = (⟨.lookingForMessageStart, acc⟩, []) := by
  have heat : eat tags ⟨.lookingForMessageStart, acc⟩ =
      (⟨.lookingForMessageStart, acc⟩, [], false) := by
    simp only [eat, h]
  exact run_of_stop tags heat

theorem run_header_some (h : cut tags.headerEnd acc = some (a, b)) :
    run tags ⟨.parsingHeader, acc⟩ = ((run tags ⟨.parsingContent, b⟩).1,
      .headerComplete (parseHeader a) :: (run tags ⟨.parsingContent, b⟩).2) := by
  have heat : eat tags ⟨.parsingHeader, acc⟩ =
      (⟨.parsingContent, b⟩, [.headerComplete (parseHeader a)], true) := by
    simp only [eat, h]
  exact run_of_go tags heat

theorem run_header_none (h : cut tags.headerEnd acc = none) :
    run tags ⟨.parsingHeader, acc⟩ = (⟨.parsingHeader, acc⟩, []) := by
  have heat : eat tags ⟨.parsingHeader, acc⟩ = (⟨.parsingHeader, acc⟩, [], false) := by
    simp only [eat, h]
  exact run_of_stop tags heat

theorem run_content_some (h : cut tags.messageEnd acc = some (a, b)) :
    run tags ⟨.parsingContent, acc⟩ = ((run tags ⟨.lookingForMessageStart, b⟩).1,
      a.map (fun c => .contentEmitted [c]) ++
        .messageEnd :: (run tags ⟨.lookingForMessageStart, b⟩).2) := by
  have heat : eat tags ⟨.parsingContent, acc⟩ =
      (⟨.lookingForMessageStart, b⟩, emitted a ++ [.messageEnd], true) := by
    simp only [eat, h]
  rw [run_of_go tags heat, expand_append, expand_emitted, List.append_assoc]
  rfl

/-- Without the end of the message, all but what may be its start is given out. -/
theorem run_content_none (h : cut tags.messageEnd acc = none) :
    run tags ⟨.parsingContent, acc⟩ = (⟨.parsingContent, held tags.messageEnd acc⟩,
      (sent tags.messageEnd acc).map fun c => .contentEmitted [c]) := by
  have heat : eat tags ⟨.parsingContent, acc⟩ =
      (⟨.parsingContent, held tags.messageEnd acc⟩, emitted (sent tags.messageEnd acc), false) := by
    simp only [eat, h]
    split
    · rfl
    · rename_i hzero
      have hheld : held tags.messageEnd acc = [] :=
        List.length_eq_zero_iff.mp ((length_held _ _).trans (Nat.eq_zero_of_not_pos hzero))
      have hsent := sent_append_held tags.messageEnd acc
      rw [hheld, List.append_nil] at hsent
      rw [hheld, hsent]
      split
      · rename_i hnil
        rw [hnil]
        rfl
      · rename_i hne
        rw [emitted, if_neg hne]
  rw [run_of_stop tags heat, expand_emitted]

end

/-- What comes next gives the same as if it had been there before. -/
theorem run_append (state : State) (acc y : List Char) : run tags ⟨state, acc ++ y⟩ =
    ((run tags ⟨(run tags ⟨state, acc⟩).1.state, (run tags ⟨state, acc⟩).1.acc ++ y⟩).1,
      (run tags ⟨state, acc⟩).2 ++
        (run tags ⟨(run tags ⟨state, acc⟩).1.state, (run tags ⟨state, acc⟩).1.acc ++ y⟩).2) := by
  -- on the length of what is there: with every tag it gets shorter
  induction hlen : acc.length using Nat.strong_induction_on generalizing state acc with
  | _ n ih =>
    subst hlen
    cases state with
    | lookingForMessageStart =>
      cases hcut : cut tags.messageStart acc with
      | none => rw [run_start_none hcut, List.nil_append]
      | some p =>
        rw [run_start_some (cut_append hcut y), run_start_some hcut,
          ih _ (length_of_cut tags.messageStart_ne hcut) _ _ rfl, List.cons_append]
    | parsingHeader =>
      cases hcut : cut tags.headerEnd acc with
      | none => rw [run_header_none hcut, List.nil_append]
      | some p =>
        rw [run_header_some (cut_append hcut y), run_header_some hcut,
          ih _ (length_of_cut tags.headerEnd_ne hcut) _ _ rfl, List.cons_append]
    | parsingContent =>
      cases hcut : cut tags.messageEnd acc with
      | some p =>
        rw [run_content_some (cut_append hcut y), run_content_some hcut,
          ih _ (length_of_cut tags.messageEnd_ne hcut) _ _ rfl, List.append_assoc, List.cons_append]
      | none =>
        rw [run_content_none hcut]
        cases hrest : cut tags.messageEnd (held tags.messageEnd acc ++ y) with
        | some p =>
          have hboth := cut_held hcut y
          rw [hrest] at hboth
          rw [run_content_some hboth, run_content_some hrest, List.map_append, List.append_assoc]
        | none =>
          have hboth := cut_held hcut y
          rw [hrest] at hboth
          rw [run_content_none hboth, run_content_none hrest, held_append, sent_append,
            List.map_append]

/-- `AddContent`, with the events rune by rune. -/
def addRunes (s : Parser) (content : List Char) : Parser × List Event :=
  ((addContent tags s content).1, expand (addContent tags s content).2)

theorem addRunes_append (s : Parser) (x y : List Char) : addRunes tags s (x ++ y) =
    ((addRunes tags (addRunes tags s x).1 y).1,
      (addRunes tags s x).2 ++ (addRunes tags (addRunes tags s x).1 y).2) := by
  have h := run_append tags s.state (s.acc ++ x) y
  rw [List.append_assoc] at h
  exact h

theorem expand_addChunks (s : Parser) (chunks : List (List Char)) :
    expand (addChunks tags s chunks).2 = (runChunks (· ++ ·) [] (addRunes tags) s chunks).2 := by
  induction chunks generalizing s with
  | nil => rfl
  | cons chunk chunks ih =>
    show expand (_ ++ (addChunks tags _ chunks).2) = _
    rw [expand_append, ih]
    rfl

theorem full_eat (s : Parser) : Full (eat tags s).2.1 := by
  cases hstate : s.state with
  | lookingForMessageStart =>
    simp only [eat, hstate]
    split <;> simp [Full]
  | parsingHeader =>
    simp only [eat, hstate]
    split <;> simp [Full]
  | parsingContent =>
    simp only [eat, hstate]
    split
    · exact (full_emitted _).append (by simp [Full])
    · split
      · exact full_emitted _
      · split
        · simp [Full]
        · rename_i hne
          simpa [Full] using Ne.symm hne

theorem full_eatAll (s : Parser) : Full (eatAll tags s).2 := by
  fun_induction eatAll tags s with
  | case1 s hgo ih => exact (full_eat tags s).append ih
  | case2 s hstop => exact full_eat tags s

theorem full_addChunks (s : Parser) (chunks : List (List Char)) :
    Full (addChunks tags s chunks).2 := by
  induction chunks generalizing s with
  | nil => exact List.not_mem_nil
  | cons chunk chunks ih => exact (full_eatAll tags _).append (ih _)

theorem expand_chunks (s : Parser) (chunk : List Char) (chunks : List (List Char)) :
    expand (addChunks tags s (chunk :: chunks)).2 =
      expand (addContent tags s (chunk :: chunks).flatten).2 := by
  rw [expand_addChunks, runChunks_eq List.append_nil (addRunes_append tags) s (List.cons_ne_nil _ _)]
  rfl

/-- The events do not depend on how the text was cut. -/
theorem merge_chunks (s : Parser) (chunk : List Char) (chunks : List (List Char)) :
    merge (addChunks tags s (chunk :: chunks)).2 =
      merge (addContent tags s (chunk :: chunks).flatten).2 := by
  have hfull : Full (addContent tags s (chunk :: chunks).flatten).2 := full_eatAll tags _
  rw [← merge_expand (full_addChunks tags s _), ← merge_expand hfull, expand_chunks]

/-! ## The handler's texts -/

theorem Texts.append_empty (t : Texts) : t.append .empty = t := by
  simp only [Texts.append, Texts.empty, List.append_nil]

theorem Texts.empty_append (t : Texts) : Texts.empty.append t = t := rfl

theorem Texts.append_assoc (t t' t'' : Texts) :
    (t.append t').append t'' = t.append (t'.append t'') := by
  simp only [Texts.append, List.append_assoc]

theorem handleAll_append (t : Target) (es es' : List Event) : handleAll t (es ++ es') =
    ((handleAll (handleAll t es).1 es').1,
      (handleAll t es).2.append (handleAll (handleAll t es).1 es').2) := by
  induction es generalizing t with
  | nil => rfl
  | cons e es ih => simp only [List.cons_append, handleAll, ih, Texts.append_assoc]

theorem handleAll_runes (t : Target) (s : List Char) :
    handleAll t (s.map fun c => .contentEmitted [c]) = (t, .of t.state s) := by
  induction s with
  | nil =>
    cases h : t.state <;> rfl
  | cons c s ih =>
    rw [List.map_cons, handleAll, handle, ih]
    cases h : t.state <;> rfl

theorem handleAll_expand (t : Target) (es : List Event) :
    handleAll t (expand es) = handleAll t es := by
  induction es generalizing t with
  | nil => rfl
  | cons e es ih =>
    cases e with
    | contentEmitted s => rw [expand, handleAll_append, handleAll_runes, handleAll, handle, ih]
    | messageStart =>
      rw [expand, handleAll, handleAll, ih]
      simp
    | headerComplete header =>
      rw [expand, handleAll, handleAll, ih]
      simp
    | messageEnd =>
      rw [expand, handleAll, handleAll, ih]
      simp

theorem Handler.addContent_append (h : Handler) (x y : List Char) : h.addContent (x ++ y) =
    (((h.addContent x).1.addContent y).1,
      (h.addContent x).2.append ((h.addContent x).1.addContent y).2) := by
  have happend := addRunes_append harmonyTags h.parser x y
  obtain ⟨hparser, hevents⟩ := Prod.mk.inj happend
  have hhandle := handleAll_append h.target (Harmony.addContent harmonyTags h.parser x).2
    (Harmony.addContent harmonyTags (Harmony.addContent harmonyTags h.parser x).1 y).2
  rw [← handleAll_expand, expand_append] at hhandle
  have hboth : handleAll h.target (Harmony.addContent harmonyTags h.parser (x ++ y)).2 = _ :=
    (handleAll_expand _ _).symm.trans ((congrArg (handleAll h.target) hevents).trans hhandle)
  obtain ⟨htarget, htexts⟩ := Prod.mk.inj hboth
  exact Prod.ext (congrArg₂ Handler.mk htarget hparser) htexts

/-- The events, with contents put together, and the texts of the handler and its tool name do
not depend on how the text was cut. -/
theorem addContent_chunks (s : Parser) (h : Handler) (chunk : List Char)
    (chunks : List (List Char)) :
    merge (addChunks tags s (chunk :: chunks)).2 =
        merge (addContent tags s (chunk :: chunks).flatten).2 ∧
      h.addChunks (chunk :: chunks) = h.addContent (chunk :: chunks).flatten :=
  ⟨merge_chunks tags s chunk chunks, runChunks_eq Texts.append_empty Handler.addContent_append h
    (List.cons_ne_nil _ _)⟩

end Prismalama.Harmony
