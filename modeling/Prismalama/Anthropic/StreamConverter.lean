import Mathlib.Data.List.TakeWhile
import Mathlib.Tactic

/-!
# Responses as a stream of events (`anthropic/anthropic.go`)

`StreamConverter.Process` turns each response of a model into events: blocks of thinking, of
text and of tool calls, with an index each. A client follows the events (`Phase.step`) and
refuses those that are out of order. The client gets through and nothing is lost, if and only
if each thinking, content and tool call may come where it comes (`process_faithful_iff`).
-/

namespace Prismalama.Anthropic

/-! ## Responses and events -/

variable {Args : Type}

structure ToolCall (Args : Type) where
  id : String
  name : String
  arguments : Args

/-- What `Process` reads of a `ChatResponse`. -/
structure ChatResponse (Args : Type) where
  thinking : List Char
  content : List Char
  toolCalls : List (ToolCall Args)
  done : Bool
  doneReason : String
  promptEvalCount : Int
  evalCount : Int

inductive ContentBlock
  | thinking
  | text
  | toolUse (id name : String)
  deriving DecidableEq

inductive Delta
  | thinkingDelta (thinking : List Char)
  | textDelta (text : List Char)
  | inputJSONDelta (partialJSON : String)
  deriving DecidableEq

inductive StreamEvent
  | messageStart (id model : String) (inputTokens : Int)
  | contentBlockStart (index : Nat) (block : ContentBlock)
  | contentBlockDelta (index : Nat) (delta : Delta)
  | contentBlockStop (index : Nat)
  | messageDelta (stopReason : String) (inputTokens outputTokens : Int)
  | messageStop
  deriving DecidableEq

structure StreamConverter where
  id : String
  model : String
  firstWrite : Bool
  contentIndex : Nat
  inputTokens : Int
  outputTokens : Int
  estimatedInputTokens : Int
  thinkingStarted : Bool
  thinkingDone : Bool
  textStarted : Bool
  /-- The ids whose calls were sent. -/
  toolCallsSent : List String

def newStreamConverter (id model : String) (estimatedInputTokens : Int) : StreamConverter where
  id := id
  model := model
  firstWrite := true
  contentIndex := 0
  inputTokens := 0
  outputTokens := 0
  estimatedInputTokens := estimatedInputTokens
  thinkingStarted := false
  thinkingDone := false
  textStarted := false
  toolCallsSent := []

def mapStopReason (reason : String) (hasToolCalls : Bool) : String :=
  if hasToolCalls then "tool_use"
  else if reason = "stop" then "end_turn"
  else if reason = "length" then "max_tokens"
  else if reason ≠ "" then "stop_sequence"
  else ""

/-! ## `Process` -/

/-- The first event. -/
def processStart (c : StreamConverter) (r : ChatResponse Args) :
    StreamConverter × List StreamEvent :=
  if c.firstWrite then
    let inputTokens :=
      if r.promptEvalCount = 0 ∧ c.estimatedInputTokens > 0 then c.estimatedInputTokens
      else r.promptEvalCount
    ({ c with firstWrite := false, inputTokens := inputTokens },
      [.messageStart c.id c.model inputTokens])
  else (c, [])

def processThinking (c : StreamConverter) (thinking : List Char) :
    StreamConverter × List StreamEvent :=
  if thinking ≠ [] ∧ c.thinkingDone = false then
    ({ c with thinkingStarted := true },
      (if c.thinkingStarted then [] else [.contentBlockStart c.contentIndex .thinking]) ++
        [.contentBlockDelta c.contentIndex (.thinkingDelta thinking)])
  else (c, [])

/-- The end of a thinking block that is still open. -/
def closeThinking (c : StreamConverter) : StreamConverter × List StreamEvent :=
  if c.thinkingStarted && !c.thinkingDone then
    ({ c with thinkingDone := true, contentIndex := c.contentIndex + 1 },
      [.contentBlockStop c.contentIndex])
  else (c, [])

/-- The end of a text block that is still open. -/
def closeText (c : StreamConverter) : StreamConverter × List StreamEvent :=
  if c.textStarted then
    ({ c with textStarted := false, contentIndex := c.contentIndex + 1 },
      [.contentBlockStop c.contentIndex])
  else (c, [])

def processContent (c : StreamConverter) (content : List Char) :
    StreamConverter × List StreamEvent :=
  if content ≠ [] then
    let (c, stop) := closeThinking c
    ({ c with textStarted := true },
      stop ++ (if c.textStarted then [] else [.contentBlockStart c.contentIndex .text]) ++
        [.contentBlockDelta c.contentIndex (.textDelta content)])
  else (c, [])

/-- One call of the loop; `marshal` is `json.Marshal`. -/
def processToolCall (marshal : Args → Option String) (c : StreamConverter) (tc : ToolCall Args) :
    StreamConverter × List StreamEvent :=
  if tc.id ∈ c.toolCallsSent then (c, [])
  else
    let (c, stopThinking) := closeThinking c
    let (c, stopText) := closeText c
    match marshal tc.arguments with
    | none => (c, stopThinking ++ stopText)
    | some argsJSON =>
      ({ c with toolCallsSent := tc.id :: c.toolCallsSent, contentIndex := c.contentIndex + 1 },
        stopThinking ++ stopText ++
          [.contentBlockStart c.contentIndex (.toolUse tc.id tc.name),
            .contentBlockDelta c.contentIndex (.inputJSONDelta argsJSON),
            .contentBlockStop c.contentIndex])

def processToolCalls (marshal : Args → Option String) :
    StreamConverter → List (ToolCall Args) → StreamConverter × List StreamEvent
  | c, [] => (c, [])
  | c, tc :: tcs =>
    let (c, es) := processToolCall marshal c tc
    let (c, es') := processToolCalls marshal c tcs
    (c, es ++ es')

/-- The last events. -/
def processDone (c : StreamConverter) (r : ChatResponse Args) :
    StreamConverter × List StreamEvent :=
  if r.done then
    let stop :=
      if c.textStarted then [.contentBlockStop c.contentIndex]
      else if c.thinkingStarted && !c.thinkingDone then [.contentBlockStop c.contentIndex]
      else []
    let c := { c with inputTokens := r.promptEvalCount, outputTokens := r.evalCount }
    let stopReason := mapStopReason r.doneReason (0 < c.toolCallsSent.length)
    (c, stop ++ [.messageDelta stopReason c.inputTokens c.outputTokens, .messageStop])
  else (c, [])

def process (marshal : Args → Option String) (c : StreamConverter) (r : ChatResponse Args) :
    StreamConverter × List StreamEvent :=
  let (c, start) := processStart c r
  let (c, thinking) := processThinking c r.thinking
  let (c, content) := processContent c r.content
  let (c, toolCalls) := processToolCalls marshal c r.toolCalls
  let (c, done) := processDone c r
  (c, start ++ thinking ++ content ++ toolCalls ++ done)

/-- The events of responses. -/
def processAll (marshal : Args → Option String) :
    StreamConverter → List (ChatResponse Args) → List StreamEvent
  | _, [] => []
  | c, r :: rs => (process marshal c r).2 ++ processAll marshal (process marshal c r).1 rs

/-! ## What a client makes of the events -/

/-- Where a client is: before the message, between blocks, in a block, or at the end. -/
inductive Phase
  | start
  | between (next : Nat)
  | inside (index : Nat) (block : ContentBlock)
  | ending
  | ended
  deriving DecidableEq

/-- Deltas of a block are of its type. -/
def ContentBlock.accepts : ContentBlock → Delta → Bool
  | .thinking, .thinkingDelta _ => true
  | .text, .textDelta _ => true
  | .toolUse _ _, .inputJSONDelta _ => true
  | _, _ => false

/-- One event, if it may come. -/
def Phase.step : Phase → StreamEvent → Option Phase
  | .start, .messageStart _ _ _ => some (.between 0)
  | .between next, .contentBlockStart index block =>
    if index = next then some (.inside index block) else none
  | .inside i block, .contentBlockDelta index delta =>
    if index = i ∧ block.accepts delta = true then some (.inside i block) else none
  | .inside i _, .contentBlockStop index => if index = i then some (.between (i + 1)) else none
  | .between _, .messageDelta _ _ _ => some .ending
  | .ending, .messageStop => some .ended
  | _, _ => none

def Phase.run : Phase → List StreamEvent → Option Phase
  | p, [] => some p
  | p, e :: es => (p.step e).bind fun p' => p'.run es

/-- The events are a whole message. -/
def WellFormed (es : List StreamEvent) : Prop := Phase.run .start es = some .ended

instance (es : List StreamEvent) : Decidable (WellFormed es) :=
  inferInstanceAs (Decidable (_ = _))

/-- The text of the `text_delta` events. -/
def textOf : List StreamEvent → List Char
  | [] => []
  | .contentBlockDelta _ (.textDelta text) :: es => text ++ textOf es
  | _ :: es => textOf es

/-- The text of the `thinking_delta` events. -/
def thinkingOf : List StreamEvent → List Char
  | [] => []
  | .contentBlockDelta _ (.thinkingDelta thinking) :: es => thinking ++ thinkingOf es
  | _ :: es => thinkingOf es

/-- The `tool_use` blocks. -/
def toolUses : List StreamEvent → List (String × String)
  | [] => []
  | .contentBlockStart _ (.toolUse id name) :: es => (id, name) :: toolUses es
  | _ :: es => toolUses es

/-- The inputs of the `tool_use` blocks, the latest first; a delta goes on with its block. -/
def readInput (inputs : List String) : StreamEvent → List String
  | .contentBlockStart _ (.toolUse _ _) => "" :: inputs
  | .contentBlockDelta _ (.inputJSONDelta partialJSON) =>
    match inputs with
    | [] => []
    | input :: before => (input ++ partialJSON) :: before
  | _ => inputs

/-- The input of each `tool_use` block. -/
def toolInputs (es : List StreamEvent) : List String := (es.foldl readInput []).reverse

/-! ## What responses contain -/

inductive Item (Args : Type)
  | thinking (s : List Char)
  | content (s : List Char)
  | toolCall (tc : ToolCall Args)

/-- What a response contains, in the order of `Process`. -/
def items (r : ChatResponse Args) : List (Item Args) :=
  (if r.thinking = [] then [] else [.thinking r.thinking]) ++
    (if r.content = [] then [] else [.content r.content]) ++ r.toolCalls.map .toolCall

/-- The id, if the item is a tool call. -/
def Item.id? : Item Args → Option String
  | .toolCall tc => some tc.id
  | _ => none

def Item.isThinking : Item Args → Bool
  | .thinking _ => true
  | _ => false

/-- Thinking may come first, behind thinking, and behind a tool call if there was no thinking
before. A tool call must have an id of its own and arguments that can be marshalled. -/
def Item.MayFollow (marshal : Args → Option String) (before : List (Item Args)) :
    Item Args → Prop
  | .thinking _ =>
    match before.getLast? with
    | none => True
    | some (.thinking _) => True
    | some (.content _) => False
    | some (.toolCall _) => ∀ x ∈ before, x.isThinking = false
  | .content _ => True
  | .toolCall tc => tc.id ∉ before.filterMap Item.id? ∧ marshal tc.arguments ≠ none

/-- The contents, thinkings and tool calls of responses. -/
def contents (rs : List (ChatResponse Args)) : List Char := (rs.map (·.content)).flatten

def thinkings (rs : List (ChatResponse Args)) : List Char := (rs.map (·.thinking)).flatten

def calls (rs : List (ChatResponse Args)) : List (String × String) :=
  (rs.map fun r => r.toolCalls.map fun tc => (tc.id, tc.name)).flatten

/-- The arguments of the tool calls, marshalled. -/
def marshalled (marshal : Args → Option String) (rs : List (ChatResponse Args)) :
    List (Option String) :=
  (rs.map fun r => r.toolCalls.map fun tc => marshal tc.arguments).flatten

/-- The items without the tool calls whose id a block has already. -/
def fresh (marshal : Args → Option String) : List String → List (Item Args) → List (Item Args)
  | _, [] => []
  | ids, .toolCall tc :: xs =>
    if tc.id ∈ ids then fresh marshal ids xs
    else .toolCall tc :: fresh marshal (if marshal tc.arguments = none then ids else tc.id :: ids) xs
  | ids, x :: xs => x :: fresh marshal ids xs

/-- The items before the first thinking. -/
def beforeThinking (xs : List (Item Args)) : List (Item Args) := xs.takeWhile fun x => !x.isThinking

/-- The first thinking, with what follows it at once. -/
def firstThinking (xs : List (Item Args)) : List (Item Args) :=
  (xs.dropWhile fun x => !x.isThinking).takeWhile Item.isThinking

/-- The items behind the first thinking, without further thinking. -/
def behindThinking (xs : List (Item Args)) : List (Item Args) :=
  ((xs.dropWhile fun x => !x.isThinking).dropWhile Item.isThinking).filter fun x => !x.isThinking

/-- The items that are sent: no tool call twice, and thinking in one place. -/
def sentItems (marshal : Args → Option String) (rs : List (ChatResponse Args)) :
    List (Item Args) :=
  let xs := fresh marshal [] (rs.map items).flatten
  beforeThinking xs ++ firstThinking xs ++ behindThinking xs

/-- Thinking starts while a block of text is open. -/
def StartsInText (marshal : Args → Option String) (rs : List (ChatResponse Args)) : Prop :=
  let xs := fresh marshal [] (rs.map items).flatten
  firstThinking xs ≠ [] ∧ ∃ s, (beforeThinking xs).getLast? = some (.content s)

def Item.thinkingText : Item Args → List Char
  | .thinking s => s
  | _ => []

/-- The block of a tool call, if its arguments can be marshalled. -/
def Item.toolUse (marshal : Args → Option String) : Item Args → List (String × String)
  | .toolCall tc => if marshal tc.arguments = none then [] else [(tc.id, tc.name)]
  | _ => []

/-- The input of that block. -/
def Item.input (marshal : Args → Option String) : Item Args → List String
  | .toolCall tc => (marshal tc.arguments).toList
  | _ => []

/-- The events are a whole message with all content, the thinking in one place, and a block
for each tool call with a new id and arguments that can be marshalled. -/
structure Sent (marshal : Args → Option String) (rs : List (ChatResponse Args))
    (es : List StreamEvent) : Prop where
  wellFormed : WellFormed es
  text : textOf es = contents rs
  thinking : thinkingOf es = ((sentItems marshal rs).map Item.thinkingText).flatten
  toolUse : toolUses es = ((sentItems marshal rs).map (Item.toolUse marshal)).flatten
  input : toolInputs es = ((sentItems marshal rs).map (Item.input marshal)).flatten

/-- The events are a whole message, and nothing is lost: each tool call has a block, and the
block has its arguments. -/
structure Faithful (marshal : Args → Option String) (rs : List (ChatResponse Args))
    (es : List StreamEvent) : Prop where
  wellFormed : WellFormed es
  text : textOf es = contents rs
  thinking : thinkingOf es = thinkings rs
  toolUse : toolUses es = calls rs
  input : (toolInputs es).map some = marshalled marshal rs

/-! ## Item by item -/

variable (marshal : Args → Option String)

def convert (c : StreamConverter) : Item Args → StreamConverter × List StreamEvent
  | .thinking s => processThinking c s
  | .content s => processContent c s
  | .toolCall tc => processToolCall marshal c tc

def convertAll : StreamConverter → List (Item Args) → StreamConverter × List StreamEvent
  | c, [] => (c, [])
  | c, x :: xs =>
    ((convertAll (convert marshal c x).1 xs).1,
      (convert marshal c x).2 ++ (convertAll (convert marshal c x).1 xs).2)

theorem convertAll_append (c : StreamConverter) (xs ys : List (Item Args)) :
    convertAll marshal c (xs ++ ys) = ((convertAll marshal (convertAll marshal c xs).1 ys).1,
      (convertAll marshal c xs).2 ++ (convertAll marshal (convertAll marshal c xs).1 ys).2) := by
  induction xs generalizing c with
  | nil => rfl
  | cons x xs ih => simp only [List.cons_append, convertAll, ih, List.append_assoc]

theorem processToolCalls_eq (c : StreamConverter) (tcs : List (ToolCall Args)) :
    processToolCalls marshal c tcs = convertAll marshal c (tcs.map .toolCall) := by
  induction tcs generalizing c with
  | nil => rfl
  | cons tc tcs ih => simp only [processToolCalls, List.map_cons, convertAll, convert, ih]

/-- A response is its first event, its items, and its last events. -/
theorem process_eq (c : StreamConverter) (r : ChatResponse Args) : process marshal c r =
    let converted := convertAll marshal (processStart c r).1 (items r)
    ((processDone converted.1 r).1,
      (processStart c r).2 ++ converted.2 ++ (processDone converted.1 r).2) := by
  have hthinking : ∀ c, processThinking c r.thinking =
      convertAll marshal c (if r.thinking = [] then [] else [.thinking r.thinking]) := by
    intro c
    split
    · rename_i hnil
      simp [processThinking, hnil, convertAll]
    · simp [convertAll, convert]
  have hcontent : ∀ c, processContent c r.content =
      convertAll marshal c (if r.content = [] then [] else [.content r.content]) := by
    intro c
    split
    · rename_i hnil
      simp [processContent, hnil, convertAll]
    · simp [convertAll, convert]
  simp only [process, hthinking, hcontent, processToolCalls_eq, items, convertAll_append,
    List.append_assoc]

theorem firstWrite_convert (c : StreamConverter) (x : Item Args) :
    (convert marshal c x).1.firstWrite = c.firstWrite := by
  have hclose : ∀ c, (closeThinking c).1.firstWrite = c.firstWrite := by
    intro c
    rw [closeThinking]
    split <;> rfl
  have hcloseText : ∀ c, (closeText c).1.firstWrite = c.firstWrite := by
    intro c
    rw [closeText]
    split <;> rfl
  cases x with
  | thinking s =>
    rw [convert, processThinking]
    split <;> rfl
  | content s =>
    rw [convert, processContent]
    split
    · exact hclose c
    · rfl
  | toolCall tc =>
    simp only [convert, processToolCall]
    split
    · rfl
    · split
      · exact (hcloseText _).trans (hclose c)
      · exact (hcloseText _).trans (hclose c)

theorem firstWrite_convertAll (c : StreamConverter) (xs : List (Item Args)) :
    (convertAll marshal c xs).1.firstWrite = c.firstWrite := by
  induction xs generalizing c with
  | nil => rfl
  | cons x xs ih => exact (ih _).trans (firstWrite_convert marshal c x)

/-- All items of responses. -/
def allItems (rs : List (ChatResponse Args)) : List (Item Args) := (rs.map items).flatten

/-- Behind the first event, responses of which the last is done are their items and the last
events. -/
theorem processAll_started {c : StreamConverter} (hc : c.firstWrite = false)
    {rs : List (ChatResponse Args)} {last : ChatResponse Args} (hrs : ∀ r ∈ rs, r.done = false) :
    processAll marshal c (rs ++ [last]) =
      (convertAll marshal c (allItems (rs ++ [last]))).2 ++
        (processDone (convertAll marshal c (allItems (rs ++ [last]))).1 last).2 := by
  have hstart : ∀ {c : StreamConverter} (r : ChatResponse Args), c.firstWrite = false →
      processStart c r = (c, []) := fun r hc => by rw [processStart, if_neg (by rw [hc]; decide)]
  induction rs generalizing c with
  | nil =>
    simp only [List.nil_append, processAll, process_eq, hstart last hc, allItems, List.map_cons,
      List.map_nil, List.flatten_cons, List.flatten_nil, List.append_nil]
  | cons r rs ih =>
    have hdone : ∀ c, processDone c r = (c, []) := fun c => by
      rw [processDone, if_neg (by rw [hrs r (List.mem_cons_self ..)]; decide)]
    have hnext := ih ((firstWrite_convertAll marshal c (items r)).trans hc)
      fun r' hr' => hrs r' (List.mem_cons_of_mem r hr')
    simp only [List.cons_append, processAll, process_eq, hstart r hc, hdone, hnext, allItems,
      List.map_cons, List.flatten_cons, convertAll_append, List.nil_append, List.append_nil,
      List.append_assoc]

/-! ## What a client reads -/

theorem run_append (p : Phase) (es es' : List StreamEvent) :
    p.run (es ++ es') = (p.run es).bind fun p' => p'.run es' := by
  induction es generalizing p with
  | nil => rfl
  | cons e es ih =>
    rw [List.cons_append, Phase.run, Phase.run, Option.bind_assoc]
    exact congrArg _ (funext ih)

theorem textOf_append (es es' : List StreamEvent) : textOf (es ++ es') = textOf es ++ textOf es' := by
  induction es with
  | nil => rfl
  | cons e es ih => rw [List.cons_append, textOf.eq_def, textOf.eq_def (e :: es)]; split <;> simp_all

theorem thinkingOf_append (es es' : List StreamEvent) :
    thinkingOf (es ++ es') = thinkingOf es ++ thinkingOf es' := by
  induction es with
  | nil => rfl
  | cons e es ih =>
    rw [List.cons_append, thinkingOf.eq_def, thinkingOf.eq_def (e :: es)]; split <;> simp_all

theorem toolUses_append (es es' : List StreamEvent) :
    toolUses (es ++ es') = toolUses es ++ toolUses es' := by
  induction es with
  | nil => rfl
  | cons e es ih =>
    rw [List.cons_append, toolUses.eq_def, toolUses.eq_def (e :: es)]; split <;> simp_all

def Item.contentText : Item Args → List Char
  | .content s => s
  | _ => []

def Item.calls : Item Args → List (String × String)
  | .toolCall tc => [(tc.id, tc.name)]
  | _ => []

/-- Thinking and content are not empty. -/
def Item.Full (x : Item Args) : Prop :=
  match x with
  | .thinking s => s ≠ []
  | .content s => s ≠ []
  | .toolCall _ => True

theorem full_allItems (rs : List (ChatResponse Args)) : ∀ x ∈ allItems rs, x.Full := by
  intro x hx
  obtain ⟨xs, hxs, hx⟩ := List.mem_flatten.mp hx
  obtain ⟨r, -, rfl⟩ := List.mem_map.mp hxs
  simp only [items, List.mem_append, List.mem_map] at hx
  rcases hx with (hx | hx) | ⟨tc, -, rfl⟩
  · split at hx
    · cases hx
    · rename_i hne
      rw [List.mem_singleton] at hx
      rw [hx]
      exact hne
  · split at hx
    · cases hx
    · rename_i hne
      rw [List.mem_singleton] at hx
      rw [hx]
      exact hne
  · trivial

/-- Items of a response have its content, thinking and calls. -/
theorem texts_allItems (rs : List (ChatResponse Args)) :
    ((allItems rs).map Item.contentText).flatten = contents rs ∧
      ((allItems rs).map Item.thinkingText).flatten = thinkings rs ∧
        ((allItems rs).map Item.calls).flatten = calls rs := by
  have htools : ∀ tcs : List (ToolCall Args),
      ((tcs.map Item.toolCall).map Item.contentText).flatten = [] ∧
        ((tcs.map Item.toolCall).map Item.thinkingText).flatten = [] ∧
          ((tcs.map Item.toolCall).map Item.calls).flatten = tcs.map fun tc => (tc.id, tc.name) := by
    intro tcs
    induction tcs with
    | nil => exact ⟨rfl, rfl, rfl⟩
    | cons tc tcs ih =>
      obtain ⟨hcontent, hthinking, hcalls⟩ := ih
      exact ⟨hcontent, hthinking, congrArg ((tc.id, tc.name) :: ·) hcalls⟩
  induction rs with
  | nil => exact ⟨rfl, rfl, rfl⟩
  | cons r rs ih =>
    obtain ⟨hcontent, hthinking, hcalls⟩ := ih
    obtain ⟨hcontent', hthinking', hcalls'⟩ := htools r.toolCalls
    have hcons : allItems (r :: rs) = items r ++ allItems rs := rfl
    have hcontents : contents (r :: rs) = r.content ++ contents rs := rfl
    have hthinkings : thinkings (r :: rs) = r.thinking ++ thinkings rs := rfl
    have hall : calls (r :: rs) = (r.toolCalls.map fun tc => (tc.id, tc.name)) ++ calls rs := rfl
    rw [hcons, hcontents, hthinkings, hall, items]
    by_cases h : r.thinking = [] <;> by_cases h' : r.content = [] <;>
      simp_all [Item.contentText, Item.thinkingText, Item.calls]

/-! ## One item -/

/-- Where the client is. -/
def StreamConverter.phase (c : StreamConverter) : Phase :=
  if c.textStarted then .inside c.contentIndex .text
  else if c.thinkingStarted && !c.thinkingDone then .inside c.contentIndex .thinking
  else .between c.contentIndex

/-- No two blocks are open. -/
def StreamConverter.OneOpen (c : StreamConverter) : Prop :=
  ¬(c.textStarted = true ∧ c.thinkingStarted = true ∧ c.thinkingDone = false)

/-- The item is converted as it should be. -/
def Good (c : StreamConverter) : Item Args → Prop
  | .thinking _ => c.thinkingDone = false ∧ (c.thinkingStarted = true ∨ c.textStarted = false)
  | .content _ => True
  | .toolCall tc => tc.id ∉ c.toolCallsSent ∧ marshal tc.arguments ≠ none

/-- The item may come as it does, whether its arguments can be marshalled or not. -/
def Starts (c : StreamConverter) : Item Args → Prop
  | .thinking _ => c.thinkingDone = false ∧ (c.thinkingStarted = true ∨ c.textStarted = false)
  | .content _ => True
  | .toolCall tc => tc.id ∉ c.toolCallsSent

/-- The client reads the end of a block of thinking. -/
theorem run_closeThinking {c : StreamConverter} (hc : c.OneOpen) :
    c.phase.run (closeThinking c).2 = some (closeThinking c).1.phase := by
  rw [closeThinking]
  split
  · next hopen =>
    have hboth : c.thinkingStarted = true ∧ c.thinkingDone = false := by simpa using hopen
    have htext : c.textStarted = false := Bool.eq_false_iff.mpr fun h => hc ⟨h, hboth⟩
    simp [StreamConverter.phase, htext, hboth.1, hboth.2, Phase.run, Phase.step]
  · rfl

/-- No thinking is open then. -/
theorem closeThinking_closed (c : StreamConverter) :
    ((closeThinking c).1.thinkingStarted && !(closeThinking c).1.thinkingDone) = false := by
  rw [closeThinking]
  split
  · exact Bool.and_false _
  · next hopen => exact Bool.eq_false_iff.mpr hopen

/-- Where no thinking is open, the client is between blocks after the end of a block of text. -/
theorem run_closeText {c : StreamConverter}
    (hclosed : (c.thinkingStarted && !c.thinkingDone) = false) :
    c.phase.run (closeText c).2 = some (.between (closeText c).1.contentIndex) ∧
      (closeText c).1.textStarted = false ∧
      ((closeText c).1.thinkingStarted && !(closeText c).1.thinkingDone) = false := by
  rw [closeText]
  split
  · next htext =>
    refine ⟨?_, rfl, hclosed⟩
    simp [StreamConverter.phase, htext, Phase.run, Phase.step]
  · next htext =>
    refine ⟨?_, Bool.eq_false_iff.mpr htext, hclosed⟩
    simp [StreamConverter.phase, htext, hclosed, Phase.run]

/-- Between blocks. -/
theorem phase_between {c : StreamConverter} (htext : c.textStarted = false)
    (hclosed : (c.thinkingStarted && !c.thinkingDone) = false) :
    c.phase = .between c.contentIndex := by
  rw [StreamConverter.phase, htext, hclosed]
  rfl

theorem oneOpen_of_closed {c : StreamConverter}
    (hclosed : (c.thinkingStarted && !c.thinkingDone) = false) : c.OneOpen := by
  rintro ⟨-, hstarted, hdone⟩
  rw [hstarted, hdone] at hclosed
  cases hclosed

/-- The ends of blocks have no texts and open nothing. -/
theorem texts_close (c : StreamConverter) :
    (textOf (closeThinking c).2 = [] ∧ thinkingOf (closeThinking c).2 = [] ∧
        toolUses (closeThinking c).2 = []) ∧
      textOf (closeText c).2 = [] ∧ thinkingOf (closeText c).2 = [] ∧
        toolUses (closeText c).2 = [] := by
  rw [closeThinking, closeText]
  constructor
  · split <;> exact ⟨rfl, rfl, rfl⟩
  · split <;> exact ⟨rfl, rfl, rfl⟩

theorem convert_starts {c : StreamConverter} {x : Item Args} (hc : c.OneOpen) (hx : x.Full)
    (h : Starts c x) :
    c.phase.run (convert marshal c x).2 = some (convert marshal c x).1.phase ∧
      (convert marshal c x).1.OneOpen ∧ thinkingOf (convert marshal c x).2 = x.thinkingText ∧
        toolUses (convert marshal c x).2 = x.toolUse marshal := by
  obtain ⟨⟨-, hthinking, htools⟩, -⟩ := texts_close c
  obtain ⟨-, -, hthinking', htools'⟩ := texts_close (closeThinking c).1
  have hrun := run_closeThinking hc
  have hclosed := closeThinking_closed c
  cases x with
  | thinking s =>
    obtain ⟨hdone, hplace⟩ := h
    have hs : s ≠ [] := hx
    rw [convert, processThinking, if_pos ⟨hs, hdone⟩]
    cases hstarted : c.thinkingStarted with
    | true =>
      have htext : c.textStarted = false :=
        Bool.eq_false_iff.mpr fun htext => hc ⟨htext, hstarted, hdone⟩
      simp [StreamConverter.OneOpen, StreamConverter.phase, hstarted, hdone, htext, Phase.run,
        Phase.step, ContentBlock.accepts, thinkingOf, toolUses, Item.thinkingText, Item.toolUse]
    | false =>
      have htext : c.textStarted = false :=
        hplace.resolve_left (by rw [hstarted]; exact Bool.false_ne_true)
      simp [StreamConverter.OneOpen, StreamConverter.phase, hstarted, hdone, htext, Phase.run,
        Phase.step, ContentBlock.accepts, thinkingOf, toolUses, Item.thinkingText, Item.toolUse]
  | content s =>
    have hs : s ≠ [] := hx
    rw [convert, processContent, if_pos hs]
    simp only
    refine ⟨?_, oneOpen_of_closed hclosed, ?_, ?_⟩
    · rw [List.append_assoc, run_append, hrun, Option.bind_some]
      cases htext : (closeThinking c).1.textStarted <;>
        simp [StreamConverter.phase, htext, hclosed, Phase.run, Phase.step, ContentBlock.accepts]
    · simp only [thinkingOf_append, hthinking]
      cases (closeThinking c).1.textStarted <;> rfl
    · simp only [toolUses_append, htools]
      cases (closeThinking c).1.textStarted <;> rfl
  | toolCall tc =>
    have hid : tc.id ∉ c.toolCallsSent := h
    obtain ⟨hrun', htext, hclosed'⟩ := run_closeText hclosed
    rw [convert, processToolCall, if_neg hid]
    simp only
    cases hargs : marshal tc.arguments with
    | none =>
      refine ⟨?_, oneOpen_of_closed hclosed', ?_, ?_⟩
      · rw [run_append, hrun, Option.bind_some, hrun', phase_between htext hclosed']
      · simp only [thinkingOf_append, hthinking, hthinking']
        rfl
      · simp only [toolUses_append, htools, htools']
        rw [Item.toolUse, if_pos hargs]
        rfl
    | some argsJSON =>
      refine ⟨?_, oneOpen_of_closed hclosed', ?_, ?_⟩
      · rw [run_append, run_append, hrun, Option.bind_some, hrun', Option.bind_some]
        simp [StreamConverter.phase, htext, hclosed', Phase.run, Phase.step, ContentBlock.accepts]
      · simp only [thinkingOf_append, hthinking, hthinking']
        rfl
      · simp only [toolUses_append, htools, htools']
        rw [Item.toolUse, if_neg (by rw [hargs]; exact Option.some_ne_none _)]
        rfl

theorem Good.starts {c : StreamConverter} {x : Item Args} (h : Good marshal c x) : Starts c x := by
  cases x with
  | thinking s => exact h
  | content s => trivial
  | toolCall tc => exact h.1

theorem convert_good {c : StreamConverter} {x : Item Args} (hc : c.OneOpen) (hx : x.Full)
    (h : Good marshal c x) :
    c.phase.run (convert marshal c x).2 = some (convert marshal c x).1.phase ∧
      (convert marshal c x).1.OneOpen ∧ thinkingOf (convert marshal c x).2 = x.thinkingText ∧
        toolUses (convert marshal c x).2 = x.calls := by
  have hcalls : x.toolUse marshal = x.calls := by
    cases x with
    | thinking s => rfl
    | content s => rfl
    | toolCall tc => exact if_neg h.2
  rw [← hcalls]
  exact convert_starts marshal hc hx (h.starts marshal)

/-- Content is never lost, and of thinking and tool calls nothing is added. -/
theorem texts_convert (c : StreamConverter) (x : Item Args) :
    textOf (convert marshal c x).2 = x.contentText ∧
      (thinkingOf (convert marshal c x).2 = x.thinkingText ∨
        thinkingOf (convert marshal c x).2 = []) ∧
      (toolUses (convert marshal c x).2 = x.calls ∨ toolUses (convert marshal c x).2 = []) := by
  obtain ⟨⟨htext, hthinking, htools⟩, -⟩ := texts_close c
  obtain ⟨-, htext', hthinking', htools'⟩ := texts_close (closeThinking c).1
  cases x with
  | thinking s =>
    rw [convert, processThinking]
    split
    · cases c.thinkingStarted <;>
        simp [textOf, thinkingOf, toolUses, Item.contentText, Item.thinkingText]
    · exact ⟨rfl, Or.inr rfl, Or.inr rfl⟩
  | content s =>
    rw [convert, processContent]
    split
    · simp only [textOf_append, thinkingOf_append, toolUses_append, htext, hthinking, htools]
      cases (closeThinking c).1.textStarted <;>
        simp [textOf, thinkingOf, toolUses, Item.contentText]
    · rename_i hnil
      rw [not_not.mp hnil]
      exact ⟨rfl, Or.inr rfl, Or.inr rfl⟩
  | toolCall tc =>
    rw [convert, processToolCall]
    split
    · exact ⟨rfl, Or.inr rfl, Or.inr rfl⟩
    · simp only
      split
      · simp only [textOf_append, thinkingOf_append, toolUses_append, htext, hthinking, htools,
          htext', hthinking', htools']
        exact ⟨rfl, Or.inr rfl, Or.inr rfl⟩
      · simp only [textOf_append, thinkingOf_append, toolUses_append, htext, hthinking, htools,
          htext', hthinking', htools']
        exact ⟨rfl, Or.inr rfl, Or.inl rfl⟩

/-- An item that is not converted as it should be stops the client, or is lost. -/
theorem convert_bad {c : StreamConverter} {x : Item Args} (hx : x.Full) (h : ¬Good marshal c x) :
    c.phase.run (convert marshal c x).2 = none ∨
      (thinkingOf (convert marshal c x).2).length < x.thinkingText.length ∨
        (toolUses (convert marshal c x).2).length < x.calls.length := by
  obtain ⟨⟨-, -, htools⟩, -⟩ := texts_close c
  obtain ⟨-, -, -, htools'⟩ := texts_close (closeThinking c).1
  cases x with
  | thinking s =>
    have hs : s ≠ [] := hx
    by_cases hdone : c.thinkingDone = false
    · -- the block of thinking starts in a block of text
      have hopen : c.thinkingStarted = false ∧ c.textStarted = true := by
        have hnot : ¬(c.thinkingStarted = true ∨ c.textStarted = false) := fun hor => h ⟨hdone, hor⟩
        rw [not_or] at hnot
        exact ⟨Bool.eq_false_iff.mpr hnot.1, by simpa using hnot.2⟩
      left
      simp [convert, processThinking, hs, hdone, hopen.1, StreamConverter.phase, hopen.2, Phase.run,
        Phase.step]
    · -- thinking is dropped
      right
      left
      rw [convert, processThinking, if_neg fun hand => hdone hand.2]
      exact List.length_pos_of_ne_nil hs
  | content s => exact absurd trivial h
  | toolCall tc =>
    right
    right
    have hnil : toolUses (convert marshal c (.toolCall tc)).2 = [] := by
      rw [convert, processToolCall]
      split
      · rfl
      · rename_i hid
        cases hargs : marshal tc.arguments with
        | none =>
          simp only [toolUses_append, htools, htools']
          rfl
        | some argsJSON => exact absurd ⟨hid, by rw [hargs]; exact Option.some_ne_none _⟩ h
    rw [hnil]
    exact Nat.zero_lt_one

/-! ## All items -/

/-- Every item is converted as it should be. -/
def GoodAll : StreamConverter → List (Item Args) → Prop
  | _, [] => True
  | c, x :: xs => Good marshal c x ∧ GoodAll (convert marshal c x).1 xs

theorem texts_convertAll (c : StreamConverter) (xs : List (Item Args)) :
    textOf (convertAll marshal c xs).2 = (xs.map Item.contentText).flatten ∧
      (thinkingOf (convertAll marshal c xs).2).length ≤
        (xs.map Item.thinkingText).flatten.length ∧
      (toolUses (convertAll marshal c xs).2).length ≤ (xs.map Item.calls).flatten.length := by
  induction xs generalizing c with
  | nil => exact ⟨rfl, le_rfl, le_rfl⟩
  | cons x xs ih =>
    obtain ⟨htext, hthinking, htools⟩ := ih (convert marshal c x).1
    obtain ⟨htext', hthinking', htools'⟩ := texts_convert marshal c x
    have hle : (thinkingOf (convert marshal c x).2).length ≤ x.thinkingText.length := by
      rcases hthinking' with h | h <;> simp [h]
    have hle' : (toolUses (convert marshal c x).2).length ≤ x.calls.length := by
      rcases htools' with h | h <;> simp [h]
    simp only [convertAll, textOf_append, thinkingOf_append, toolUses_append, List.map_cons,
      List.flatten_cons, List.length_append, htext, htext']
    exact ⟨trivial, Nat.add_le_add hle hthinking, Nat.add_le_add hle' htools⟩

/-- The last events close what is open. -/
theorem run_processDone {c : StreamConverter} {last : ChatResponse Args} (hlast : last.done = true) :
    c.phase.run (processDone c last).2 = some .ended := by
  rw [processDone, if_pos hlast, run_append, StreamConverter.phase]
  split
  · simp [Phase.run, Phase.step]
  · split <;> simp [Phase.run, Phase.step]

theorem texts_processDone (c : StreamConverter) (last : ChatResponse Args) :
    textOf (processDone c last).2 = [] ∧ thinkingOf (processDone c last).2 = [] ∧
      toolUses (processDone c last).2 = [] := by
  rw [processDone]
  split
  · simp only [textOf_append, thinkingOf_append, toolUses_append]
    split
    · exact ⟨rfl, rfl, rfl⟩
    · split <;> exact ⟨rfl, rfl, rfl⟩
  · exact ⟨rfl, rfl, rfl⟩

/-- The client gets through and nothing is lost, if and only if every item is converted as it
should be. -/
theorem convertAll_iff {c : StreamConverter} {xs : List (Item Args)} (hc : c.OneOpen)
    (hxs : ∀ x ∈ xs, x.Full) {last : ChatResponse Args} (hlast : last.done = true) :
    (c.phase.run ((convertAll marshal c xs).2 ++
          (processDone (convertAll marshal c xs).1 last).2) = some .ended ∧
        thinkingOf (convertAll marshal c xs).2 = (xs.map Item.thinkingText).flatten ∧
          toolUses (convertAll marshal c xs).2 = (xs.map Item.calls).flatten) ↔
      GoodAll marshal c xs := by
  induction xs generalizing c with
  | nil => exact iff_of_true ⟨run_processDone hlast, rfl, rfl⟩ trivial
  | cons x xs ih =>
    have hx := hxs x (List.mem_cons_self ..)
    simp only [convertAll, thinkingOf_append, toolUses_append, List.map_cons, List.flatten_cons,
      List.append_assoc]
    by_cases h : Good marshal c x
    · obtain ⟨hrun, hopen, hthinking, htools⟩ := convert_good marshal hc hx h
      have hrest := ih hopen fun y hy => hxs y (List.mem_cons_of_mem x hy)
      rw [run_append, hrun, Option.bind_some, hthinking, htools, List.append_cancel_left_eq,
        List.append_cancel_left_eq, hrest]
      exact (and_iff_right h).symm
    · refine iff_of_false ?_ fun hgood => h hgood.1
      rintro ⟨hrun, hthinking, htools⟩
      obtain ⟨-, hle, hle'⟩ := texts_convertAll marshal (convert marshal c x).1 xs
      have hlen := congrArg List.length hthinking
      have hlen' := congrArg List.length htools
      simp only [List.length_append] at hlen hlen'
      rcases convert_bad marshal hx h with hnone | hlost | hlost
      · rw [run_append, hnone] at hrun
        cases hrun
      · omega
      · omega

/-! ## What may come where -/

/-- What a converter remembers of the items before. -/
structure Remembers (c : StreamConverter) (before : List (Item Args)) : Prop where
  started : c.thinkingStarted = true ↔ ∃ x ∈ before, x.isThinking = true
  done : c.thinkingDone = true ↔
    c.thinkingStarted = true ∧ ∀ x, before.getLast? = some x → x.isThinking = false
  text : c.textStarted = true ↔ ∃ s, before.getLast? = some (.content s)
  sent : ∀ id, id ∈ c.toolCallsSent ↔ id ∈ before.filterMap Item.id?

theorem good_iff {c : StreamConverter} {before : List (Item Args)} (h : Remembers c before)
    (x : Item Args) : Good marshal c x ↔ x.MayFollow marshal before := by
  cases x with
  | content s => exact Iff.rfl
  | toolCall tc => exact and_congr_left' (h.sent tc.id).not
  | thinking s =>
    have hdone := h.done
    have htext := h.text
    have hstarted := h.started
    rw [Good, Item.MayFollow]
    cases hlast : before.getLast? with
    | none =>
      obtain rfl := List.getLast?_eq_none_iff.mp hlast
      simp_all
    | some y =>
      have hmem := List.mem_of_getLast? hlast
      simp only [hlast, Option.some.injEq, forall_eq'] at hdone htext
      cases y with
      | thinking s' =>
        have hyes : c.thinkingStarted = true := hstarted.mpr ⟨_, hmem, rfl⟩
        simp_all [Item.isThinking]
      | content s' =>
        refine iff_of_false ?_ id
        rintro ⟨hnot, hyes | hno⟩
        · rw [hdone.mpr ⟨hyes, rfl⟩] at hnot
          cases hnot
        · rw [htext.mpr ⟨s', rfl⟩] at hno
          cases hno
      | toolCall tc =>
        have htext' : c.textStarted = false := by simpa using htext
        simp only [htext', or_true, and_true]
        rw [← Bool.not_eq_true, hdone, hstarted]
        simp [Item.isThinking]

theorem Remembers.done_eq {c : StreamConverter} {before : List (Item Args)}
    (h : Remembers c before) : c.thinkingDone = true → c.thinkingStarted = true :=
  fun hdone => (h.done.mp hdone).1

/-- Behind content or a tool call, thinking is done if there was any. -/
theorem closeThinking_done {c : StreamConverter} {before : List (Item Args)}
    (h : Remembers c before) : (closeThinking c).1.thinkingStarted = c.thinkingStarted ∧
      ((closeThinking c).1.thinkingDone = true ↔ c.thinkingStarted = true) ∧
        (closeThinking c).1.toolCallsSent = c.toolCallsSent := by
  have hdone := h.done_eq
  rw [closeThinking]
  cases hstarted : c.thinkingStarted <;> cases hd : c.thinkingDone <;> simp_all

theorem Remembers.next {c : StreamConverter} {before : List (Item Args)} (h : Remembers c before)
    {x : Item Args} (hx : x.Full) (hgood : Good marshal c x) :
    Remembers (convert marshal c x).1 (before ++ [x]) := by
  obtain ⟨hstarted, hdone, hsent⟩ := closeThinking_done h
  cases x with
  | thinking s =>
    have hs : s ≠ [] := hx
    have hnot : c.thinkingDone = false := hgood.1
    have htext : c.textStarted = false := by
      rcases hgood.2 with hyes | hno
      · -- the last item is thinking, not content
        have hdone' := h.done.not.mp (by rw [hnot]; exact Bool.false_ne_true)
        rw [← Bool.not_eq_true, h.text]
        rintro ⟨s', hlast⟩
        refine hdone' ⟨hyes, fun y hy => ?_⟩
        rw [hlast] at hy
        rw [← Option.some.inj hy]
        rfl
      · exact hno
    have hconvert : (convert marshal c (.thinking s)).1 = { c with thinkingStarted := true } := by
      rw [convert, processThinking, if_pos ⟨hs, hnot⟩]
    rw [hconvert]
    exact {
      started := iff_of_true rfl ⟨_, List.mem_append_right _ (List.mem_singleton_self _), rfl⟩
      done := by simp [hnot, Item.isThinking]
      text := by simp [htext]
      sent := by simpa [Item.id?] using h.sent }
  | content s =>
    have hs : s ≠ [] := hx
    have hconvert : (convert marshal c (.content s)).1 =
        { (closeThinking c).1 with textStarted := true } := by
      rw [convert, processContent, if_pos hs]
    rw [hconvert]
    exact {
      started := by simp [hstarted, h.started, Item.isThinking]
      done := by simp [hdone, hstarted, Item.isThinking]
      text := by simp
      sent := by simpa [hsent, Item.id?] using h.sent }
  | toolCall tc =>
    obtain ⟨argsJSON, hargs⟩ := Option.ne_none_iff_exists'.mp hgood.2
    have hclose : ∀ c, (closeText c).1.thinkingStarted = c.thinkingStarted ∧
        (closeText c).1.thinkingDone = c.thinkingDone ∧
          (closeText c).1.toolCallsSent = c.toolCallsSent ∧ (closeText c).1.textStarted = false := by
      intro c
      rw [closeText]
      split
      · exact ⟨rfl, rfl, rfl, rfl⟩
      · exact ⟨rfl, rfl, rfl, by simp_all⟩
    obtain ⟨hstarted', hdone', hsent', htext'⟩ := hclose (closeThinking c).1
    have hconvert : (convert marshal c (.toolCall tc)).1 =
        { (closeText (closeThinking c).1).1 with
          toolCallsSent := tc.id :: (closeText (closeThinking c).1).1.toolCallsSent
          contentIndex := (closeText (closeThinking c).1).1.contentIndex + 1 } := by
      rw [convert, processToolCall, if_neg hgood.1]
      simp only [hargs]
    rw [hconvert]
    exact {
      started := by simp [hstarted', hstarted, h.started, Item.isThinking]
      done := by simp [hdone', hdone, hstarted', hstarted, Item.isThinking]
      text := by simp [htext']
      sent := by
        intro id
        simp [hsent', hsent, h.sent, Item.id?, or_comm] }

theorem goodAll_iff {c : StreamConverter} {before : List (Item Args)} (h : Remembers c before)
    {xs : List (Item Args)} (hxs : ∀ x ∈ xs, x.Full) : GoodAll marshal c xs ↔
      ∀ ys x zs, xs = ys ++ x :: zs → x.MayFollow marshal (before ++ ys) := by
  induction xs generalizing c before with
  | nil => exact iff_of_true trivial fun ys x zs hsplit => by simp at hsplit
  | cons x xs ih =>
    rw [GoodAll, good_iff marshal h]
    constructor
    · rintro ⟨hmay, hall⟩ ys y zs hsplit
      cases ys with
      | nil =>
        obtain ⟨rfl, -⟩ := List.cons.inj hsplit
        rwa [List.append_nil]
      | cons y' ys =>
        obtain ⟨rfl, hrest⟩ := List.cons.inj hsplit
        have hnext := h.next marshal (hxs x (List.mem_cons_self ..)) ((good_iff marshal h x).mpr hmay)
        have hlater := (ih hnext fun y hy => hxs y (List.mem_cons_of_mem x hy)).mp hall ys y zs hrest
        rwa [List.append_assoc] at hlater
    · intro hall
      have hmay := hall [] x xs rfl
      rw [List.append_nil] at hmay
      have hnext := h.next marshal (hxs x (List.mem_cons_self ..)) ((good_iff marshal h x).mpr hmay)
      refine ⟨hmay, (ih hnext fun y hy => hxs y (List.mem_cons_of_mem x hy)).mpr ?_⟩
      intro ys y zs hsplit
      rw [List.append_assoc]
      exact hall (x :: ys) y zs (congrArg (x :: ·) hsplit)

/-! ## What is sent -/

theorem sent_convert (c : StreamConverter) (x : Item Args) :
    (convert marshal c x).1.toolCallsSent =
      match x with
      | .toolCall tc =>
        if tc.id ∈ c.toolCallsSent then c.toolCallsSent
        else if marshal tc.arguments = none then c.toolCallsSent else tc.id :: c.toolCallsSent
      | _ => c.toolCallsSent := by
  have hclose : ∀ c, (closeThinking c).1.toolCallsSent = c.toolCallsSent := by
    intro c
    rw [closeThinking]
    split <;> rfl
  have hcloseText : ∀ c, (closeText c).1.toolCallsSent = c.toolCallsSent := by
    intro c
    rw [closeText]
    split <;> rfl
  cases x with
  | thinking s =>
    rw [convert, processThinking]
    split <;> rfl
  | content s =>
    rw [convert, processContent]
    split
    · exact hclose c
    · rfl
  | toolCall tc =>
    simp only [convert, processToolCall]
    split
    · rfl
    · cases hargs : marshal tc.arguments with
      | none => simp [hcloseText, hclose]
      | some argsJSON => simp [hcloseText, hclose]

/-- Repeated tool calls change nothing. -/
theorem convertAll_fresh (c : StreamConverter) (xs : List (Item Args)) :
    convertAll marshal c (fresh marshal c.toolCallsSent xs) = convertAll marshal c xs := by
  induction xs generalizing c with
  | nil => rfl
  | cons x xs ih =>
    have hnext := ih (convert marshal c x).1
    rw [sent_convert] at hnext
    cases x with
    | thinking s => simp only [fresh, convertAll, hnext]
    | content s => simp only [fresh, convertAll, hnext]
    | toolCall tc =>
      rw [fresh]
      split
      · rename_i hid
        have hconvert : convert marshal c (.toolCall tc) = (c, []) := by
          rw [convert, processToolCall, if_pos hid]
        rw [ih, convertAll, hconvert]
        rfl
      · rename_i hid
        simp only [if_neg hid] at hnext
        simp only [convertAll, hnext]

/-- Every tool call has an id that no block has. -/
def NewAll : StreamConverter → List (Item Args) → Prop
  | _, [] => True
  | c, x :: xs => (∀ tc, x = .toolCall tc → tc.id ∉ c.toolCallsSent) ∧
    NewAll (convert marshal c x).1 xs

theorem newAll_fresh (c : StreamConverter) (xs : List (Item Args)) :
    NewAll marshal c (fresh marshal c.toolCallsSent xs) := by
  induction xs generalizing c with
  | nil => trivial
  | cons x xs ih =>
    have hnext := ih (convert marshal c x).1
    rw [sent_convert] at hnext
    cases x with
    | thinking s => exact ⟨(fun tc htc => by cases htc), hnext⟩
    | content s => exact ⟨(fun tc htc => by cases htc), hnext⟩
    | toolCall tc =>
      rw [fresh]
      split
      · exact ih c
      · rename_i hid
        simp only [if_neg hid] at hnext
        refine ⟨fun tc' htc => ?_, hnext⟩
        cases htc
        exact hid

theorem newAll_append (c : StreamConverter) (xs ys : List (Item Args)) :
    NewAll marshal c (xs ++ ys) ↔
      NewAll marshal c xs ∧ NewAll marshal (convertAll marshal c xs).1 ys := by
  induction xs generalizing c with
  | nil => exact iff_of_eq (true_and _).symm
  | cons x xs ih => simp only [List.cons_append, NewAll, ih, convertAll, and_assoc]

/-- Every item may come as it does. -/
def StartAll : StreamConverter → List (Item Args) → Prop
  | _, [] => True
  | c, x :: xs => Starts c x ∧ StartAll (convert marshal c x).1 xs

theorem startAll_append (c : StreamConverter) (xs ys : List (Item Args)) :
    StartAll marshal c (xs ++ ys) ↔
      StartAll marshal c xs ∧ StartAll marshal (convertAll marshal c xs).1 ys := by
  induction xs generalizing c with
  | nil => exact iff_of_eq (true_and _).symm
  | cons x xs ih => simp only [List.cons_append, StartAll, ih, convertAll, and_assoc]

theorem startAll_of_new {c : StreamConverter} {xs : List (Item Args)} (h : NewAll marshal c xs)
    (hxs : ∀ x ∈ xs, x.isThinking = false) : StartAll marshal c xs := by
  induction xs generalizing c with
  | nil => trivial
  | cons x xs ih =>
    refine ⟨?_, ih h.2 fun y hy => hxs y (List.mem_cons_of_mem x hy)⟩
    cases x with
    | thinking s => cases hxs _ (List.mem_cons_self ..)
    | content s => trivial
    | toolCall tc => exact h.1 tc rfl

/-- Without thinking no thinking starts, and a block of text is open behind content. -/
theorem convertAll_plain {c : StreamConverter} {xs : List (Item Args)}
    (hc : c.thinkingStarted = false) (hdone : c.thinkingDone = false)
    (htext : c.textStarted = false) (h : NewAll marshal c xs) (hfull : ∀ x ∈ xs, x.Full)
    (hxs : ∀ x ∈ xs, x.isThinking = false) :
    (convertAll marshal c xs).1.thinkingStarted = false ∧
      (convertAll marshal c xs).1.thinkingDone = false ∧
      ((convertAll marshal c xs).1.textStarted = true ↔ ∃ s, xs.getLast? = some (.content s)) := by
  induction xs using List.reverseRecOn with
  | nil => exact ⟨hc, hdone, by simp [convertAll, htext]⟩
  | append_singleton xs x ih =>
    obtain ⟨hbefore, hnew⟩ := (newAll_append marshal c xs [x]).mp h
    obtain ⟨hstarted, hdone', -⟩ := ih hbefore (fun y hy => hfull y (List.mem_append_left _ hy))
      fun y hy => hxs y (List.mem_append_left _ hy)
    have hx := hfull x (List.mem_append_right _ (List.mem_singleton_self x))
    have hnot := hxs x (List.mem_append_right _ (List.mem_singleton_self x))
    rw [convertAll_append, List.getLast?_concat]
    generalize (convertAll marshal c xs).1 = c' at hstarted hdone' hnew ⊢
    have hclose : closeThinking c' = (c', []) := by simp [closeThinking, hstarted]
    cases x with
    | thinking s => cases hnot
    | content s =>
      have hs : s ≠ [] := hx
      simp [convertAll, convert, processContent, hs, hclose, hstarted, hdone']
    | toolCall tc =>
      have hid := hnew.1 tc rfl
      have hcloseText : (closeText c').1.thinkingStarted = c'.thinkingStarted ∧
          (closeText c').1.thinkingDone = c'.thinkingDone ∧
            (closeText c').1.textStarted = false := by
        rw [closeText]
        split
        · exact ⟨rfl, rfl, rfl⟩
        · exact ⟨rfl, rfl, by simp_all⟩
      cases hargs : marshal tc.arguments <;>
        simp [convertAll, convert, processToolCall, hid, hclose, hargs, hcloseText, hstarted, hdone']

/-- Thinking goes on. -/
theorem startAll_thinking {c : StreamConverter} {xs : List (Item Args)}
    (hdone : c.thinkingDone = false) (hopen : c.thinkingStarted = true ∨ c.textStarted = false)
    (hfull : ∀ x ∈ xs, x.Full) (hxs : ∀ x ∈ xs, x.isThinking = true) :
    StartAll marshal c xs ∧
      (xs ≠ [] → (convertAll marshal c xs).1.thinkingStarted = true) := by
  induction xs generalizing c with
  | nil => exact ⟨trivial, fun h => absurd rfl h⟩
  | cons x xs ih =>
    have hx := hfull x (List.mem_cons_self ..)
    cases x with
    | content s => cases hxs _ (List.mem_cons_self ..)
    | toolCall tc => cases hxs _ (List.mem_cons_self ..)
    | thinking s =>
      have hs : s ≠ [] := hx
      have hconvert : (convert marshal c (.thinking s)).1 = { c with thinkingStarted := true } := by
        rw [convert, processThinking, if_pos ⟨hs, hdone⟩]
      have hrest := @ih { c with thinkingStarted := true } hdone (Or.inl rfl)
        (fun y hy => hfull y (List.mem_cons_of_mem _ hy))
        fun y hy => hxs y (List.mem_cons_of_mem _ hy)
      refine ⟨⟨⟨hdone, hopen⟩, hconvert ▸ hrest.1⟩, fun _ => ?_⟩
      show (convertAll marshal (convert marshal c (.thinking s)).1 xs).1.thinkingStarted = true
      rw [hconvert]
      cases xs with
      | nil => rfl
      | cons y ys => exact hrest.2 (List.cons_ne_nil y ys)

/-- Once thinking is done it stays so, and further thinking changes nothing. -/
theorem convertAll_done {c : StreamConverter} {xs : List (Item Args)}
    (hdone : c.thinkingDone = true) :
    convertAll marshal c (xs.filter fun x => !x.isThinking) = convertAll marshal c xs ∧
      (NewAll marshal c xs → NewAll marshal c (xs.filter fun x => !x.isThinking)) := by
  induction xs generalizing c with
  | nil => exact ⟨rfl, id⟩
  | cons x xs ih =>
    have hstays : (convert marshal c x).1.thinkingDone = true := by
      have hclose : closeThinking c = (c, []) := by simp [closeThinking, hdone]
      have hcloseText : (closeText c).1.thinkingDone = c.thinkingDone := by
        rw [closeText]
        split <;> rfl
      cases x with
      | thinking s =>
        rw [convert, processThinking]
        split <;> exact hdone
      | content s =>
        rw [convert, processContent, hclose]
        split <;> exact hdone
      | toolCall tc =>
        rw [convert, processToolCall, hclose]
        split
        · exact hdone
        · simp only
          split <;> exact hcloseText.trans hdone
    obtain ⟨hall, hnew⟩ := ih hstays
    cases x with
    | thinking s =>
      have hconvert : convert marshal c (.thinking s) = (c, []) := by
        rw [convert, processThinking, if_neg (by simp [hdone])]
      rw [hconvert] at hall hnew
      have hfilter : (Item.thinking s :: xs).filter (fun x => !x.isThinking) =
        xs.filter fun x => !x.isThinking := rfl
      rw [hfilter, hall, convertAll, NewAll, hconvert]
      exact ⟨rfl, fun h => hnew h.2⟩
    | content s =>
      have hfilter : (Item.content s :: xs).filter (fun x => !x.isThinking) =
        .content s :: xs.filter fun x => !x.isThinking := rfl
      rw [hfilter, convertAll, convertAll, hall, NewAll, NewAll]
      exact ⟨rfl, fun h => ⟨h.1, hnew h.2⟩⟩
    | toolCall tc =>
      have hfilter : (Item.toolCall tc :: xs).filter (fun x => !x.isThinking) =
        .toolCall tc :: xs.filter fun x => !x.isThinking := rfl
      rw [hfilter, convertAll, convertAll, hall, NewAll, NewAll]
      exact ⟨rfl, fun h => ⟨h.1, hnew h.2⟩⟩

/-! ## The inputs of the tool calls -/

theorem inputs_close (c : StreamConverter) (inputs : List String) :
    (closeThinking c).2.foldl readInput inputs = inputs ∧
      (closeText c).2.foldl readInput inputs = inputs := by
  rw [closeThinking, closeText]
  constructor
  · split <;> rfl
  · split <;> rfl

theorem inputs_processDone (c : StreamConverter) (last : ChatResponse Args)
    (inputs : List String) : (processDone c last).2.foldl readInput inputs = inputs := by
  rw [processDone]
  split
  · simp only [List.foldl_append]
    split
    · rfl
    · split <;> rfl
  · rfl

/-- Only a tool call has an input, and its block has all of it. -/
theorem inputs_convert {c : StreamConverter} {x : Item Args} (h : Starts c x)
    (inputs : List String) :
    (convert marshal c x).2.foldl readInput inputs = (x.input marshal).reverse ++ inputs := by
  obtain ⟨hthinking, -⟩ := inputs_close c inputs
  obtain ⟨-, htext⟩ := inputs_close (closeThinking c).1 inputs
  cases x with
  | thinking s =>
    rw [convert, processThinking]
    split
    · cases c.thinkingStarted <;> rfl
    · rfl
  | content s =>
    rw [convert, processContent]
    split
    · simp only [List.foldl_append, hthinking]
      cases (closeThinking c).1.textStarted <;> rfl
    · rfl
  | toolCall tc =>
    have hid : tc.id ∉ c.toolCallsSent := h
    rw [convert, processToolCall, if_neg hid]
    cases hargs : marshal tc.arguments with
    | none => simp only [List.foldl_append, hthinking, htext, Item.input, hargs]; rfl
    | some argsJSON =>
      simp only [List.foldl_append, hthinking, htext, Item.input, hargs, List.foldl_cons, readInput,
        String.empty_append]
      rfl

theorem inputs_convertAll {c : StreamConverter} {xs : List (Item Args)}
    (h : StartAll marshal c xs) (inputs : List String) :
    (convertAll marshal c xs).2.foldl readInput inputs =
      ((xs.map (Item.input marshal)).flatten).reverse ++ inputs := by
  induction xs generalizing c inputs with
  | nil => rfl
  | cons x xs ih =>
    rw [convertAll, List.foldl_append, inputs_convert marshal h.1, ih h.2, List.map_cons,
      List.flatten_cons, List.reverse_append, List.append_assoc]

/-- The events of items that may come as they do have their inputs. -/
theorem toolInputs_eq {c : StreamConverter} {xs : List (Item Args)} (h : StartAll marshal c xs)
    (id model : String) (inputTokens : Int) (last : ChatResponse Args) :
    toolInputs (.messageStart id model inputTokens :: ((convertAll marshal c xs).2 ++
      (processDone (convertAll marshal c xs).1 last).2)) =
        (xs.map (Item.input marshal)).flatten := by
  rw [toolInputs, List.foldl_cons, List.foldl_append, inputs_processDone,
    inputs_convertAll marshal h]
  show (_ ++ []).reverse = _
  rw [List.append_nil, List.reverse_reverse]

def Item.marshalled : Item Args → List (Option String)
  | .toolCall tc => [marshal tc.arguments]
  | _ => []

theorem marshalled_allItems (rs : List (ChatResponse Args)) :
    ((allItems rs).map (Item.marshalled marshal)).flatten = marshalled marshal rs := by
  have htools : ∀ tcs : List (ToolCall Args),
      ((tcs.map Item.toolCall).map (Item.marshalled marshal)).flatten =
        tcs.map fun tc => marshal tc.arguments := by
    intro tcs
    induction tcs with
    | nil => rfl
    | cons tc tcs ih => exact congrArg (marshal tc.arguments :: ·) ih
  induction rs with
  | nil => rfl
  | cons r rs ih =>
    have hcons : allItems (r :: rs) = items r ++ allItems rs := rfl
    have hall : marshalled marshal (r :: rs) =
      (r.toolCalls.map fun tc => marshal tc.arguments) ++ marshalled marshal rs := rfl
    rw [hcons, hall, items]
    by_cases h : r.thinking = [] <;> by_cases h' : r.content = [] <;>
      simp_all [Item.marshalled]

theorem GoodAll.startAll {c : StreamConverter} {xs : List (Item Args)} (h : GoodAll marshal c xs) :
    StartAll marshal c xs := by
  induction xs generalizing c with
  | nil => trivial
  | cons x xs ih => exact ⟨h.1.starts marshal, ih h.2⟩

/-- The arguments of every tool call that is converted can be marshalled. -/
theorem GoodAll.inputs {c : StreamConverter} {xs : List (Item Args)} (h : GoodAll marshal c xs) :
    ((xs.map (Item.input marshal)).flatten).map some =
      (xs.map (Item.marshalled marshal)).flatten := by
  induction xs generalizing c with
  | nil => rfl
  | cons x xs ih =>
    rw [List.map_cons, List.map_cons, List.flatten_cons, List.flatten_cons, List.map_append, ih h.2]
    congr 1
    cases x with
    | thinking s => rfl
    | content s => rfl
    | toolCall tc =>
      obtain ⟨argsJSON, hargs⟩ := Option.ne_none_iff_exists'.mp h.1.2
      rw [Item.input, Item.marshalled, hargs]
      rfl

/-! ## Whole messages -/

/-- The first response makes the first event; the rest is that of a converter behind it. -/
theorem processAll_start (c : StreamConverter) (r : ChatResponse Args)
    (rs : List (ChatResponse Args)) : processAll marshal c (r :: rs) =
      (processStart c r).2 ++ processAll marshal (processStart c r).1 (r :: rs) := by
  have hagain : processStart (processStart c r).1 r = ((processStart c r).1, []) := by
    by_cases hfirst : c.firstWrite = true
    · simp [processStart, hfirst]
    · simp [processStart, hfirst]
  simp only [processAll, process_eq, hagain, List.nil_append, List.append_assoc]

/-- The converter before the first item. -/
structure Starting (c : StreamConverter) : Prop where
  index : c.contentIndex = 0
  started : c.thinkingStarted = false
  done : c.thinkingDone = false
  text : c.textStarted = false
  sent : c.toolCallsSent = []

theorem Starting.oneOpen {c : StreamConverter} (h : Starting c) : c.OneOpen := by
  rintro ⟨htext, -, -⟩
  rw [h.text] at htext
  cases htext

theorem Starting.phase_eq {c : StreamConverter} (h : Starting c) : c.phase = .between 0 := by
  simp [StreamConverter.phase, h.text, h.started, h.index]

/-- The events are a first event, those of the items, and the last events. -/
theorem processAll_eq (id model : String) (estimatedInputTokens : Int)
    {rs : List (ChatResponse Args)} {last : ChatResponse Args} (hrs : ∀ r ∈ rs, r.done = false) :
    ∃ c inputTokens, Starting c ∧
      processAll marshal (newStreamConverter id model estimatedInputTokens) (rs ++ [last]) =
        .messageStart id model inputTokens ::
          ((convertAll marshal c (allItems (rs ++ [last]))).2 ++
            (processDone (convertAll marshal c (allItems (rs ++ [last]))).1 last).2) := by
  obtain ⟨first, rest, hcons⟩ : ∃ first rest, rs ++ [last] = first :: rest :=
    List.exists_cons_of_ne_nil (List.append_ne_nil_of_right_ne_nil rs (List.cons_ne_nil last []))
  have hstart := processAll_start marshal (newStreamConverter id model estimatedInputTokens) first
    rest
  have hevents := @processAll_started Args marshal
    (processStart (newStreamConverter id model estimatedInputTokens) first).1 rfl rs last hrs
  rw [← hcons, hevents] at hstart
  exact ⟨_, _, ⟨rfl, rfl, rfl, rfl, rfl⟩, hstart⟩

/-- What a client makes of all events is what it makes of those of the items. -/
theorem client_eq {c : StreamConverter} (hc : Starting c) (id model : String) (inputTokens : Int)
    (xs : List (Item Args)) (last : ChatResponse Args) :
    let es := .messageStart id model inputTokens :: ((convertAll marshal c xs).2 ++
      (processDone (convertAll marshal c xs).1 last).2)
    (WellFormed es ↔ c.phase.run ((convertAll marshal c xs).2 ++
        (processDone (convertAll marshal c xs).1 last).2) = some .ended) ∧
      textOf es = (xs.map Item.contentText).flatten ∧
      thinkingOf es = thinkingOf (convertAll marshal c xs).2 ∧
      toolUses es = toolUses (convertAll marshal c xs).2 := by
  obtain ⟨htext, -, -⟩ := texts_convertAll marshal c xs
  obtain ⟨htext', hthinking', htools'⟩ := texts_processDone (convertAll marshal c xs).1 last
  refine ⟨by rw [hc.phase_eq]; rfl, ?_, ?_, ?_⟩
  · show textOf (_ ++ _) = _
    rw [textOf_append, htext, htext', List.append_nil]
  · show thinkingOf (_ ++ _) = _
    rw [thinkingOf_append, hthinking', List.append_nil]
  · show toolUses (_ ++ _) = _
    rw [toolUses_append, htools', List.append_nil]

/-- Nothing of the responses is lost, if and only if each item may come where it comes. -/
theorem process_faithful_iff (id model : String) (estimatedInputTokens : Int)
    (rs : List (ChatResponse Args)) (last : ChatResponse Args)
    (hrs : ∀ r ∈ rs, r.done = false) (hlast : last.done = true) :
    Faithful marshal (rs ++ [last]) (processAll marshal
        (newStreamConverter id model estimatedInputTokens) (rs ++ [last])) ↔
      ∀ before x behind, allItems (rs ++ [last]) = before ++ x :: behind →
        x.MayFollow marshal before := by
  obtain ⟨c, inputTokens, hc, hevents⟩ :=
    @processAll_eq Args marshal id model estimatedInputTokens rs last hrs
  obtain ⟨hwell, htext, hthinking, htools⟩ :=
    client_eq marshal hc id model inputTokens (allItems (rs ++ [last])) last
  have hremembers : Remembers c ([] : List (Item Args)) :=
    ⟨by simp [hc.started], by simp [hc.started, hc.done], by simp [hc.text], by simp [hc.sent]⟩
  have hfull := full_allItems (rs ++ [last])
  obtain ⟨hcontents, hthinkings, hcalls⟩ := texts_allItems (rs ++ [last])
  have hmain := convertAll_iff marshal hc.oneOpen hfull hlast
  have hmay := goodAll_iff marshal hremembers hfull
  rw [← hwell, hthinkings, hcalls, ← hthinking, ← htools] at hmain
  rw [hcontents] at htext
  rw [hevents]
  refine Iff.trans ⟨fun h => ⟨h.wellFormed, h.thinking, h.toolUse⟩, fun h => ?_⟩ (hmain.trans hmay)
  have hgood := hmain.mp h
  refine ⟨h.1, htext, h.2.1, h.2.2, ?_⟩
  rw [toolInputs_eq marshal hgood.startAll, hgood.inputs, marshalled_allItems]

/-- The client gets through what is sent. -/
theorem convertAll_startAll {c : StreamConverter} {xs : List (Item Args)} (hc : c.OneOpen)
    (hxs : ∀ x ∈ xs, x.Full) (h : StartAll marshal c xs) {last : ChatResponse Args}
    (hlast : last.done = true) :
    c.phase.run ((convertAll marshal c xs).2 ++
        (processDone (convertAll marshal c xs).1 last).2) = some .ended ∧
      thinkingOf (convertAll marshal c xs).2 = (xs.map Item.thinkingText).flatten ∧
      toolUses (convertAll marshal c xs).2 = (xs.map (Item.toolUse marshal)).flatten := by
  induction xs generalizing c with
  | nil => exact ⟨run_processDone hlast, rfl, rfl⟩
  | cons x xs ih =>
    obtain ⟨hrun, hopen, hthinking, htools⟩ :=
      convert_starts marshal hc (hxs x (List.mem_cons_self ..)) h.1
    obtain ⟨hrest, hthinking', htools'⟩ :=
      ih hopen (fun y hy => hxs y (List.mem_cons_of_mem x hy)) h.2
    simp only [convertAll, thinkingOf_append, toolUses_append, List.map_cons, List.flatten_cons,
      List.append_assoc, hthinking, htools, hthinking', htools', and_true]
    rw [run_append, hrun, Option.bind_some, hrest]

theorem mem_fresh {ids : List String} {xs : List (Item Args)} {x : Item Args}
    (h : x ∈ fresh marshal ids xs) : x ∈ xs := by
  have hcons : ∀ {ids' : List String} {y : Item Args} {ys : List (Item Args)},
      (x ∈ fresh marshal ids' ys → x ∈ ys) → x ∈ y :: fresh marshal ids' ys → x ∈ y :: ys := by
    intro ids' y ys ih hmem
    rcases List.mem_cons.mp hmem with rfl | hmem
    · exact List.mem_cons_self ..
    · exact List.mem_cons_of_mem y (ih hmem)
  induction xs generalizing ids with
  | nil => cases h
  | cons y xs ih =>
    cases y with
    | thinking s => exact hcons ih h
    | content s => exact hcons ih h
    | toolCall tc =>
      rw [fresh] at h
      split at h
      · exact List.mem_cons_of_mem _ (ih h)
      · exact hcons ih h

/-- Content and tool calls end thinking. -/
theorem done_convert {c : StreamConverter} {x : Item Args} (hc : c.thinkingStarted = true)
    (hx : x.Full) (hnot : x.isThinking = false)
    (hnew : ∀ tc, x = .toolCall tc → tc.id ∉ c.toolCallsSent) :
    (convert marshal c x).1.thinkingDone = true := by
  have hclose : (closeThinking c).1.thinkingDone = true := by
    cases hdone : c.thinkingDone <;> simp [closeThinking, hc, hdone]
  have hcloseText : (closeText (closeThinking c).1).1.thinkingDone = true := by
    rw [closeText]
    split <;> exact hclose
  cases x with
  | thinking s => cases hnot
  | content s =>
    have hs : s ≠ [] := hx
    rw [convert, processContent, if_pos hs]
    exact hclose
  | toolCall tc =>
    rw [convert, processToolCall, if_neg (hnew tc rfl)]
    simp only
    split <;> exact hcloseText

/-- Behind the first thinking, thinking changes nothing. -/
theorem convertAll_behind {c : StreamConverter} (hc : c.thinkingStarted = true)
    {xs : List (Item Args)} (hnew : NewAll marshal c xs) (hfull : ∀ x ∈ xs, x.Full)
    (hhead : ∀ x ∈ xs.head?, x.isThinking = false) :
    convertAll marshal c (xs.filter fun x => !x.isThinking) = convertAll marshal c xs ∧
      NewAll marshal c (xs.filter fun x => !x.isThinking) := by
  cases xs with
  | nil => exact ⟨rfl, trivial⟩
  | cons x xs =>
    have hnot : x.isThinking = false := hhead x rfl
    have hdone := done_convert marshal hc (hfull x (List.mem_cons_self ..)) hnot hnew.1
    obtain ⟨hall, hnew'⟩ := @convertAll_done Args marshal _ xs hdone
    rw [List.filter_cons_of_pos (by rw [hnot]; rfl), convertAll, convertAll, hall]
    exact ⟨rfl, hnew.1, hnew' hnew.2⟩

/-- What is sent is converted as all items are, and every item of it may come as it does. -/
theorem convertAll_sentItems {c : StreamConverter} (hc : Starting c)
    {rs : List (ChatResponse Args)} (h : ¬StartsInText marshal rs) :
    convertAll marshal c (sentItems marshal rs) = convertAll marshal c (allItems rs) ∧
      StartAll marshal c (sentItems marshal rs) ∧ ∀ x ∈ sentItems marshal rs, x.Full := by
  have hfresh := convertAll_fresh marshal c (allItems rs)
  have hnew := newAll_fresh marshal c (allItems rs)
  rw [hc.sent] at hfresh hnew
  have hfull : ∀ x ∈ fresh marshal [] (allItems rs), x.Full :=
    fun x hx => full_allItems rs x (mem_fresh marshal hx)
  have hitems : sentItems marshal rs = beforeThinking (fresh marshal [] (allItems rs)) ++
    firstThinking (fresh marshal [] (allItems rs)) ++
      behindThinking (fresh marshal [] (allItems rs)) := rfl
  have hstarts : ¬(firstThinking (fresh marshal [] (allItems rs)) ≠ [] ∧
    ∃ s, (beforeThinking (fresh marshal [] (allItems rs))).getLast? = some (.content s)) := h
  rw [hitems, ← hfresh]
  clear hitems hfresh h
  generalize fresh marshal [] (allItems rs) = ys at *
  -- the three parts, with all that is behind the first thinking
  generalize hR : ys.dropWhile (fun x => !x.isThinking) = R
  generalize hB : R.dropWhile Item.isThinking = B
  have hA : beforeThinking ys ++ R = ys := hR ▸ List.takeWhile_append_dropWhile
  have hT : firstThinking ys ++ B = R := by
    rw [firstThinking, hR, ← hB]
    exact List.takeWhile_append_dropWhile
  have hbehind : behindThinking ys = B.filter fun x => !x.isThinking := by
    rw [behindThinking, hR, hB]
  have hys : ys = beforeThinking ys ++ firstThinking ys ++ B := by
    rw [List.append_assoc, hT, hA]
  have hplain : ∀ x ∈ beforeThinking ys, x.isThinking = false := fun x hx => by
    simpa using List.mem_takeWhile_imp hx
  have hthinking : ∀ x ∈ firstThinking ys, x.isThinking = true :=
    fun x hx => List.mem_takeWhile_imp hx
  have hhead : ∀ x ∈ B.head?, x.isThinking = false := by
    intro x hx
    have hnot := List.head?_dropWhile_not Item.isThinking R
    rw [hB, Option.mem_def.mp hx] at hnot
    exact hnot
  have hnonempty : B ≠ [] → firstThinking ys ≠ [] := by
    intro hne hnil
    rw [hnil, List.nil_append] at hT
    obtain ⟨x, hx⟩ : ∃ x, B.head? = some x := Option.ne_none_iff_exists'.mp (by simpa using hne)
    have hnot := List.head?_dropWhile_not (fun x => !x.isThinking) ys
    rw [hR, ← hT, hx] at hnot
    simp [hhead x hx] at hnot
  rw [hys] at hnew
  obtain ⟨hnew, hnewB⟩ := (newAll_append marshal c _ B).mp hnew
  obtain ⟨hnewA, -⟩ := (newAll_append marshal c _ _).mp hnew
  have hfullA : ∀ x ∈ beforeThinking ys, x.Full := fun x hx => hfull x (by rw [hys]; simp [hx])
  have hfullT : ∀ x ∈ firstThinking ys, x.Full := fun x hx => hfull x (by rw [hys]; simp [hx])
  have hfullB : ∀ x ∈ B, x.Full := fun x hx => hfull x (by rw [hys]; simp [hx])
  obtain ⟨hstarted, hdone, htext⟩ :=
    convertAll_plain marshal hc.started hc.done hc.text hnewA hfullA hplain
  have hstartT : StartAll marshal (convertAll marshal c (beforeThinking ys)).1 (firstThinking ys) ∧
      (firstThinking ys ≠ [] → (convertAll marshal (convertAll marshal c
        (beforeThinking ys)).1 (firstThinking ys)).1.thinkingStarted = true) := by
    by_cases hnil : firstThinking ys = []
    · rw [hnil]
      exact ⟨trivial, fun h => absurd rfl h⟩
    · -- no block of text is open
      have hclosed := Bool.eq_false_iff.mpr (htext.not.mpr fun hlast => hstarts ⟨hnil, hlast⟩)
      exact startAll_thinking marshal hdone (Or.inr hclosed) hfullT hthinking
  have hB' : convertAll marshal (convertAll marshal c (beforeThinking ys ++ firstThinking ys)).1
        (B.filter fun x => !x.isThinking) =
      convertAll marshal (convertAll marshal c (beforeThinking ys ++ firstThinking ys)).1 B ∧
      NewAll marshal (convertAll marshal c (beforeThinking ys ++ firstThinking ys)).1
        (B.filter fun x => !x.isThinking) := by
    by_cases hnil : B = []
    · rw [hnil]
      exact ⟨rfl, trivial⟩
    · have hyes := hstartT.2 (hnonempty hnil)
      rw [convertAll_append] at hnewB ⊢
      exact convertAll_behind marshal hyes hnewB hfullB hhead
  have hplainB : ∀ x ∈ B.filter fun x => !x.isThinking, x.isThinking = false :=
    fun x hx => by simpa using (List.mem_filter.mp hx).2
  rw [hbehind]
  refine ⟨?_, ?_, ?_⟩
  · rw [convertAll_append, hB'.1, ← convertAll_append, ← hys]
  · refine (startAll_append marshal c _ _).mpr ⟨(startAll_append marshal c _ _).mpr
      ⟨startAll_of_new marshal hnewA hplain, hstartT.1⟩, startAll_of_new marshal hB'.2 hplainB⟩
  · intro x hx
    rcases List.mem_append.mp hx with hx | hx
    · rcases List.mem_append.mp hx with hx | hx
      · exact hfullA x hx
      · exact hfullT x hx
    · exact hfullB x (List.mem_filter.mp hx).1

/-- Responses of which exactly the last is done, in which thinking does not start in a block of
text, make a whole message with all that is sent. -/
theorem process_sent (id model : String) (estimatedInputTokens : Int)
    (rs : List (ChatResponse Args)) (last : ChatResponse Args)
    (hrs : ∀ r ∈ rs, r.done = false) (hlast : last.done = true)
    (htext : ¬StartsInText marshal (rs ++ [last])) :
    Sent marshal (rs ++ [last]) (processAll marshal
      (newStreamConverter id model estimatedInputTokens) (rs ++ [last])) := by
  obtain ⟨c, inputTokens, hc, hevents⟩ :=
    @processAll_eq Args marshal id model estimatedInputTokens rs last hrs
  obtain ⟨hwell, hcontents, hthinking, htools⟩ :=
    client_eq marshal hc id model inputTokens (allItems (rs ++ [last])) last
  obtain ⟨hsame, hstart, hfull⟩ := convertAll_sentItems marshal hc htext
  obtain ⟨hrun, hthinkings, hcalls⟩ := convertAll_startAll marshal hc.oneOpen hfull hstart hlast
  have hinputs := toolInputs_eq marshal hstart id model inputTokens last
  rw [hsame] at hrun hthinkings hcalls hinputs
  rw [hevents]
  exact ⟨hwell.mpr hrun, hcontents.trans (texts_allItems _).1, hthinking.trans hthinkings,
    htools.trans hcalls, hinputs⟩

/-- A response with at most one tool call. -/
def response (thinking content : String) (id? : Option String) (done : Bool) :
    ChatResponse Bool where
  thinking := thinking.toList
  content := content.toList
  toolCalls := id?.toList.map fun id => { id := id, name := "f", arguments := id ≠ "bad" }
  done := done
  doneReason := if done then "stop" else ""
  promptEvalCount := 1
  evalCount := 1

/-- Arguments that can be marshalled, and others. -/
def marshalTrue (arguments : Bool) : Option String := if arguments then some "{}" else none

/-- Thinking, a tool call, content and thinking again. -/
theorem process_sent_one :
    let rs := [response "a" "" (some "x") false, response "" "b" none false,
      response "c" "" none true]
    Sent marshalTrue rs (processAll marshalTrue (newStreamConverter "id" "model" 0) rs) :=
  process_sent marshalTrue "id" "model" 0
    [response "a" "" (some "x") false, response "" "b" none false] (response "c" "" none true)
    (by simp [response]) rfl (fun h => by
      obtain ⟨-, s, hs⟩ := h
      have hnil : beforeThinking (fresh marshalTrue [] (([response "a" "" (some "x") false,
        response "" "b" none false] ++ [response "c" "" none true]).map items).flatten) = [] := rfl
      rw [hnil] at hs
      cases hs)

/-- Thinking, content and a tool call. -/
theorem process_faithful_one :
    let rs := [response "a" "" none false, response "" "b" (some "x") true]
    Faithful marshalTrue rs (processAll marshalTrue (newStreamConverter "id" "model" 0) rs) := by
  refine (process_faithful_iff marshalTrue "id" "model" 0 [response "a" "" none false]
    (response "" "b" (some "x") true) (by simp [response]) rfl).mpr ?_
  intro before x behind hitems
  have heq : [.thinking ['a'], .content ['b'], .toolCall ⟨"x", "f", true⟩] = before ++ x :: behind :=
    hitems
  rcases before with _ | ⟨y, _ | ⟨z, _ | ⟨w, before⟩⟩⟩
  · obtain ⟨rfl, -⟩ := List.cons.inj heq
    trivial
  · simp only [List.cons_append, List.nil_append, List.cons.injEq] at heq
    obtain ⟨-, rfl, -⟩ := heq
    trivial
  · simp only [List.cons_append, List.nil_append, List.cons.injEq] at heq
    obtain ⟨rfl, rfl, rfl, -⟩ := heq
    exact ⟨by decide, by decide⟩
  · simp at heq

/-- Thinking behind content makes a second block in the open one; thinking that comes again,
tool calls with an id that was used and those that cannot be marshalled are left out. -/
theorem process_not_faithful :
    let events := fun rs => processAll marshalTrue (newStreamConverter "id" "model" 0) rs
    let thinkingLate := [response "" "a" none false, response "b" "" none true]
    let thinkingAgain := [response "a" "b" none false, response "c" "" none true]
    let sameId := [response "" "" (some "") false, response "" "" (some "") true]
    let unmarshalable := [response "" "" (some "bad") true]
    ¬Faithful marshalTrue thinkingLate (events thinkingLate) ∧
      ¬Faithful marshalTrue thinkingAgain (events thinkingAgain) ∧
      ¬Faithful marshalTrue sameId (events sameId) ∧
      ¬Faithful marshalTrue unmarshalable (events unmarshalable) := by
  intro events thinkingLate thinkingAgain sameId unmarshalable
  have hlate : ¬WellFormed (events thinkingLate) := by decide
  have hagain : thinkingOf (events thinkingAgain) ≠ thinkings thinkingAgain := by decide
  have hsame : toolUses (events sameId) ≠ calls sameId := by decide
  have hbad : toolUses (events unmarshalable) ≠ calls unmarshalable := by decide
  exact ⟨fun h => hlate h.wellFormed, fun h => hagain h.thinking, fun h => hsame h.toolUse,
    fun h => hbad h.toolUse⟩

end Prismalama.Anthropic
