import Mathlib.Tactic

/-!
# The Responses API stream (`openai/responses.go`)

`ResponsesStreamConverter.Process` turns each response of a model into events of the Responses
API: output items are added, grow by deltas and are closed, and the last event has the whole
output, which is built from other fields of the converter. `Client` follows the events and
refuses those that do not fit.

`rand` gives the numbers that `rand.Intn` draws, one after the other; `marshal` is `json.Marshal`.
-/

namespace Prismalama.Openai

abbrev Text := List Char

variable {Args : Type}

structure ToolCall (Args : Type) where
  id : String
  name : String
  arguments : Args

/-- What `Process` reads of a `ChatResponse`. -/
structure ChatResponse (Args : Type) where
  thinking : Text
  content : Text
  toolCalls : List (ToolCall Args)
  done : Bool
  promptEvalCount : Int
  evalCount : Int

inductive Status where
  | inProgress
  | completed
  deriving DecidableEq

inductive OutputItem where
  | reasoning (id : String) (summary : List Text) (encryptedContent : Option Text)
  | functionCall (id : String) (status : Status) (callID name : String) (arguments : Text)
  | message (id : String) (status : Status) (content : List Text)
  deriving DecidableEq

structure Usage where
  inputTokens : Int
  outputTokens : Int
  totalTokens : Int
  deriving DecidableEq

/-- What a response object has beside what it repeats of the request. -/
structure ResponseObject where
  id : String
  model : String
  status : Status
  output : List OutputItem
  usage : Option Usage
  deriving DecidableEq

inductive EventData where
  | responseCreated (response : ResponseObject)
  | responseInProgress (response : ResponseObject)
  | responseCompleted (response : ResponseObject)
  | outputItemAdded (outputIndex : Nat) (item : OutputItem)
  | outputItemDone (outputIndex : Nat) (item : OutputItem)
  | reasoningSummaryTextDelta (itemID : String) (outputIndex : Nat) (delta : Text)
  | reasoningSummaryTextDone (itemID : String) (outputIndex : Nat) (text : Text)
  | functionCallArgumentsDelta (itemID : String) (outputIndex : Nat) (delta : Text)
  | functionCallArgumentsDone (itemID : String) (outputIndex : Nat) (arguments : Text)
  | contentPartAdded (itemID : String) (outputIndex contentIndex : Nat) (text : Text)
  | contentPartDone (itemID : String) (outputIndex contentIndex : Nat) (text : Text)
  | outputTextDelta (itemID : String) (outputIndex contentIndex : Nat) (delta : Text)
  | outputTextDone (itemID : String) (outputIndex contentIndex : Nat) (text : Text)
  deriving DecidableEq

structure ResponsesStreamEvent where
  sequenceNumber : Nat
  data : EventData
  deriving DecidableEq

structure ResponsesStreamConverter where
  responseID : String
  itemID : String
  model : String
  firstWrite : Bool
  outputIndex : Nat
  contentIndex : Nat
  contentStarted : Bool
  toolCallsSent : Bool
  accumulatedText : Text
  sequenceNumber : Nat
  accumulatedThinking : Text
  reasoningItemID : String
  reasoningStarted : Bool
  reasoningDone : Bool
  toolCallItems : List OutputItem
  /-- Not a field of the source: how many numbers were drawn. -/
  drawn : Nat

def newResponsesStreamConverter (responseID itemID model : String) : ResponsesStreamConverter where
  responseID := responseID
  itemID := itemID
  model := model
  firstWrite := true
  outputIndex := 0
  contentIndex := 0
  contentStarted := false
  toolCallsSent := false
  accumulatedText := []
  sequenceNumber := 0
  accumulatedThinking := []
  reasoningItemID := ""
  reasoningStarted := false
  reasoningDone := false
  toolCallItems := []
  drawn := 0

/-! ## `Process` -/

namespace ResponsesStreamConverter

variable (marshal : Args → Option Text) (rand : Nat → Nat) (c : ResponsesStreamConverter)

def buildResponseObject (status : Status) (output : List OutputItem) (usage : Option Usage) :
    ResponseObject :=
  ⟨c.responseID, c.model, status, output, usage⟩

def processThinking (thinking : Text) : ResponsesStreamConverter × List EventData :=
  let (c, added) : ResponsesStreamConverter × List EventData :=
    if c.reasoningStarted then (c, [])
    else
      let c := { c with
        reasoningStarted := true
        reasoningItemID := "rs_" ++ toString (rand c.drawn)
        drawn := c.drawn + 1 }
      (c, [.outputItemAdded c.outputIndex (.reasoning c.reasoningItemID [] none)])
  let c := { c with accumulatedThinking := c.accumulatedThinking ++ thinking }
  (c, added ++ [.reasoningSummaryTextDelta c.reasoningItemID c.outputIndex thinking])

/-- The reasoning item when it is done. -/
def reasoningItem : OutputItem :=
  .reasoning c.reasoningItemID [c.accumulatedThinking] (some c.accumulatedThinking)

def finishReasoning : ResponsesStreamConverter × List EventData :=
  if !c.reasoningStarted || c.reasoningDone then (c, [])
  else
    ({ c with reasoningDone := true, outputIndex := c.outputIndex + 1 },
      [.reasoningSummaryTextDone c.reasoningItemID c.outputIndex c.accumulatedThinking,
        .outputItemDone c.outputIndex c.reasoningItem])

/-- The arguments in `ToToolCalls`: empty when they cannot be marshalled. -/
def arguments (tc : ToolCall Args) : Text := (marshal tc.arguments).getD []

/-- The loop over the calls, from the `i`-th on. -/
def toolCallLoop : ResponsesStreamConverter → Nat → List (ToolCall Args) →
    ResponsesStreamConverter × List EventData
  | c, _, [] => (c, [])
  | c, i, tc :: tcs =>
    let fcItemID := "fc_" ++ toString (rand c.drawn) ++ "_" ++ toString i
    let args := arguments marshal tc
    let toolCallItem := OutputItem.functionCall fcItemID .completed tc.id tc.name args
    let c := { c with toolCallItems := c.toolCallItems ++ [toolCallItem], drawn := c.drawn + 1 }
    let events := [.outputItemAdded (c.outputIndex + i)
        (.functionCall fcItemID .inProgress tc.id tc.name [])] ++
      (if args ≠ [] then [.functionCallArgumentsDelta fcItemID (c.outputIndex + i) args] else []) ++
      [.functionCallArgumentsDone fcItemID (c.outputIndex + i) args,
        .outputItemDone (c.outputIndex + i) toolCallItem]
    let (c, rest) := toolCallLoop c (i + 1) tcs
    (c, events ++ rest)

def processToolCalls (toolCalls : List (ToolCall Args)) :
    ResponsesStreamConverter × List EventData :=
  let (c, reasoning) := c.finishReasoning
  let (c, calls) := toolCallLoop marshal rand c 0 toolCalls
  (c, reasoning ++ calls)

def processTextContent (content : Text) : ResponsesStreamConverter × List EventData :=
  let (c, reasoning) := c.finishReasoning
  let (c, added) : ResponsesStreamConverter × List EventData :=
    if c.contentStarted then (c, [])
    else
      ({ c with contentStarted := true },
        [.outputItemAdded c.outputIndex (.message c.itemID .inProgress []),
          .contentPartAdded c.itemID c.outputIndex c.contentIndex []])
  let c := { c with accumulatedText := c.accumulatedText ++ content }
  (c, reasoning ++ added ++ [.outputTextDelta c.itemID c.outputIndex 0 content])

/-- The message when it is done. -/
def messageItem : OutputItem := .message c.itemID .completed [c.accumulatedText]

def buildFinalOutput : List OutputItem :=
  (if c.reasoningStarted then [c.reasoningItem] else []) ++
    if 0 < c.toolCallItems.length then c.toolCallItems
    else if c.contentStarted then [c.messageItem]
    else []

def processCompletion (r : ChatResponse Args) : ResponsesStreamConverter × List EventData :=
  let (c, reasoning) := c.finishReasoning
  let text : List EventData :=
    if !c.toolCallsSent && c.contentStarted then
      [.outputTextDone c.itemID c.outputIndex 0 c.accumulatedText,
        .contentPartDone c.itemID c.outputIndex 0 c.accumulatedText,
        .outputItemDone c.outputIndex c.messageItem]
    else []
  let usage : Usage := ⟨r.promptEvalCount, r.evalCount, r.promptEvalCount + r.evalCount⟩
  (c, reasoning ++ text ++
    [.responseCompleted (c.buildResponseObject .completed c.buildFinalOutput (some usage))])

/-- The first two events. -/
def processStart : ResponsesStreamConverter × List EventData :=
  if c.firstWrite then
    let c := { c with firstWrite := false }
    (c, [.responseCreated (c.buildResponseObject .inProgress [] none),
      .responseInProgress (c.buildResponseObject .inProgress [] none)])
  else (c, [])

/-- The data of the events of a response, in order. -/
def processData (r : ChatResponse Args) : ResponsesStreamConverter × List EventData :=
  let (c, start) := c.processStart
  let (c, thinking) := if r.thinking ≠ [] then c.processThinking rand r.thinking else (c, [])
  let (c, calls) : ResponsesStreamConverter × List EventData :=
    if r.toolCalls ≠ [] then
      let (c, calls) := c.processToolCalls marshal rand r.toolCalls
      ({ c with toolCallsSent := true }, calls)
    else (c, [])
  let (c, content) : ResponsesStreamConverter × List EventData :=
    if r.toolCalls = [] ∧ c.toolCallsSent = false ∧ r.content ≠ [] then
      c.processTextContent r.content
    else (c, [])
  let (c, done) := if r.done then c.processCompletion r else (c, [])
  (c, start ++ thinking ++ calls ++ content ++ done)

/-- `newEvent` -/
def newEvent (data : EventData) : ResponsesStreamConverter × ResponsesStreamEvent :=
  ({ c with sequenceNumber := c.sequenceNumber + 1 }, ⟨c.sequenceNumber, data⟩)

/-- Events are made in the order in which they are returned. -/
def newEvents : ResponsesStreamConverter → List EventData →
    ResponsesStreamConverter × List ResponsesStreamEvent
  | c, [] => (c, [])
  | c, data :: rest =>
    let (c, event) := c.newEvent data
    let (c, events) := newEvents c rest
    (c, event :: events)

def process (r : ChatResponse Args) : ResponsesStreamConverter × List ResponsesStreamEvent :=
  let (c, data) := c.processData marshal rand r
  c.newEvents data

/-- The events of responses. -/
def processAll : ResponsesStreamConverter → List (ChatResponse Args) → List ResponsesStreamEvent
  | _, [] => []
  | c, r :: rs =>
    let (c, events) := c.process marshal rand r
    events ++ processAll c rs

end ResponsesStreamConverter

/-! ## What a client makes of the events -/

def OutputItem.id : OutputItem → String
  | .reasoning id _ _ => id
  | .functionCall id _ _ _ _ => id
  | .message id _ _ => id

/-- The text that deltas bring. -/
def OutputItem.text : OutputItem → Text
  | .reasoning _ summary _ => summary.flatten
  | .functionCall _ _ _ _ arguments => arguments
  | .message _ _ content => content.flatten

/-- The same item, whatever its status and its text. -/
def OutputItem.Same : OutputItem → OutputItem → Prop
  | .reasoning id _ _, .reasoning id' _ _ => id = id'
  | .functionCall id _ callID name _, .functionCall id' _ callID' name' _ =>
    id = id' ∧ callID = callID' ∧ name = name'
  | .message id _ _, .message id' _ _ => id = id'
  | _, _ => False

instance : (item item' : OutputItem) → Decidable (item.Same item')
  | .reasoning _ _ _, .reasoning _ _ _ => inferInstanceAs (Decidable (_ = _))
  | .functionCall _ _ _ _ _, .functionCall _ _ _ _ _ => inferInstanceAs (Decidable (_ ∧ _))
  | .message _ _ _, .message _ _ _ => inferInstanceAs (Decidable (_ = _))
  | .reasoning _ _ _, .functionCall _ _ _ _ _ => inferInstanceAs (Decidable False)
  | .reasoning _ _ _, .message _ _ _ => inferInstanceAs (Decidable False)
  | .functionCall _ _ _ _ _, .reasoning _ _ _ => inferInstanceAs (Decidable False)
  | .functionCall _ _ _ _ _, .message _ _ _ => inferInstanceAs (Decidable False)
  | .message _ _ _, .reasoning _ _ _ => inferInstanceAs (Decidable False)
  | .message _ _ _, .functionCall _ _ _ _ _ => inferInstanceAs (Decidable False)

/-- An item at its index: as it was added, what the deltas brought, and as it was closed. -/
structure Entry where
  item : OutputItem
  text : Text
  final : Option OutputItem
  deriving DecidableEq

structure Client where
  entries : List Entry
  /-- The output of `response.completed`. -/
  output : Option (List OutputItem)
  deriving DecidableEq

namespace Client

/-- Change the entry at an index, if there is an open one that fits. -/
def update (k : Client) (index : Nat) (itemID : String) (f : Entry → Option Entry) :
    Option Client :=
  match k.entries[index]? with
  | none => none
  | some e =>
    if e.final = none ∧ e.item.id = itemID then
      (f e).map fun e' => { k with entries := k.entries.set index e' }
    else none

/-- A delta for an item. -/
def grow (k : Client) (index : Nat) (itemID : String) (delta : Text) : Option Client :=
  k.update index itemID fun e => some { e with text := e.text ++ delta }

/-- An event with the whole text of an item. -/
def agree (k : Client) (index : Nat) (itemID : String) (text : Text) : Option Client :=
  k.update index itemID fun e => if text = e.text then some e else none

/-- One event, if it may come. -/
def step (k : Client) (event : EventData) : Option Client :=
  if k.output.isSome then none
  else
    match event with
    | .responseCreated _ => some k
    | .responseInProgress _ => some k
    | .responseCompleted response =>
      if k.entries.map Entry.final = response.output.map some then
        some { k with output := some response.output }
      else none
    | .outputItemAdded index item =>
      if index = k.entries.length ∧ item.text = [] then
        some { k with entries := k.entries ++ [⟨item, [], none⟩] }
      else none
    | .outputItemDone index item =>
      k.update index item.id fun e =>
        if e.item.Same item ∧ item.text = e.text then some { e with final := some item } else none
    | .reasoningSummaryTextDelta itemID index delta => k.grow index itemID delta
    | .functionCallArgumentsDelta itemID index delta => k.grow index itemID delta
    | .outputTextDelta itemID index _ delta => k.grow index itemID delta
    | .reasoningSummaryTextDone itemID index text => k.agree index itemID text
    | .functionCallArgumentsDone itemID index text => k.agree index itemID text
    | .outputTextDone itemID index _ text => k.agree index itemID text
    | .contentPartAdded itemID index _ text => k.agree index itemID text
    | .contentPartDone itemID index _ text => k.agree index itemID text

def run (k : Client) (events : List EventData) : Option Client := events.foldlM step k

end Client

/-- The events are numbered from 0 on, and a client gets through them to `output`. -/
def WellFormed (events : List ResponsesStreamEvent) (output : List OutputItem) : Prop :=
  events.map ResponsesStreamEvent.sequenceNumber = List.range events.length ∧
    (Client.run ⟨[], none⟩ (events.map ResponsesStreamEvent.data)).bind Client.output = some output

/-! ## What is sent -/

def OutputItem.thinking : OutputItem → Text
  | .reasoning _ summary _ => summary.flatten
  | _ => []

def OutputItem.content : OutputItem → Text
  | .message _ _ content => content.flatten
  | _ => []

/-- Id, name and arguments of a call. -/
def OutputItem.calls : OutputItem → List (String × String × Text)
  | .functionCall _ _ callID name arguments => [(callID, name, arguments)]
  | _ => []

def thinkingOf (rs : List (ChatResponse Args)) : Text := rs.flatMap ChatResponse.thinking

def contentOf (rs : List (ChatResponse Args)) : Text := rs.flatMap ChatResponse.content

def callsOf (marshal : Args → Option Text) (rs : List (ChatResponse Args)) :
    List (String × String × Text) :=
  rs.flatMap fun r => r.toolCalls.map fun tc =>
    (tc.id, tc.name, ResponsesStreamConverter.arguments marshal tc)

/-- Exactly the last response is done. -/
def EndsDone : List (ChatResponse Args) → Prop
  | [] => False
  | [r] => r.done = true
  | r :: rs => r.done = false ∧ EndsDone rs

/-- What has been sent: nothing but thinking, content, or tool calls. -/
inductive Stage where
  | thinking
  | content
  | toolCalls

/-- Thinking comes no later than the first content or tool calls, and tool calls come in one
response, before which there is no content. -/
def Orderly : Stage → List (ChatResponse Args) → Prop
  | _, [] => True
  | .thinking, r :: rs =>
    if r.toolCalls ≠ [] then Orderly .toolCalls rs
    else if r.content ≠ [] then Orderly .content rs
    else Orderly .thinking rs
  | .content, r :: rs => r.thinking = [] ∧ r.toolCalls = [] ∧ Orderly .content rs
  | .toolCalls, r :: rs => r.thinking = [] ∧ r.toolCalls = [] ∧ Orderly .toolCalls rs

end Prismalama.Openai
