import Prismalama.Openai.ResponsesStream

/-!
# What the Responses API stream keeps

Tool calls take no index of their own away from later items, a message is closed only when no
tool call was sent, and thinking is always sent with the current index. So the stream is well
formed while thinking comes first, and then either content or the tool calls of one response
(`process_lossless`). What a client knows at any point is a function of the converter
(`entries`); content beside or after tool calls is left out.
-/

namespace Prismalama.Openai

open ResponsesStreamConverter

variable {Args : Type}

/-! ## Events one after the other -/

/-- The events lead a client from some entries to others. -/
def Leads (entries : List Entry) (events : List EventData) (entries' : List Entry) : Prop :=
  Client.run ⟨entries, none⟩ events = some ⟨entries', none⟩

section Events

variable {k k' k'' : List Entry} {es es' : List EventData} {item final : OutputItem}
  {id : String} {text : Text}

theorem Client.run_append (c : Client) (es es' : List EventData) :
    c.run (es ++ es') = (c.run es).bind fun c' => c'.run es' :=
  List.foldlM_append

theorem Leads.nil (k : List Entry) : Leads k [] k := rfl

theorem Leads.append (h : Leads k es k') (h' : Leads k' es' k'') : Leads k (es ++ es') k'' := by
  unfold Leads at *
  rw [Client.run_append, h, Option.bind_some, h']

theorem Leads.cons {e : EventData} (h : Leads k [e] k') (h' : Leads k' es k'') :
    Leads k (e :: es) k'' := h.append h'

theorem Leads.of_step {e : EventData} (h : Client.step ⟨k, none⟩ e = some ⟨k', none⟩) :
    Leads k [e] k' := by
  unfold Leads Client.run
  rw [List.foldlM_cons, h]
  rfl

theorem leads_added (h : item.text = []) :
    Leads k [.outputItemAdded k.length item] (k ++ [⟨item, [], none⟩]) :=
  .of_step (by
    show (if _ ∧ _ then _ else _) = _
    rw [if_pos ⟨rfl, h⟩])

theorem update_last (hid : item.id = id) (f : Entry → Option Entry) :
    Client.update ⟨k ++ [⟨item, text, none⟩], none⟩ k.length id f =
      (f ⟨item, text, none⟩).map fun e => ⟨k ++ [e], none⟩ := by
  unfold Client.update
  dsimp only
  rw [List.getElem?_concat_length]
  dsimp only
  rw [if_pos ⟨rfl, hid⟩]
  refine congrArg (fun g => Option.map g _) (funext fun e => ?_)
  rw [List.set_append_right _ _ (le_refl _), Nat.sub_self, List.set_cons_zero]

theorem grow_last (hid : item.id = id) (delta : Text) :
    Client.grow ⟨k ++ [⟨item, text, none⟩], none⟩ k.length id delta =
      some ⟨k ++ [⟨item, text ++ delta, none⟩], none⟩ :=
  update_last hid _

theorem agree_last (hid : item.id = id) :
    Client.agree ⟨k ++ [⟨item, text, none⟩], none⟩ k.length id text =
      some ⟨k ++ [⟨item, text, none⟩], none⟩ := by
  unfold Client.agree
  rw [update_last hid, if_pos rfl]
  rfl

theorem leads_done (hid : item.id = final.id) (hsame : item.Same final)
    (htext : final.text = text) :
    Leads (k ++ [⟨item, text, none⟩]) [.outputItemDone k.length final]
      (k ++ [⟨item, text, some final⟩]) := by
  refine .of_step ?_
  show Client.update _ _ _ _ = _
  rw [update_last hid, if_pos ⟨hsame, htext⟩]
  rfl

end Events

/-! ## What a client knows -/

/-- An item as it is added. -/
def OutputItem.added : OutputItem → OutputItem
  | .reasoning id _ _ => .reasoning id [] none
  | .functionCall id _ callID name _ => .functionCall id .inProgress callID name []
  | .message id _ _ => .message id .inProgress []

/-- The entry of an item that is closed. -/
def closed (item : OutputItem) : Entry := ⟨item.added, item.text, some item⟩

def reasoningEntries (c : ResponsesStreamConverter) : List Entry :=
  if c.reasoningStarted then
    [⟨.reasoning c.reasoningItemID [] none, c.accumulatedThinking,
      if c.reasoningDone then some c.reasoningItem else none⟩]
  else []

/-- The entries of a client at a stage. -/
def entries (c : ResponsesStreamConverter) : Stage → List Entry
  | .thinking => reasoningEntries c
  | .content =>
    reasoningEntries c ++ [⟨.message c.itemID .inProgress [], c.accumulatedText, none⟩]
  | .toolCalls => reasoningEntries c ++ c.toolCallItems.map closed

/-- The reasoning item, if there is one, is closed, and the index is that of the next item. -/
structure Finished (c : ResponsesStreamConverter) : Prop where
  done : c.reasoningDone = c.reasoningStarted
  index : c.outputIndex = (reasoningEntries c).length

/-- The item is a tool call. -/
def OutputItem.IsCall (item : OutputItem) : Prop :=
  item.thinking = [] ∧ item.content = [] ∧ item.calls ≠ []

/-- The converter at a stage. -/
def Holds (c : ResponsesStreamConverter) : Stage → Prop
  | .thinking => c.outputIndex = 0 ∧ c.reasoningDone = false ∧ c.contentStarted = false ∧
      c.toolCallsSent = false ∧ c.toolCallItems = [] ∧ c.accumulatedText = []
  | .content => Finished c ∧ c.contentStarted = true ∧ c.toolCallsSent = false ∧
      c.toolCallItems = []
  | .toolCalls => Finished c ∧ c.toolCallsSent = true ∧ c.toolCallItems ≠ [] ∧
      ∀ item ∈ c.toolCallItems, item.IsCall

/-- Without reasoning there is no thinking. -/
def Fresh (c : ResponsesStreamConverter) : Prop :=
  c.reasoningStarted = false → c.accumulatedThinking = []

section Steps

variable {c : ResponsesStreamConverter} {rand : Nat → Nat} {marshal : Args → Option Text}

theorem processThinking_spec (rand : Nat → Nat) (h : Holds c .thinking) (hfresh : Fresh c)
    (thinking : Text) :
    ∃ c' es, c.processThinking rand thinking = (c', es) ∧ Holds c' .thinking ∧ Fresh c' ∧
      Leads (entries c .thinking) es (entries c' .thinking) ∧
      c'.accumulatedThinking = c.accumulatedThinking ++ thinking := by
  obtain ⟨hindex, hdone, hrest⟩ := h
  unfold processThinking
  by_cases hs : c.reasoningStarted = true
  · rw [if_pos hs]
    refine ⟨_, _, rfl, ⟨hindex, hdone, hrest⟩, fun hnot => absurd hs (by simpa using hnot), ?_, rfl⟩
    simp only [entries, reasoningEntries, hs, hdone, hindex, if_true, Bool.false_eq_true, if_false,
      List.nil_append]
    exact .of_step (grow_last (k := []) rfl thinking)
  · rw [if_neg hs]
    refine ⟨_, _, rfl, ⟨hindex, hdone, hrest⟩, fun hnot => absurd hnot (by simp), ?_, rfl⟩
    simp only [entries, reasoningEntries, hs, hdone, hindex, hfresh (Bool.eq_false_iff.mpr hs),
      if_true, Bool.false_eq_true, if_false, List.nil_append]
    exact (leads_added (k := []) rfl).cons (.of_step (grow_last (k := []) rfl thinking))

theorem Finished.finishReasoning (h : Finished c) : c.finishReasoning = (c, []) := by
  unfold ResponsesStreamConverter.finishReasoning
  rw [h.done]
  cases c.reasoningStarted <;> rfl

/-- Closing the reasoning item changes nothing else. -/
theorem finishReasoning_spec (h : Holds c .thinking) :
    ∃ c' es, c.finishReasoning = (c', es) ∧ Finished c' ∧
      Leads (reasoningEntries c) es (reasoningEntries c') ∧
      c' = { c with reasoningDone := c'.reasoningDone, outputIndex := c'.outputIndex } := by
  obtain ⟨hindex, hdone, -⟩ := h
  unfold ResponsesStreamConverter.finishReasoning
  by_cases hs : c.reasoningStarted = true
  · rw [if_neg (by rw [hs, hdone]; decide)]
    refine ⟨_, _, rfl, ⟨hs.symm, ?_⟩, ?_, rfl⟩
    · simp only [reasoningEntries, hs, hindex, if_true, List.length_singleton]
    · simp only [reasoningEntries, hs, hdone, hindex, if_true, Bool.false_eq_true, if_false]
      refine Leads.cons (.of_step (agree_last (k := []) rfl)) ?_
      exact leads_done (k := []) rfl rfl (List.append_nil _)
  · have hfalse := Bool.eq_false_iff.mpr hs
    rw [if_pos (by rw [hfalse]; rfl)]
    refine ⟨c, [], rfl, ⟨hdone.trans hfalse.symm, ?_⟩, .nil _, rfl⟩
    simp only [reasoningEntries, hs, hindex, Bool.false_eq_true, if_false, List.length_nil]

/-- The events of one call. -/
theorem leads_call {k : List Entry} (id callID name : String) (args : Text) :
    Leads k ([.outputItemAdded k.length (.functionCall id .inProgress callID name [])] ++
      (if args ≠ [] then [.functionCallArgumentsDelta id k.length args] else []) ++
      [.functionCallArgumentsDone id k.length args,
        .outputItemDone k.length (.functionCall id .completed callID name args)])
      (k ++ [closed (.functionCall id .completed callID name args)]) := by
  have hdelta : Leads (k ++ [⟨.functionCall id .inProgress callID name [], [], none⟩])
      (if args ≠ [] then [.functionCallArgumentsDelta id k.length args] else [])
      (k ++ [⟨.functionCall id .inProgress callID name [], args, none⟩]) := by
    split
    · exact .of_step (grow_last rfl args)
    · rename_i hargs
      rw [not_not.mp hargs]
      exact .nil _
  refine ((leads_added rfl).append hdelta).append (Leads.cons (.of_step (agree_last rfl)) ?_)
  exact leads_done rfl ⟨rfl, rfl, rfl⟩ rfl

/-- Every call is an item of its own, added and closed at the next index. -/
theorem toolCallLoop_spec (marshal : Args → Option Text) (rand : Nat → Nat)
    (tcs : List (ToolCall Args)) (c : ResponsesStreamConverter) (i : Nat)
    (hindex : c.outputIndex = (reasoningEntries c).length) (hi : i = c.toolCallItems.length) :
    ∃ c' es items, toolCallLoop marshal rand c i tcs = (c', es) ∧
      c' = { c with toolCallItems := c.toolCallItems ++ items, drawn := c'.drawn } ∧
      Leads (entries c .toolCalls) es (entries c' .toolCalls) ∧
      (∀ item ∈ items, item.IsCall) ∧ items.length = tcs.length ∧
      items.flatMap OutputItem.calls =
        tcs.map fun tc => (tc.id, tc.name, arguments marshal tc) := by
  induction tcs generalizing c i with
  | nil =>
    refine ⟨c, [], [], rfl, ?_, .nil _, fun item h => absurd h List.not_mem_nil, rfl, rfl⟩
    rw [List.append_nil]
  | cons tc tcs ih =>
    obtain ⟨c', es, items, hloop, hc', hleads, hcall, hlen, hcalls⟩ := ih
      { c with
        toolCallItems := c.toolCallItems ++ [.functionCall
          ("fc_" ++ toString (rand c.drawn) ++ "_" ++ toString i) .completed tc.id tc.name
          (arguments marshal tc)]
        drawn := c.drawn + 1 } (i + 1) hindex (by rw [List.length_append, hi]; rfl)
    have hk : c.outputIndex + i = (entries c .toolCalls).length := by
      show _ = (reasoningEntries c ++ _).length
      rw [List.length_append, List.length_map, hindex, hi]
    have hcall' := leads_call (k := entries c .toolCalls)
      ("fc_" ++ toString (rand c.drawn) ++ "_" ++ toString i) tc.id tc.name (arguments marshal tc)
    rw [← hk] at hcall'
    refine ⟨c', _, .functionCall ("fc_" ++ toString (rand c.drawn) ++ "_" ++ toString i) .completed
      tc.id tc.name (arguments marshal tc) :: items, by rw [toolCallLoop, hloop], ?_,
      Leads.append hcall' ?_, ?_, ?_, ?_⟩
    · rw [hc', List.append_assoc]
      rfl
    · have hentries : entries c .toolCalls ++ [closed (.functionCall
          ("fc_" ++ toString (rand c.drawn) ++ "_" ++ toString i) .completed tc.id tc.name
          (arguments marshal tc))] =
        reasoningEntries c ++ (c.toolCallItems ++ [OutputItem.functionCall
          ("fc_" ++ toString (rand c.drawn) ++ "_" ++ toString i) .completed tc.id tc.name
          (arguments marshal tc)]).map closed := by
        rw [List.map_append, ← List.append_assoc]
        rfl
      rw [hentries]
      exact hleads
    · intro item hitem
      rcases List.mem_cons.mp hitem with rfl | hitem
      · exact ⟨rfl, rfl, List.cons_ne_nil _ _⟩
      · exact hcall item hitem
    · rw [List.length_cons, List.length_cons, hlen]
    · rw [List.flatMap_cons, List.map_cons, hcalls]
      rfl

theorem processToolCalls_spec (marshal : Args → Option Text) (rand : Nat → Nat)
    (h : Holds c .thinking) (hfresh : Fresh c) {tcs : List (ToolCall Args)} (htcs : tcs ≠ []) :
    ∃ c' es, c.processToolCalls marshal rand tcs = (c', es) ∧
      Holds { c' with toolCallsSent := true } .toolCalls ∧ Fresh c' ∧
      Leads (entries c .thinking) es (entries c' .toolCalls) ∧
      c'.accumulatedThinking = c.accumulatedThinking ∧
      c'.toolCallItems.flatMap OutputItem.calls =
        tcs.map fun tc => (tc.id, tc.name, arguments marshal tc) := by
  obtain ⟨c₁, es₁, hfinish, hfin, hleads₁, hc₁⟩ := finishReasoning_spec h
  have hitems : c₁.toolCallItems = [] := by
    rw [hc₁]
    exact h.2.2.2.2.1
  obtain ⟨c', es, items, hloop, hc', hleads, hcall, hlen, hcalls⟩ :=
    toolCallLoop_spec marshal rand tcs c₁ 0 hfin.index (by rw [hitems]; rfl)
  rw [hitems, List.nil_append] at hc'
  have hk : entries c₁ .toolCalls = reasoningEntries c₁ := by
    rw [entries, hitems]
    exact List.append_nil _
  rw [hk] at hleads
  refine ⟨c', es₁ ++ es, ?_, ⟨?_, rfl, ?_, ?_⟩, ?_, hleads₁.append hleads, ?_, ?_⟩
  · unfold processToolCalls
    rw [hfinish]
    dsimp only
    rw [hloop]
  · rw [hc']
    exact ⟨hfin.done, hfin.index⟩
  · rw [hc']
    show items ≠ []
    rintro rfl
    exact htcs (List.length_eq_zero_iff.mp hlen.symm)
  · rw [hc']
    exact hcall
  · rw [hc', hc₁]
    exact hfresh
  · rw [hc', hc₁]
  · rw [hc']
    exact hcalls

/-- Content goes to the message, which the first content adds. -/
theorem processTextContent_spec (hfin : Finished c) (hsent : c.toolCallsSent = false)
    (hitems : c.toolCallItems = []) (hnone : c.contentStarted = false → c.accumulatedText = [])
    (content : Text) :
    ∃ c' es, c.processTextContent content = (c', es) ∧ Holds c' .content ∧
      Leads (if c.contentStarted then entries c .content else reasoningEntries c) es
        (entries c' .content) ∧
      c' = { c with contentStarted := true, accumulatedText := c.accumulatedText ++ content } := by
  unfold processTextContent
  rw [hfin.finishReasoning]
  dsimp only
  by_cases hs : c.contentStarted = true
  · rw [if_pos hs, if_pos hs]
    refine ⟨_, _, rfl, ⟨⟨hfin.done, hfin.index⟩, hs, hsent, hitems⟩, ?_, by rw [hs]⟩
    show Leads (reasoningEntries c ++ [_]) [.outputTextDelta c.itemID c.outputIndex 0 content]
      (reasoningEntries c ++ [_])
    rw [hfin.index]
    exact .of_step (grow_last rfl content)
  · rw [if_neg hs, if_neg hs]
    refine ⟨_, _, rfl, ⟨⟨hfin.done, hfin.index⟩, rfl, hsent, hitems⟩, ?_, rfl⟩
    show Leads (reasoningEntries c) ([.outputItemAdded c.outputIndex _,
      .contentPartAdded c.itemID c.outputIndex c.contentIndex []] ++
        [.outputTextDelta c.itemID c.outputIndex 0 content])
      (reasoningEntries c ++ [⟨_, c.accumulatedText ++ content, _⟩])
    rw [hfin.index, hnone (Bool.eq_false_iff.mpr hs)]
    have hadded : Leads (reasoningEntries c)
        [.outputItemAdded (reasoningEntries c).length (.message c.itemID .inProgress [])]
        (reasoningEntries c ++ [⟨.message c.itemID .inProgress [], [], none⟩]) := leads_added rfl
    have hpart : Leads (reasoningEntries c ++ [⟨.message c.itemID .inProgress [], [], none⟩])
        [.contentPartAdded c.itemID (reasoningEntries c).length c.contentIndex []]
        (reasoningEntries c ++ [⟨.message c.itemID .inProgress [], [], none⟩]) :=
      .of_step (agree_last rfl)
    exact hadded.cons (hpart.cons (.of_step (grow_last rfl content)))

/-! ## The last event -/

/-- What the client has at the end is the output. -/
theorem run_completed {k : List Entry} {es : List EventData} {k' : List Entry}
    (h : Leads k es k') {response : ResponseObject}
    (hfinal : k'.map Entry.final = response.output.map some) :
    (Client.run ⟨k, none⟩ (es ++ [.responseCompleted response])).bind Client.output =
      some response.output := by
  have hstep : Client.step ⟨k', none⟩ (.responseCompleted response) =
      some ⟨k', some response.output⟩ := by
    show (if k'.map Entry.final = response.output.map some then
      some (⟨k', some response.output⟩ : Client) else none) = _
    rw [if_pos hfinal]
  rw [Client.run_append, h, Option.bind_some, Client.run, List.foldlM_cons, hstep]
  rfl

theorem final_reasoningEntries (h : Finished c) :
    (reasoningEntries c).map Entry.final =
      (if c.reasoningStarted then [c.reasoningItem] else []).map some := by
  unfold reasoningEntries
  by_cases hs : c.reasoningStarted = true
  · rw [if_pos hs, if_pos hs, h.done, if_pos hs]
    rfl
  · rw [if_neg hs, if_neg hs]
    rfl

theorem thinking_reasoning (hfresh : Fresh c) :
    (if c.reasoningStarted then [c.reasoningItem] else []).flatMap OutputItem.thinking =
      c.accumulatedThinking := by
  by_cases hs : c.reasoningStarted = true
  · rw [if_pos hs]
    simp [reasoningItem, OutputItem.thinking]
  · rw [if_neg hs, hfresh (Bool.eq_false_iff.mpr hs)]
    rfl

/-- What the output keeps of what was sent up to a point and of what comes. -/
structure Keeps (output : List OutputItem) (thinking content : Text)
    (calls : List (String × String × Text)) : Prop where
  thinking_eq : output.flatMap OutputItem.thinking = thinking
  calls_eq : output.flatMap OutputItem.calls = calls
  content_eq : calls = [] → output.flatMap OutputItem.content = content

theorem final_closed (items : List OutputItem) :
    (items.map closed).map Entry.final = items.map some := by
  rw [List.map_map]
  rfl

theorem flatMap_eq_nil {f : OutputItem → List Char} {items : List OutputItem}
    (h : ∀ item ∈ items, f item = []) : items.flatMap f = [] :=
  List.flatMap_eq_nil_iff.mpr h

theorem reasoning_only {β : Type} {f : OutputItem → List β} (hf : f c.reasoningItem = []) :
    (if c.reasoningStarted then [c.reasoningItem] else []).flatMap f = [] := by
  split
  · simp [hf]
  · rfl

/-- The text of the message at a stage. -/
def textAt (c : ResponsesStreamConverter) : Stage → Text
  | .content => c.accumulatedText
  | _ => []

theorem processCompletion_spec (s : Stage) (h : Holds c s) (hfresh : Fresh c)
    (r : ChatResponse Args) :
    ∃ output, (Client.run ⟨entries c s, none⟩ (c.processCompletion r).2).bind Client.output =
        some output ∧
      Keeps output c.accumulatedThinking (textAt c s)
        (c.toolCallItems.flatMap OutputItem.calls) := by
  cases s with
  | thinking =>
    obtain ⟨c', es, hfinish, hfin, hleads, hc'⟩ := finishReasoning_spec h
    obtain ⟨-, -, hstarted, -, hitems, -⟩ := h
    have hstarted' : c'.contentStarted = false := by rw [hc', hstarted]
    have hitems' : c'.toolCallItems = [] := by rw [hc', hitems]
    have hfresh' : Fresh c' := by
      rw [hc']
      exact hfresh
    have hout : c'.buildFinalOutput =
        if c'.reasoningStarted then [c'.reasoningItem] else [] := by
      unfold buildFinalOutput
      rw [hitems', hstarted']
      exact List.append_nil _
    refine ⟨c'.buildFinalOutput, ?_, ?_, ?_, fun _ => ?_⟩
    · unfold processCompletion
      rw [hfinish]
      dsimp only
      rw [hstarted', Bool.and_false, if_neg Bool.false_ne_true, List.append_nil]
      refine run_completed hleads ?_
      show _ = c'.buildFinalOutput.map some
      rw [hout, final_reasoningEntries hfin]
    · rw [hout, thinking_reasoning hfresh', hc']
    · rw [hout, hitems, reasoning_only rfl]
      rfl
    · rw [hout]
      exact reasoning_only rfl
  | content =>
    obtain ⟨hfin, hstarted, hsent, hitems⟩ := h
    have hout : c.buildFinalOutput =
        (if c.reasoningStarted then [c.reasoningItem] else []) ++ [c.messageItem] := by
      unfold buildFinalOutput
      rw [hitems, hstarted]
      rfl
    refine ⟨c.buildFinalOutput, ?_, ?_, ?_, fun _ => ?_⟩
    · unfold processCompletion
      rw [hfin.finishReasoning]
      dsimp only
      rw [hsent, hstarted, if_pos (by decide), List.nil_append]
      have hleads : Leads (entries c .content)
          [.outputTextDone c.itemID c.outputIndex 0 c.accumulatedText,
            .contentPartDone c.itemID c.outputIndex 0 c.accumulatedText,
            .outputItemDone c.outputIndex c.messageItem]
          (reasoningEntries c ++
            [⟨.message c.itemID .inProgress [], c.accumulatedText, some c.messageItem⟩]) := by
        rw [entries, hfin.index]
        refine Leads.cons (.of_step (agree_last rfl)) (Leads.cons (.of_step (agree_last rfl)) ?_)
        exact leads_done rfl rfl (List.append_nil _)
      refine run_completed hleads ?_
      show _ = c.buildFinalOutput.map some
      rw [hout, List.map_append, List.map_append, final_reasoningEntries hfin]
      rfl
    · rw [hout, List.flatMap_append, thinking_reasoning hfresh]
      exact List.append_nil _
    · rw [hout, hitems, List.flatMap_append, reasoning_only rfl]
      rfl
    · rw [hout, List.flatMap_append, reasoning_only rfl]
      simp [messageItem, OutputItem.content, textAt]
  | toolCalls =>
    obtain ⟨hfin, hsent, hitems, hcall⟩ := h
    have hout : c.buildFinalOutput =
        (if c.reasoningStarted then [c.reasoningItem] else []) ++ c.toolCallItems := by
      unfold buildFinalOutput
      rw [if_pos (List.length_pos_iff.mpr hitems)]
    refine ⟨c.buildFinalOutput, ?_, ?_, ?_, fun _ => ?_⟩
    · unfold processCompletion
      rw [hfin.finishReasoning]
      dsimp only
      rw [hsent, Bool.not_true, Bool.false_and, if_neg Bool.false_ne_true, List.nil_append]
      refine run_completed (.nil _) ?_
      show (reasoningEntries c ++ _).map Entry.final = c.buildFinalOutput.map some
      rw [hout, List.map_append, List.map_append, final_reasoningEntries hfin, final_closed]
    · rw [hout, List.flatMap_append, thinking_reasoning hfresh,
        flatMap_eq_nil fun item hitem => (hcall item hitem).1, List.append_nil]
    · rw [hout, List.flatMap_append, reasoning_only rfl]
      rfl
    · rw [hout, List.flatMap_append, reasoning_only rfl,
        flatMap_eq_nil fun item hitem => (hcall item hitem).2.1]
      rfl

end Steps

/-! ## One response -/

section Response

variable {c : ResponsesStreamConverter} {marshal : Args → Option Text} {rand : Nat → Nat}

/-- What `Process` does before the completion. -/
def processBody (marshal : Args → Option Text) (rand : Nat → Nat) (c : ResponsesStreamConverter)
    (r : ChatResponse Args) : ResponsesStreamConverter × List EventData :=
  let (c, start) := c.processStart
  let (c, thinking) := if r.thinking ≠ [] then c.processThinking rand r.thinking else (c, [])
  let (c, calls) : ResponsesStreamConverter × List EventData :=
    if r.toolCalls ≠ [] then
      let (c, calls) := c.processToolCalls marshal rand r.toolCalls
      ({ c with toolCallsSent := true }, calls)
    else (c, [])
  let (c, content) : ResponsesStreamConverter × List EventData :=
    if r.toolCalls = [] ∧ c.toolCallsSent = false ∧ r.content ≠ [] then
      c.processTextContent r.content
    else (c, [])
  (c, start ++ thinking ++ calls ++ content)

theorem processData_eq (marshal : Args → Option Text) (rand : Nat → Nat)
    (c : ResponsesStreamConverter) (r : ChatResponse Args) :
    c.processData marshal rand r =
      let (c, body) := processBody marshal rand c r
      let (c, done) := if r.done then c.processCompletion r else (c, [])
      (c, body ++ done) := rfl

/-- The stage after a response. -/
def Stage.next (s : Stage) (r : ChatResponse Args) : Stage :=
  match s with
  | .thinking =>
    if r.toolCalls ≠ [] then .toolCalls else if r.content ≠ [] then .content else .thinking
  | s => s

theorem Orderly.cons {s : Stage} {r : ChatResponse Args} {rs : List (ChatResponse Args)}
    (h : Orderly s (r :: rs)) :
    (s = .thinking ∨ r.thinking = [] ∧ r.toolCalls = []) ∧ Orderly (s.next r) rs := by
  cases s with
  | thinking =>
    refine ⟨.inl rfl, ?_⟩
    unfold Orderly at h
    unfold Stage.next
    dsimp only
    split at h
    · rename_i htools
      rw [if_pos htools]
      exact h
    · rename_i htools
      rw [if_neg htools]
      split at h
      · rename_i hcontent
        rw [if_pos hcontent]
        exact h
      · rename_i hcontent
        rw [if_neg hcontent]
        exact h
  | content => exact ⟨.inr ⟨h.1, h.2.1⟩, h.2.2⟩
  | toolCalls => exact ⟨.inr ⟨h.1, h.2.1⟩, h.2.2⟩

theorem processStart_spec (c : ResponsesStreamConverter) :
    ∃ es, c.processStart = ({ c with firstWrite := false }, es) ∧ ∀ k, Leads k es k := by
  unfold processStart
  by_cases hfirst : c.firstWrite = true
  · rw [if_pos hfirst]
    exact ⟨_, rfl, fun k => Leads.cons (.of_step rfl) (.of_step rfl)⟩
  · rw [if_neg hfirst, ← Bool.eq_false_iff.mpr hfirst]
    exact ⟨_, rfl, .nil⟩

/-- The first content closes the reasoning item and goes on as if it had been closed. -/
theorem processTextContent_finish {c' : ResponsesStreamConverter} {es : List EventData}
    (hfinish : c.finishReasoning = (c', es)) (hfin : Finished c') (content : Text) :
    c.processTextContent content =
      ((c'.processTextContent content).1, es ++ (c'.processTextContent content).2) := by
  unfold processTextContent
  rw [hfinish, hfin.finishReasoning]
  dsimp only
  rw [List.nil_append, List.append_assoc]

theorem processBody_thinking (marshal : Args → Option Text) (rand : Nat → Nat)
    (h : Holds c .thinking) (hfresh : Fresh c) (r : ChatResponse Args) :
    ∃ c' es, processBody marshal rand c r = (c', es) ∧ Holds c' (Stage.thinking.next r) ∧
      Fresh c' ∧ Leads (entries c .thinking) es (entries c' (Stage.thinking.next r)) ∧
      c'.accumulatedThinking = c.accumulatedThinking ++ r.thinking ∧
      c'.toolCallItems.flatMap OutputItem.calls = callsOf marshal [r] ∧
      (Stage.thinking.next r ≠ .toolCalls → textAt c' (Stage.thinking.next r) = r.content) := by
  obtain ⟨start, hstart, hleads₀⟩ := processStart_spec c
  -- the thinking of the response
  obtain ⟨c₁, es₁, hthinking, h₁, hfresh₁, hleads₁, hacc₁⟩ : ∃ c₁ es₁,
      (if r.thinking ≠ [] then processThinking rand { c with firstWrite := false } r.thinking
        else ({ c with firstWrite := false }, [])) = (c₁, es₁) ∧ Holds c₁ .thinking ∧ Fresh c₁ ∧
      Leads (entries c .thinking) es₁ (entries c₁ .thinking) ∧
      c₁.accumulatedThinking = c.accumulatedThinking ++ r.thinking := by
    by_cases hth : r.thinking = []
    · rw [if_neg (not_not.mpr hth), hth]
      exact ⟨_, _, rfl, h, hfresh, .nil _, (List.append_nil _).symm⟩
    · rw [if_pos hth]
      exact @processThinking_spec { c with firstWrite := false } rand h hfresh r.thinking
  have hitems := h₁.2.2.2.2.1
  have htext := h₁.2.2.2.2.2
  unfold processBody
  rw [hstart]
  dsimp only
  rw [hthinking]
  dsimp only
  by_cases htools : r.toolCalls = []
  · rw [if_neg (not_not.mpr htools)]
    have hcalls : callsOf marshal [r] = [] := by simp [callsOf, htools]
    dsimp only
    by_cases hcontent : r.content = []
    · have hnext : Stage.thinking.next r = .thinking := by
        unfold Stage.next
        dsimp only
        rw [if_neg (not_not.mpr htools), if_neg (not_not.mpr hcontent)]
      rw [if_neg fun hc => hc.2.2 hcontent, hnext, hcalls, hcontent]
      refine ⟨c₁, _, rfl, h₁, hfresh₁, ?_, hacc₁, by rw [hitems]; rfl, fun _ => rfl⟩
      rw [List.append_nil, List.append_nil]
      exact (hleads₀ _).append hleads₁
    · have hnext : Stage.thinking.next r = .content := by
        unfold Stage.next
        dsimp only
        rw [if_neg (not_not.mpr htools), if_pos hcontent]
      obtain ⟨c₂, es₂, hfinish, hfin, hleads₂, hc₂⟩ := finishReasoning_spec h₁
      obtain ⟨hindex, hdone, hstarted, hsent, -, -⟩ := h₁
      have hstarted₂ : c₂.contentStarted = false := by rw [hc₂, hstarted]
      obtain ⟨c₃, es₃, hprocess, h₃, hleads₃, hc₃⟩ := processTextContent_spec hfin
        (by rw [hc₂, hsent]) (by rw [hc₂, hitems]) (fun _ => by rw [hc₂, htext]) r.content
      rw [if_neg (by rw [hstarted₂]; exact Bool.false_ne_true)] at hleads₃
      rw [if_pos ⟨htools, hsent, hcontent⟩, processTextContent_finish hfinish hfin, hprocess, hnext,
        hcalls]
      refine ⟨c₃, _, rfl, h₃, ?_, ?_, ?_, ?_, fun _ => ?_⟩
      · rw [hc₃, hc₂]
        exact hfresh₁
      · rw [List.append_nil]
        exact ((hleads₀ _).append hleads₁).append (hleads₂.append hleads₃)
      · rw [hc₃, hc₂]
        exact hacc₁
      · rw [hc₃, hc₂]
        dsimp only
        rw [hitems]
        rfl
      · show c₃.accumulatedText = r.content
        rw [hc₃, hc₂]
        dsimp only
        rw [htext, List.nil_append]
  · have hnext : Stage.thinking.next r = .toolCalls := if_pos htools
    obtain ⟨c₂, es₂, hprocess, h₂, hfresh₂, hleads₂, hacc₂, hcalls⟩ :=
      processToolCalls_spec marshal rand h₁ hfresh₁ htools
    rw [if_pos htools, hprocess]
    dsimp only
    rw [if_neg fun hc => htools hc.1, hnext]
    refine ⟨_, _, rfl, h₂, hfresh₂, ?_, hacc₂.trans hacc₁, ?_, fun hne => absurd rfl hne⟩
    · rw [List.append_nil]
      exact ((hleads₀ _).append hleads₁).append hleads₂
    · show c₂.toolCallItems.flatMap OutputItem.calls = _
      rw [hcalls]
      simp [callsOf]

/-- A response without thinking and tool calls. -/
theorem processBody_plain (marshal : Args → Option Text) (rand : Nat → Nat)
    {r : ChatResponse Args} (hth : r.thinking = []) (htools : r.toolCalls = [])
    {c' : ResponsesStreamConverter} {start : List EventData}
    (hstart : c.processStart = (c', start)) :
    processBody marshal rand c r =
      let (c, content) :=
        if c'.toolCallsSent = false ∧ r.content ≠ [] then c'.processTextContent r.content
        else (c', [])
      (c, start ++ content) := by
  unfold processBody
  simp only [hstart, hth, htools, ne_eq, not_true_eq_false, if_false, true_and, List.append_nil]

/-- A response that may come at a stage leads to the next. -/
theorem processBody_spec (marshal : Args → Option Text) (rand : Nat → Nat) {s : Stage}
    (h : Holds c s) (hfresh : Fresh c) {r : ChatResponse Args}
    (hr : s = .thinking ∨ r.thinking = [] ∧ r.toolCalls = []) :
    ∃ c' es, processBody marshal rand c r = (c', es) ∧ Holds c' (s.next r) ∧ Fresh c' ∧
      Leads (entries c s) es (entries c' (s.next r)) ∧
      c'.accumulatedThinking = c.accumulatedThinking ++ r.thinking ∧
      c'.toolCallItems.flatMap OutputItem.calls =
        c.toolCallItems.flatMap OutputItem.calls ++ callsOf marshal [r] ∧
      (s.next r ≠ .toolCalls → textAt c' (s.next r) = textAt c s ++ r.content) := by
  cases s with
  | thinking =>
    have hitems : c.toolCallItems = [] := h.2.2.2.2.1
    rw [hitems]
    exact processBody_thinking marshal rand h hfresh r
  | content =>
    obtain ⟨hth, htools⟩ := hr.resolve_left fun hs => by cases hs
    obtain ⟨start, hstart, hleads₀⟩ := processStart_spec c
    obtain ⟨hfin, hstarted, hsent, hitems⟩ := h
    have hcalls : callsOf marshal [r] = [] := by simp [callsOf, htools]
    rw [processBody_plain marshal rand hth htools hstart, hcalls, hth, List.append_nil,
      List.append_nil]
    by_cases hcontent : r.content = []
    · rw [if_neg fun hc => hc.2 hcontent, hcontent]
      refine ⟨_, _, rfl, ⟨⟨hfin.done, hfin.index⟩, hstarted, hsent, hitems⟩, hfresh, ?_, rfl, rfl,
        fun _ => (List.append_nil _).symm⟩
      rw [List.append_nil]
      exact hleads₀ _
    · obtain ⟨c₃, es₃, hprocess, h₃, hleads₃, hc₃⟩ :=
        @processTextContent_spec { c with firstWrite := false } ⟨hfin.done, hfin.index⟩ hsent hitems
          (fun hnot => by
            have hyes : c.contentStarted = false := hnot
            rw [hstarted] at hyes
            cases hyes) r.content
      rw [if_pos hstarted] at hleads₃
      rw [if_pos ⟨hsent, hcontent⟩, hprocess]
      refine ⟨c₃, _, rfl, h₃, ?_, (hleads₀ _).append hleads₃, ?_, ?_, fun _ => ?_⟩
      · rw [hc₃]
        exact hfresh
      · rw [hc₃]
      · rw [hc₃]
      · show c₃.accumulatedText = c.accumulatedText ++ r.content
        rw [hc₃]
  | toolCalls =>
    obtain ⟨hth, htools⟩ := hr.resolve_left fun hs => by cases hs
    obtain ⟨start, hstart, hleads₀⟩ := processStart_spec c
    obtain ⟨hfin, hsent, hitems, hcall⟩ := h
    have hcalls : callsOf marshal [r] = [] := by simp [callsOf, htools]
    rw [processBody_plain marshal rand hth htools hstart, hcalls, hth, List.append_nil,
      List.append_nil, if_neg fun hc => by rw [hsent] at hc; cases hc.1]
    refine ⟨_, _, rfl, ⟨⟨hfin.done, hfin.index⟩, hsent, hitems, hcall⟩, hfresh, ?_, rfl, rfl,
      fun hne => absurd rfl hne⟩
    rw [List.append_nil]
    exact hleads₀ _

end Response

/-! ## Sequence numbers -/

section Numbers

variable {marshal : Args → Option Text} {rand : Nat → Nat}

theorem newEvents_eq (c : ResponsesStreamConverter) (data : List EventData) :
    (c.newEvents data).1 = { c with sequenceNumber := c.sequenceNumber + data.length } ∧
      (c.newEvents data).2.map ResponsesStreamEvent.data = data ∧
      (c.newEvents data).2.map ResponsesStreamEvent.sequenceNumber =
        List.range' c.sequenceNumber data.length := by
  induction data generalizing c with
  | nil => exact ⟨rfl, rfl, rfl⟩
  | cons d data ih =>
    obtain ⟨hc, hdata, hnumbers⟩ := ih { c with sequenceNumber := c.sequenceNumber + 1 }
    refine ⟨?_, congrArg (d :: ·) hdata, ?_⟩
    · show (newEvents { c with sequenceNumber := c.sequenceNumber + 1 } data).1 = _
      rw [hc, List.length_cons, Nat.add_assoc, Nat.add_comm 1]
    · rw [List.length_cons, List.range'_succ]
      exact congrArg (c.sequenceNumber :: ·) hnumbers

theorem finishReasoning_sequenceNumber (c : ResponsesStreamConverter) :
    c.finishReasoning.1.sequenceNumber = c.sequenceNumber := by
  unfold finishReasoning
  split <;> rfl

theorem toolCallLoop_sequenceNumber (tcs : List (ToolCall Args)) (c : ResponsesStreamConverter)
    (i : Nat) : (toolCallLoop marshal rand c i tcs).1.sequenceNumber = c.sequenceNumber := by
  induction tcs generalizing c i with
  | nil => rfl
  | cons tc tcs ih =>
    rw [toolCallLoop]
    exact ih _ _

theorem processThinking_sequenceNumber (c : ResponsesStreamConverter) (thinking : Text) :
    (c.processThinking rand thinking).1.sequenceNumber = c.sequenceNumber := by
  unfold processThinking
  split
  rename_i heq
  split at heq <;> cases heq <;> rfl

theorem processToolCalls_sequenceNumber (c : ResponsesStreamConverter)
    (tcs : List (ToolCall Args)) :
    (c.processToolCalls marshal rand tcs).1.sequenceNumber = c.sequenceNumber :=
  (toolCallLoop_sequenceNumber tcs c.finishReasoning.1 0).trans (finishReasoning_sequenceNumber c)

theorem processTextContent_sequenceNumber (c : ResponsesStreamConverter) (content : Text) :
    (c.processTextContent content).1.sequenceNumber = c.sequenceNumber := by
  rw [← finishReasoning_sequenceNumber c]
  unfold processTextContent
  dsimp only
  split <;> rfl

/-- Only `newEvent` counts. -/
theorem processData_sequenceNumber (c : ResponsesStreamConverter) (r : ChatResponse Args) :
    (c.processData marshal rand r).1.sequenceNumber = c.sequenceNumber := by
  have hstart : c.processStart.1.sequenceNumber = c.sequenceNumber := by
    unfold processStart
    split <;> rfl
  have hthinking (c : ResponsesStreamConverter) : (if r.thinking ≠ [] then
      c.processThinking rand r.thinking else (c, [])).1.sequenceNumber = c.sequenceNumber := by
    split
    · exact processThinking_sequenceNumber c _
    · rfl
  have hcalls (c : ResponsesStreamConverter) : (if r.toolCalls ≠ [] then
      ({ (c.processToolCalls marshal rand r.toolCalls).1 with toolCallsSent := true },
        (c.processToolCalls marshal rand r.toolCalls).2) else (c, [])).1.sequenceNumber =
        c.sequenceNumber := by
    split
    · exact processToolCalls_sequenceNumber c _
    · rfl
  have hcontent (c : ResponsesStreamConverter) : (if r.toolCalls = [] ∧ c.toolCallsSent = false ∧
      r.content ≠ [] then c.processTextContent r.content else (c, [])).1.sequenceNumber =
        c.sequenceNumber := by
    split
    · exact processTextContent_sequenceNumber c _
    · rfl
  have hdone (c : ResponsesStreamConverter) : (if r.done then c.processCompletion r
      else (c, [])).1.sequenceNumber = c.sequenceNumber := by
    split
    · exact finishReasoning_sequenceNumber c
    · rfl
  exact (hdone _).trans ((hcontent _).trans ((hcalls _).trans ((hthinking _).trans hstart)))

theorem processAll_cons (c : ResponsesStreamConverter) (r : ChatResponse Args)
    (rs : List (ChatResponse Args)) :
    processAll marshal rand c (r :: rs) =
      ((c.processData marshal rand r).1.newEvents (c.processData marshal rand r).2).2 ++
        processAll marshal rand ((c.processData marshal rand r).1.newEvents
          (c.processData marshal rand r).2).1 rs := rfl

/-- The events of any responses are numbered one after the other. -/
theorem processAll_numbers (rs : List (ChatResponse Args)) (c : ResponsesStreamConverter) :
    (processAll marshal rand c rs).map ResponsesStreamEvent.sequenceNumber =
      List.range' c.sequenceNumber (processAll marshal rand c rs).length := by
  induction rs generalizing c with
  | nil => rfl
  | cons r rs ih =>
    obtain ⟨hc, hdata, hnumbers⟩ :=
      newEvents_eq (c.processData marshal rand r).1 (c.processData marshal rand r).2
    have hlen := congrArg List.length hdata
    rw [List.length_map] at hlen
    rw [processData_sequenceNumber] at hc hnumbers
    rw [processAll_cons, List.map_append, List.length_append, hnumbers, ih, hlen, hc,
      List.range'_append_1]

end Numbers

/-! ## All responses -/

section Responses

variable {marshal : Args → Option Text} {rand : Nat → Nat}

theorem Holds.number {c : ResponsesStreamConverter} {s : Stage} (h : Holds c s) {n : Nat} :
    Holds { c with sequenceNumber := n } s := by
  cases s with
  | thinking => exact h
  | content => exact ⟨⟨h.1.done, h.1.index⟩, h.2⟩
  | toolCalls => exact ⟨⟨h.1.done, h.1.index⟩, h.2⟩

/-- At the stage of tool calls there are some. -/
theorem calls_ne_nil {c : ResponsesStreamConverter} (h : Holds c .toolCalls) :
    c.toolCallItems.flatMap OutputItem.calls ≠ [] := by
  obtain ⟨-, -, hitems, hcall⟩ := h
  obtain ⟨item, hitem⟩ := List.exists_mem_of_ne_nil _ hitems
  exact fun hnil => (hcall item hitem).2.2 (List.flatMap_eq_nil_iff.mp hnil item hitem)

/-- What is kept from a response on. -/
theorem Keeps.cons {c c' : ResponsesStreamConverter} {s : Stage} {r : ChatResponse Args}
    {rs : List (ChatResponse Args)} {output : List OutputItem} (h' : Holds c' (s.next r))
    (hacc : c'.accumulatedThinking = c.accumulatedThinking ++ r.thinking)
    (hcalls : c'.toolCallItems.flatMap OutputItem.calls =
      c.toolCallItems.flatMap OutputItem.calls ++ callsOf marshal [r])
    (htext : s.next r ≠ .toolCalls → textAt c' (s.next r) = textAt c s ++ r.content)
    (h : Keeps output (c'.accumulatedThinking ++ thinkingOf rs)
      (textAt c' (s.next r) ++ contentOf rs)
      (c'.toolCallItems.flatMap OutputItem.calls ++ callsOf marshal rs)) :
    Keeps output (c.accumulatedThinking ++ thinkingOf (r :: rs)) (textAt c s ++ contentOf (r :: rs))
      (c.toolCallItems.flatMap OutputItem.calls ++ callsOf marshal (r :: rs)) := by
  have hsplit : callsOf marshal (r :: rs) = callsOf marshal [r] ++ callsOf marshal rs := by
    simp [callsOf]
  refine ⟨?_, ?_, fun hnil => ?_⟩
  · rw [h.thinking_eq, hacc, List.append_assoc]
    rfl
  · rw [h.calls_eq, hcalls, hsplit, List.append_assoc]
  · rw [hsplit, ← List.append_assoc, ← hcalls] at hnil
    have hne : s.next r ≠ .toolCalls := by
      intro hnext
      rw [hnext] at h'
      exact calls_ne_nil h' (List.append_eq_nil_iff.mp hnil).1
    rw [h.content_eq hnil, htext hne, List.append_assoc]
    rfl

/-- From a stage on, a client gets through to an output that keeps everything. -/
theorem processAll_spec (rs : List (ChatResponse Args)) :
    ∀ (s : Stage) (c : ResponsesStreamConverter), Holds c s → Fresh c → Orderly s rs →
      EndsDone rs →
      ∃ output, (Client.run ⟨entries c s, none⟩
          ((processAll marshal rand c rs).map ResponsesStreamEvent.data)).bind Client.output =
            some output ∧
        Keeps output (c.accumulatedThinking ++ thinkingOf rs) (textAt c s ++ contentOf rs)
          (c.toolCallItems.flatMap OutputItem.calls ++ callsOf marshal rs) := by
  induction rs with
  | nil => exact fun s c h hfresh horder hdone => absurd hdone id
  | cons r rs ih =>
    intro s c h hfresh horder hdone
    obtain ⟨hr, hrest⟩ := horder.cons
    obtain ⟨c', es, hbody, h', hfresh', hleads, hacc, hcalls, htext⟩ :=
      processBody_spec marshal rand h hfresh hr
    cases rs with
    | nil =>
      have hr : r.done = true := hdone
      obtain ⟨output, hrun, hkeeps⟩ := processCompletion_spec (s.next r) h' hfresh' r
      refine ⟨output, ?_, Keeps.cons h' hacc hcalls htext ?_⟩
      · have hdata : c.processData marshal rand r =
            ((c'.processCompletion r).1, es ++ (c'.processCompletion r).2) := by
          rw [processData_eq, hbody]
          dsimp only
          rw [if_pos hr]
        rw [processAll_cons, List.map_append, (newEvents_eq _ _).2.1, hdata]
        show (Client.run _ (_ ++ [])).bind _ = _
        rw [List.append_nil, Client.run_append, hleads, Option.bind_some, hrun]
      · rw [thinkingOf, contentOf, callsOf, List.flatMap_nil, List.flatMap_nil, List.flatMap_nil,
          List.append_nil, List.append_nil, List.append_nil]
        exact hkeeps
    | cons r' rs =>
      have hr : r.done = false := hdone.1
      have hdata : c.processData marshal rand r = (c', es) := by
        rw [processData_eq, hbody]
        dsimp only
        rw [if_neg (by rw [hr]; exact Bool.false_ne_true), List.append_nil]
      obtain ⟨output, hrun, hkeeps⟩ := ih (s.next r)
        { c' with sequenceNumber := c'.sequenceNumber + es.length }
        h'.number hfresh' hrest hdone.2
      refine ⟨output, ?_, Keeps.cons h' hacc hcalls htext hkeeps⟩
      rw [processAll_cons, List.map_append, (newEvents_eq _ _).2.1, (newEvents_eq _ _).1, hdata]
      dsimp only
      rw [Client.run_append, hleads, Option.bind_some]
      exact hrun

end Responses

/-- The stream of orderly responses is well formed; all thinking and all tool calls are in the
output, and all content when there are no tool calls. -/
theorem process_lossless (marshal : Args → Option Text) (rand : Nat → Nat)
    (responseID itemID model : String) {rs : List (ChatResponse Args)}
    (horder : Orderly .thinking rs) (hdone : EndsDone rs) :
    ∃ output, WellFormed
        (processAll marshal rand (newResponsesStreamConverter responseID itemID model) rs) output ∧
      Keeps output (thinkingOf rs) (contentOf rs) (callsOf marshal rs) := by
  obtain ⟨output, hrun, hkeeps⟩ := @processAll_spec Args marshal rand rs .thinking
    (newResponsesStreamConverter responseID itemID model) ⟨rfl, rfl, rfl, rfl, rfl, rfl⟩
    (fun _ => rfl) horder hdone
  refine ⟨output, ⟨?_, hrun⟩, hkeeps⟩
  rw [processAll_numbers, List.range_eq_range']
  rfl

/-- A response with the arguments of its calls as they are marshalled. -/
def response (thinking content : String) (toolCalls : List (ToolCall Text)) (done : Bool) :
    ChatResponse Text :=
  ⟨thinking.toList, content.toList, toolCalls, done, 3, 5⟩

/-- The events of a new converter. -/
def sent (rs : List (ChatResponse Text)) : List ResponsesStreamEvent :=
  processAll some id (newResponsesStreamConverter "resp_1" "msg_1" "m") rs

/-- Thinking in two responses, then two calls in one, and content after them. -/
theorem process_lossless_calls :
    ∃ output, WellFormed (processAll some id (newResponsesStreamConverter "resp_1" "msg_1" "m")
        [response "a" "" [] false,
          response "b" "" [⟨"call_1", "f", ['{', '}']⟩, ⟨"call_2", "g", []⟩] false,
          response "" "c" [] true]) output ∧
      Keeps output
        (thinkingOf [response "a" "" [] false,
          response "b" "" [⟨"call_1", "f", ['{', '}']⟩, ⟨"call_2", "g", []⟩] false,
          response "" "c" [] true])
        (contentOf [response "a" "" [] false,
          response "b" "" [⟨"call_1", "f", ['{', '}']⟩, ⟨"call_2", "g", []⟩] false,
          response "" "c" [] true])
        (callsOf some [response "a" "" [] false,
          response "b" "" [⟨"call_1", "f", ['{', '}']⟩, ⟨"call_2", "g", []⟩] false,
          response "" "c" [] true]) :=
  process_lossless some id "resp_1" "msg_1" "m" ⟨rfl, rfl, trivial⟩ ⟨rfl, rfl, rfl⟩

/-- Content beside a call is in no output item. Calls in two responses, content before calls,
and thinking after content make events that do not fit. -/
theorem process_not_lossless :
    (∀ output, WellFormed (sent [response "" "a" [⟨"call_1", "f", ['{', '}']⟩] true]) output →
      output.flatMap OutputItem.content ≠
        contentOf [response "" "a" [⟨"call_1", "f", ['{', '}']⟩] true]) ∧
    ∀ rs ∈ [[response "" "" [⟨"call_1", "f", []⟩] false, response "" "" [⟨"call_2", "g", []⟩] true],
        [response "" "a" [] false, response "" "" [⟨"call_1", "f", []⟩] true],
        [response "" "a" [] false, response "b" "" [] true]],
      ∀ output, ¬WellFormed (sent rs) output := by
  constructor
  · intro output h
    have hout : output = [.functionCall "fc_0_0" .completed "call_1" "f" ['{', '}']] :=
      Option.some.inj (h.2.symm.trans (by decide))
    rw [hout]
    decide
  · intro rs hrs output h
    have hnone : (Client.run ⟨[], none⟩ ((sent rs).map ResponsesStreamEvent.data)).bind
        Client.output = none := by
      clear h
      revert rs
      decide
    rw [h.2] at hnone
    cases hnone

end Prismalama.Openai
