import Prismalama.Lib.Backing
import Prismalama.Lib.TagStream

/-!
# The prompt of a chat (`server/prompt.go`)

`chatPrompt` leaves out messages from the front until the rest fits into the context, keeps all
system messages, and marks the place of each image with a tag. Messages lie in arrays that slices
share: `collate` changes them in place, which reaches the system messages when they have room for
the others behind them (`Spoils`).
-/

namespace Prismalama.Server.ChatPrompt

open Prismalama.Lib Prismalama.Lib.Backing

abbrev Text := List Char

abbrev ImageData := List UInt8

structure Message (C : Type) where
  Role : Text
  Content : Text
  Thinking : Text
  Images : List ImageData
  ToolCalls : List C
  ToolName : Text
  ToolCallID : Text
  deriving DecidableEq

variable {C : Type}

namespace Message

/-- The message that fills the room of a new array. -/
def zero : Message C := ⟨[], [], [], [], [], [], []⟩

def isSystem (msg : Message C) : Bool := decide (msg.Role = "system".toList)

end Message

inductive MediaKind
  | image
  | audio
  deriving DecidableEq

structure MediaData where
  Data : ImageData
  ID : Nat
  Kind : MediaKind
  deriving DecidableEq

/-- What the prompt depends on of a `Model`: the name of a renderer or none, the families, and
whether there are projectors. -/
structure Model where
  Renderer : Text
  ModelFamilies : List Text
  hasProjectors : Bool

/-- What is outside of `chatPrompt`: the renderers, the template on what `collate` gives, the
tokenizer, the kind of some bytes, and the room of a new array. The tools and `think` are fixed. -/
structure Backend (C : Type) where
  RenderWithRenderer : List (Message C) → Except Text Text
  Execute : Text → List (Message C) → Except Text Text
  tokenize : Text → Except Text (List Int)
  DetectMediaKind : ImageData → MediaKind
  growth : Growth

/-- Texts for all lists of messages, and tokens for all texts. -/
def Backend.total (renderer : List (Message C) → Text) (template : Text → List (Message C) → Text)
    (tokens : Text → List Int) (kind : ImageData → MediaKind) (growth : Growth) : Backend C :=
  ⟨fun msgs => .ok (renderer msgs), fun system msgs => .ok (template system msgs),
    fun p => .ok (tokens p), kind, growth⟩

/-! ## Rendering -/

/-- The state of `collate`: the messages, which change in place, those that are collated, by their
places, and the system messages. -/
structure Collated (C : Type) where
  msgs : List (Message C)
  collated : List Nat
  system : List Text

def blankLine : Text := "\n\n".toList

def collateSystem (s : Collated C) (msg : Message C) : Collated C :=
  if msg.isSystem = true then { s with system := s.system ++ [msg.Content] } else s

/-- Consecutive messages of a role become one, except for those of tools. -/
def collateMerge (s : Collated C) (i : Nat) (msg : Message C) : Collated C :=
  match s.collated.getLast? with
  | none => { s with collated := s.collated ++ [i] }
  | some last =>
    if (s.msgs[last]?.getD .zero).Role = msg.Role ∧ msg.Role ≠ "tool".toList then
      { s with msgs := s.msgs.modify last fun m =>
          { m with Content := m.Content ++ blankLine ++ msg.Content } }
    else { s with collated := s.collated ++ [i] }

def collateStep (s : Collated C) (i : Nat) : Collated C :=
  let msg := s.msgs[i]?.getD .zero
  collateMerge (collateSystem s msg) i msg

def collate (msgs : List (Message C)) : Collated C :=
  (List.range msgs.length).foldl collateStep ⟨msgs, [], []⟩

namespace Collated

/-- `strings.Join(system, "\n\n")` -/
def systemText (s : Collated C) : Text := blankLine.intercalate s.system

def messages (s : Collated C) : List (Message C) := s.collated.map fun i => s.msgs[i]?.getD .zero

end Collated

variable (b : Backend C) (m : Model)

def renderPrompt (h : Heap (Message C)) (msgs : Slice) : Heap (Message C) × Except Text Text :=
  if m.Renderer ≠ [] then (h, b.RenderWithRenderer (msgs.read h))
  else
    let s := collate (msgs.read h)
    (msgs.write h s.msgs, b.Execute s.systemText s.messages)

/-! ## Truncating -/

def imageNumTokens : Nat := 768

/-- The system messages of `msgs[:i]`, in a new slice. -/
def collectSystem (h : Heap (Message C)) (msgs : List (Message C)) : Heap (Message C) × Slice :=
  msgs.foldl (fun s msg =>
    if msg.isSystem = true then s.2.append .zero b.growth s.1 [msg] else s) (Slice.alloc h [])

/-- The number of tokens for the images, when there are projectors. -/
def imageTokens (msgs : List (Message C)) : Nat :=
  if m.hasProjectors = true then (msgs.map fun msg => imageNumTokens * msg.Images.length).sum else 0

/-- The loop of the truncation from `i` on, for `left` rounds: the slice `system` and `currMsgIdx`. -/
def truncateFrom (numCtx : Int) (msgs : Slice) (lastMsgIdx : Nat) :
    Nat → Nat → Heap (Message C) → Slice → Heap (Message C) × Except Text (Slice × Nat)
  | 0, _, h, system => (h, .ok (system, 0))
  | left + 1, i, h, _ =>
    let rest := (msgs.read h).drop i
    let (h, system) := collectSystem b h ((msgs.read h).take i)
    let (h, appended) := system.append .zero b.growth h rest
    match renderPrompt b m h appended with
    | (h, .error e) => (h, .error e)
    | (h, .ok p) =>
      match b.tokenize p with
      | .error e => (h, .error e)
      | .ok s =>
        if ((s.length + imageTokens m rest : Nat) : Int) ≤ numCtx then (h, .ok (system, i))
        else if i = lastMsgIdx then (h, .ok (system, lastMsgIdx))
        else truncateFrom numCtx msgs lastMsgIdx left (i + 1) h system

/-! ## Images -/

/-- `[img-%d]` -/
def imgTag (id : Nat) : Text := "[img-".toList ++ Nat.toDigits 10 id ++ "]".toList

/-- A message's images: the media so far, and the message's `prefix` and `prompt`. -/
def tagImage (s : List MediaData × Text × Text) (i : ImageData) : List MediaData × Text × Text :=
  let mediaData : MediaData := ⟨i, s.1.length, b.DetectMediaKind i⟩
  let media := s.1 ++ [mediaData]
  if m.Renderer ≠ [] then (media, s.2)
  else
    match cut "[img]".toList s.2.2 with
    | none => (media, s.2.1 ++ imgTag mediaData.ID, s.2.2)
    | some (before, behind) => (media, s.2.1, before ++ imgTag mediaData.ID ++ behind)

def oneImage : Text :=
  "this model only supports one image while more than one image requested".toList

/-- The model takes one image at most, and the message has more. -/
def tooMany (msg : Message C) : Prop :=
  m.ModelFamilies.contains "mllama".toList = true ∧ 1 < msg.Images.length

instance (msg : Message C) : Decidable (tooMany m msg) := inferInstanceAs (Decidable (_ ∧ _))

/-- The loop over the kept messages. -/
def tagMessages : List MediaData → List (Message C) →
    Except Text (List MediaData × List (Message C))
  | media, [] => .ok (media, [])
  | media, msg :: msgs =>
    if tooMany m msg then .error oneImage
    else
      let s := msg.Images.foldl (tagImage b m) (media, [], msg.Content)
      let msg := if m.Renderer ≠ [] then msg else { msg with Content := s.2.1 ++ s.2.2 }
      (tagMessages s.1 msgs).map fun rest => (rest.1, msg :: rest.2)

/-- `chatPrompt` with a number of tokens; what the arrays are afterwards, and the prompt with the
media. The copy `renderMsgs` is not written to before the loop over it has ended well: no one else
has it. -/
def chatPrompt (numCtx : Int) (h : Heap (Message C)) (msgs : Slice) (truncate : Bool) :
    Heap (Message C) × Except Text (Text × List MediaData) :=
  let (h, system) := Slice.alloc h []
  let n := (msgs.read h).length
  match if truncate = true then truncateFrom b m numCtx msgs (n - 1) n 0 h system
      else (h, .ok (system, 0)) with
  | (h, .error e) => (h, .error e)
  | (h, .ok (system, currMsgIdx)) =>
    let (h, renderMsgs) := Slice.alloc h (msgs.read h)
    match tagMessages b m [] ((renderMsgs.read h).drop currMsgIdx) with
    | .error e => (h, .error e)
    | .ok (media, tagged) =>
      let h := renderMsgs.write h ((renderMsgs.read h).take currMsgIdx ++ tagged)
      let (h, appended) := system.append .zero b.growth h ((renderMsgs.read h).drop currMsgIdx)
      match renderPrompt b m h appended with
      | (h, .error e) => (h, .error e)
      | (h, .ok p) => (h, .ok (p, media))

/-! ## What the prompt should be -/

/-- The system messages of `msgs[:k]` -/
def systemOf (msgs : List (Message C)) (k : Nat) : List (Message C) :=
  (msgs.take k).filter Message.isSystem

def kept (msgs : List (Message C)) (k : Nat) : List (Message C) := systemOf msgs k ++ msgs.drop k

/-- How often a tag occurs in a text. -/
def occurrences (tag : Text) : Text → Nat
  | [] => 0
  | c :: s => (if tag.isPrefixOf (c :: s) = true then 1 else 0) + occurrences tag s

/-- The tags of these numbers are put into the text, each in the place of an `[img]` or in front. -/
inductive Inserted : List Nat → Text → Text → Prop
  | nil (s : Text) : Inserted [] s s
  | replace {id : Nat} {ids : List Nat} {before behind s : Text} :
    Inserted ids (before ++ imgTag id ++ behind) s →
    Inserted (id :: ids) (before ++ "[img]".toList ++ behind) s
  | front {id : Nat} {ids : List Nat} {s s' : Text} :
    Inserted ids s s' → Inserted (id :: ids) s (imgTag id ++ s')

/-- The messages with a tag for each of their images, from the number `id` on: a tag occurs once more
than before in the message that has the image. With a renderer they stay as they are. -/
inductive Tagged (m : Model) : Nat → List (Message C) → List (Message C) → Prop
  | nil (id : Nat) : Tagged m id [] []
  | cons {id : Nat} {msg : Message C} {content : Text} {msgs msgs' : List (Message C)} :
    (m.Renderer ≠ [] → content = msg.Content) →
    (m.Renderer = [] → Inserted (List.range' id msg.Images.length) msg.Content content) →
    (m.Renderer = [] → ∀ i, occurrences (imgTag i) content = occurrences (imgTag i) msg.Content +
      if id ≤ i ∧ i < id + msg.Images.length then 1 else 0) →
    Tagged m (id + msg.Images.length) msgs msgs' →
    Tagged m id (msg :: msgs) ({ msg with Content := content } :: msgs')

/-- The media of these images, numbered from `id` on. -/
def mediaFrom (kind : ImageData → MediaKind) (id : Nat) (images : List ImageData) : List MediaData :=
  (images.zipIdx id).map fun i => ⟨i.1, i.2, kind i.1⟩

section Texts

variable (renderer : List (Message C) → Text) (template : Text → List (Message C) → Text)
  (tokens : Text → List Int)

def renderText (msgs : List (Message C)) : Text :=
  if m.Renderer ≠ [] then renderer msgs
  else template (collate msgs).systemText (collate msgs).messages

/-- What is kept from the message `k` on fits into the context. -/
def Fits (numCtx : Int) (msgs : List (Message C)) (k : Nat) : Prop :=
  (((tokens (renderText m renderer template (kept msgs k))).length +
    imageTokens m (msgs.drop k) : Nat) : Int) ≤ numCtx

instance (numCtx : Int) (msgs : List (Message C)) (k : Nat) :
    Decidable (Fits m renderer template tokens numCtx msgs k) := inferInstanceAs (Decidable (_ ≤ _))

/-- The first message from which on it fits, or the last message. -/
structure FirstFit (numCtx : Int) (msgs : List (Message C)) (k : Nat) : Prop where
  lt : k < msgs.length
  first : ∀ i, i < k → ¬Fits m renderer template tokens numCtx msgs i
  fits : Fits m renderer template tokens numCtx msgs k ∨ k = msgs.length - 1

/-- What is given is the rendering of the system messages before `k` and of the tagged messages from
there on, with the images of these. -/
def PromptFrom (kind : ImageData → MediaKind) (msgs : List (Message C)) (k : Nat)
    (result : Except Text (Text × List MediaData)) : Prop :=
  ∃ tagged, Tagged m 0 (msgs.drop k) tagged ∧
    result = .ok (renderText m renderer template (systemOf msgs k ++ tagged),
      mediaFrom kind 0 ((msgs.drop k).flatMap Message.Images))

end Texts

/-- All system messages and the last message are there, in their order. -/
structure KeepsAll (msgs kept : List (Message C)) : Prop where
  sublist : kept.Sublist msgs
  systems : kept.filter Message.isSystem = msgs.filter Message.isSystem
  last : kept.getLast? = msgs.getLast?

/-- In the measured list, `collate` changes system messages, and this one shares their array. -/
def Spoils (growth : Growth) (msgs : List (Message C)) (k : Nat) : Prop :=
  m.Renderer = [] ∧
    (systemOf msgs k).length + (msgs.drop k).length ≤ Slice.capacity growth (systemOf msgs k).length ∧
    (collate (kept msgs k)).msgs.take (systemOf msgs k).length ≠ systemOf msgs k

/-! ## Rendering -/

theorem length_collateMerge (s : Collated C) (i : Nat) (msg : Message C) :
    (collateMerge s i msg).msgs.length = s.msgs.length := by
  rw [collateMerge]
  split
  · rfl
  · split
    · exact List.length_modify _ _ _
    · rfl

theorem length_collateStep (s : Collated C) (i : Nat) :
    (collateStep s i).msgs.length = s.msgs.length := by
  rw [collateStep, length_collateMerge, collateSystem]
  split <;> rfl

theorem length_collate (msgs : List (Message C)) : (collate msgs).msgs.length = msgs.length := by
  have hfold : ∀ (is : List Nat) (s : Collated C),
      (is.foldl collateStep s).msgs.length = s.msgs.length := by
    intro is
    induction is with
    | nil => exact fun s => rfl
    | cons i is ih => exact fun s => (ih (collateStep s i)).trans (length_collateStep s i)
  exact hfold _ _

section Total

variable (renderer : List (Message C) → Text) (template : Text → List (Message C) → Text)
  (tokens : Text → List Int) (kind : ImageData → MediaKind) (growth : Growth)
  {h : Heap (Message C)} {s : Slice}

/-- What a rendering leaves of the arrays. -/
def rendered (h : Heap (Message C)) (s : Slice) : Heap (Message C) :=
  if m.Renderer ≠ [] then h else s.write h (collate (s.read h)).msgs

theorem renderPrompt_total (h : Heap (Message C)) (s : Slice) :
    renderPrompt (Backend.total renderer template tokens kind growth) m h s =
      (rendered m h s, .ok (renderText m renderer template (s.read h))) := by
  rw [renderPrompt, rendered, renderText]
  split
  · rfl
  · rfl

theorem keeps_rendered {n : Nat} (hn : n ≤ s.array) : Keeps n h (rendered m h s) := by
  rw [rendered]
  split
  · exact Keeps.refl n h
  · exact keeps_set h hn _

variable {m}

/-- A slice that the rendered one extends, in the same array or not. -/
theorem valid_rendered {t : Slice} (hs : s.Valid h) (ht : t.Valid h) : t.Valid (rendered m h s) := by
  rw [rendered]
  split
  · exact ht
  · refine Slice.valid_of_array ht (Slice.length_write h s _).ge ?_
    by_cases heq : t.array = s.array
    · rw [heq, Slice.length_array_write hs (by rw [length_collate, Slice.length_read hs])]
    · rw [Slice.write, array_set_ne h (Ne.symm heq)]

theorem read_rendered_of_ne {t : Slice} (hne : t.array ≠ s.array) :
    t.read (rendered m h s) = t.read h := by
  rw [rendered]
  split
  · rfl
  · exact Slice.read_of_array_eq (array_set_ne h (Ne.symm hne) _)

theorem read_rendered_self {t : Slice} (hs : s.Valid h) (heq : t.array = s.array)
    (hlen : t.len ≤ s.len) (hm : m.Renderer = []) :
    t.read (rendered m h s) = (collate (s.read h)).msgs.take t.len := by
  rw [rendered, if_neg (not_not.mpr hm),
    Slice.read_write hs (by rw [length_collate, Slice.length_read hs]) heq hlen]

end Total

/-! ## Truncating -/

/-- A slice of the messages in an array of its own, with the room of single appends. -/
structure Fresh (growth : Growth) (h h' : Heap (Message C)) (s : Slice) (xs : List (Message C)) :
    Prop where
  read : s.read h' = xs
  valid : s.Valid h'
  own : h.length ≤ s.array
  keeps : Keeps h.length h h'
  room : (h'.array s.array).length = Slice.capacity growth s.len

theorem Fresh.append {growth : Growth} {h h' : Heap (Message C)} {s : Slice}
    {xs : List (Message C)} (hs : Fresh growth h h' s xs) (msg : Message C) :
    Fresh growth h (s.append .zero growth h' [msg]).1 (s.append .zero growth h' [msg]).2
      (xs ++ [msg]) := by
  have harray := @Slice.array_append _ h' s [msg] .zero growth h.length hs.own hs.valid
  exact ⟨by rw [Slice.read_append hs.valid, hs.read], Slice.valid_append hs.valid, harray.1,
    hs.keeps.trans harray.2, Slice.capacity_append hs.valid msg hs.room⟩

theorem fresh_collectSystem (h : Heap (Message C)) (msgs : List (Message C)) :
    Fresh b.growth h (collectSystem b h msgs).1 (collectSystem b h msgs).2
      (msgs.filter Message.isSystem) := by
  have hfold : ∀ (msgs : List (Message C)) (s : Heap (Message C) × Slice) (xs : List (Message C)),
      Fresh b.growth h s.1 s.2 xs →
      Fresh b.growth h
        (msgs.foldl (fun s msg =>
          if msg.isSystem = true then s.2.append .zero b.growth s.1 [msg] else s) s).1
        (msgs.foldl (fun s msg =>
          if msg.isSystem = true then s.2.append .zero b.growth s.1 [msg] else s) s).2
        (xs ++ msgs.filter Message.isSystem) := by
    intro msgs
    induction msgs with
    | nil => exact fun s xs hs => by rwa [List.filter_nil, List.append_nil]
    | cons msg msgs ih =>
      intro s xs hs
      rw [List.foldl_cons]
      cases hsystem : msg.isSystem with
      | true =>
        rw [if_pos rfl, List.filter_cons_of_pos hsystem, List.append_cons]
        exact ih _ _ (hs.append msg)
      | false =>
        rw [if_neg Bool.false_ne_true, List.filter_cons_of_neg (by rw [hsystem]; exact Bool.false_ne_true)]
        exact ih s xs hs
  refine hfold msgs _ [] ⟨Slice.read_alloc h [], Slice.valid_alloc h [], le_rfl,
    keeps_append le_rfl _, ?_⟩
  rw [Slice.alloc, array_append_self]
  rfl

/-- What a pass of the loop leaves: the slice of the system messages before `k`, as they were unless
the rendering spoilt them. -/
structure Passed (growth : Growth) (h h' : Heap (Message C)) (system : Slice)
    (msgs : List (Message C)) (k : Nat) : Prop where
  valid : system.Valid h'
  own : h.length ≤ system.array
  keeps : Keeps h.length h h'
  read : ¬Spoils m growth msgs k → system.read h' = systemOf msgs k

theorem Passed.of_later {growth : Growth} {h h' h'' : Heap (Message C)} {system : Slice}
    {msgs : List (Message C)} {k : Nat} (hkeeps : Keeps h.length h h')
    (hp : Passed m growth h' h'' system msgs k) : Passed m growth h h'' system msgs k :=
  ⟨hp.valid, hkeeps.length_le.trans hp.own, hkeeps.trans (hp.keeps.mono hkeeps.length_le), hp.read⟩

/-- The system messages and the rest are put together and rendered. -/
theorem passed_rendered {growth : Growth} {h h' : Heap (Message C)} {system : Slice}
    {msgs : List (Message C)} {k : Nat} (hs : Fresh growth h h' system (systemOf msgs k)) :
    Passed m growth h
      (rendered m (system.append .zero growth h' (msgs.drop k)).1
        (system.append .zero growth h' (msgs.drop k)).2) system msgs k := by
  have harray := @Slice.array_append _ h' system (msgs.drop k) .zero growth h.length hs.own hs.valid
  have hvalid := @Slice.valid_append _ h' system (msgs.drop k) .zero growth hs.valid
  have hold := @Slice.read_append_old _ h' system (msgs.drop k) .zero growth hs.valid
  have hlen : system.len = (systemOf msgs k).length := by
    rw [← hs.read, Slice.length_read hs.valid]
  refine ⟨valid_rendered hvalid (Slice.valid_append_old hs.valid), hs.own,
    (hs.keeps.trans harray.2).trans (keeps_rendered m harray.1), fun hspoils => ?_⟩
  rw [← hs.read, ← hold]
  by_cases hroom : system.Room h' (msgs.drop k)
  · by_cases hm : m.Renderer = []
    · -- the rendering writes to the array of the system messages
      have hread := @Slice.read_append _ h' system (msgs.drop k) .zero growth hs.valid
      have hsame : system.array = (system.append .zero growth h' (msgs.drop k)).2.array := by
        rw [Slice.append_room hroom]
      have hle : system.len ≤ (system.append .zero growth h' (msgs.drop k)).2.len := by
        rw [Slice.append_room hroom]
        exact Nat.le_add_right _ _
      rw [Slice.Room, hs.room, hlen] at hroom
      rw [read_rendered_self hvalid hsame hle hm, hread, hs.read, hlen, hold, hs.read]
      by_contra hne
      exact hspoils ⟨hm, hroom, hne⟩
    · rw [rendered, if_pos hm]
  · have hne : system.array ≠ (system.append .zero growth h' (msgs.drop k)).2.array := by
      rw [Slice.append_full hroom]
      exact hs.valid.array_lt.ne
    rw [read_rendered_of_ne hne]

section Total

variable (renderer : List (Message C) → Text) (template : Text → List (Message C) → Text)
  (tokens : Text → List Int) (kind : ImageData → MediaKind) (growth : Growth)

theorem total_growth : (Backend.total renderer template tokens kind growth).growth = growth := rfl

theorem total_tokenize (p : Text) :
    (Backend.total renderer template tokens kind growth).tokenize p = .ok (tokens p) := rfl

theorem truncateFrom_total {numCtx : Int} {msgs : Slice} {ms : List (Message C)} (left i : Nat)
    (h : Heap (Message C)) (system : Slice) (harray : msgs.array < h.length)
    (hread : msgs.read h = ms) (hleft : left + i = ms.length) (hlt : i < ms.length)
    (hfirst : ∀ j, j < i → ¬Fits m renderer template tokens numCtx ms j) :
    ∃ k h' system', truncateFrom (Backend.total renderer template tokens kind growth) m numCtx msgs
        (ms.length - 1) left i h system = (h', .ok (system', k)) ∧
      FirstFit m renderer template tokens numCtx ms k ∧ Passed m growth h h' system' ms k := by
  induction left generalizing i h system with
  | zero => omega
  | succ left ih =>
    have hsystem := fresh_collectSystem (Backend.total renderer template tokens kind growth) h
      (ms.take i)
    obtain ⟨h₁, system₁, hcollect⟩ : ∃ h₁ system₁,
        collectSystem (Backend.total renderer template tokens kind growth) h (ms.take i) =
          (h₁, system₁) := ⟨_, _, rfl⟩
    rw [hcollect] at hsystem
    have hpassed := @passed_rendered _ m growth h h₁ system₁ ms i hsystem
    have hkept : (system₁.append .zero growth h₁ (ms.drop i)).2.read
        (system₁.append .zero growth h₁ (ms.drop i)).1 = kept ms i := by
      rw [Slice.read_append hsystem.valid, hsystem.read]
      rfl
    rw [truncateFrom, hread, hcollect]
    simp only [renderPrompt_total, hkept, total_growth, total_tokenize]
    generalize rendered m (system₁.append .zero growth h₁ (ms.drop i)).1
      (system₁.append .zero growth h₁ (ms.drop i)).2 = h₂ at hpassed ⊢
    split
    · rename_i hfits
      exact ⟨i, h₂, system₁, rfl, ⟨hlt, hfirst, .inl hfits⟩, hpassed⟩
    · rename_i hfits
      split
      · rename_i hlast
        exact ⟨i, h₂, system₁, by rw [hlast], ⟨hlt, hfirst, .inr hlast⟩, hpassed⟩
      · rename_i hlast
        have hfirst' : ∀ j, j < i + 1 → ¬Fits m renderer template tokens numCtx ms j := by
          intro j hj
          rcases Nat.lt_succ_iff_lt_or_eq.mp hj with hj | rfl
          · exact hfirst j hj
          · exact hfits
        obtain ⟨k, h₃, system₂, htruncate, hk, hpassed'⟩ := ih (i + 1) h₂ system₁
          (harray.trans_le hpassed.keeps.length_le)
          ((Slice.read_keeps hpassed.keeps harray).trans hread) (by omega) (by omega) hfirst'
        exact ⟨k, h₃, system₂, htruncate, hk, hpassed'.of_later m hpassed.keeps⟩

end Total

/-! ## Tags -/

/-- A text in brackets, without brackets inside. -/
def Bracketed (x : Text) : Prop := ∃ body, x = '[' :: (body ++ [']']) ∧ '[' ∉ body ∧ ']' ∉ body

theorem bracketed_img : Bracketed "[img]".toList := ⟨"img".toList, rfl, by decide, by decide⟩

theorem bracketed_imgTag (id : Nat) : Bracketed (imgTag id) := by
  have hdigit : ∀ c ∈ Nat.toDigits 10 id, c.isDigit = true := fun c hc =>
    Nat.isDigit_of_mem_toDigits (by decide) (by decide) hc
  refine ⟨"img-".toList ++ Nat.toDigits 10 id, ?_, fun hmem => ?_, fun hmem => ?_⟩
  · rfl
  · rcases List.mem_append.mp hmem with hmem | hmem
    · exact absurd hmem (by decide)
    · exact absurd (hdigit _ hmem) (by decide)
  · rcases List.mem_append.mp hmem with hmem | hmem
    · exact absurd hmem (by decide)
    · exact absurd (hdigit _ hmem) (by decide)

theorem imgTag_inj {i j : Nat} : imgTag i = imgTag j ↔ i = j := by
  refine ⟨fun h => ?_, congrArg imgTag⟩
  have hdigits := List.append_cancel_left (List.append_cancel_right h)
  have hread := congrArg (fun s => Nat.ofDigitChars 10 s 0) hdigits
  simpa only [Nat.ofDigitChars_toDigits (b := 10) (by decide) (by decide)] using hread

theorem imgTag_ne_img (id : Nat) : imgTag id ≠ "[img]".toList := by
  intro h
  have hfourth := congrArg (fun s : Text => s[4]?) h
  exact absurd hfourth (by simp [imgTag])

section Occurrences

variable {t x : Text}

/-- A tag does not begin in a text without brackets that open. -/
theorem occurrences_free (ht : Bracketed t) {r : Text} (hr : '[' ∉ r) (b : Text) :
    occurrences t (r ++ b) = occurrences t b := by
  obtain ⟨body, rfl, -, -⟩ := ht
  induction r with
  | nil => rfl
  | cons c r ih =>
    have hc : ¬('[' :: (body ++ [']'])).isPrefixOf (c :: (r ++ b)) = true := by
      rw [List.isPrefixOf_iff_prefix]
      intro hprefix
      exact hr ((List.cons_prefix_cons.mp hprefix).1 ▸ List.mem_cons_self)
    rw [List.cons_append, occurrences, if_neg hc, Nat.zero_add]
    exact ih fun hmem => hr (List.mem_cons_of_mem c hmem)

/-- A tag does not reach over a bracket that opens. -/
theorem prefix_split (ht : Bracketed t) {c : Char} {a b : Text} :
    t <+: c :: (a ++ '[' :: b) ↔ t <+: c :: a := by
  obtain ⟨body, rfl, hopen, -⟩ := ht
  constructor
  · intro h
    rw [List.cons_prefix_cons] at h ⊢
    refine ⟨h.1, ?_⟩
    rcases Nat.le_total (body ++ [']']).length a.length with hle | hle
    · exact List.prefix_of_prefix_length_le h.2 (List.prefix_append a _) hle
    · obtain ⟨d, hd⟩ := List.prefix_of_prefix_length_le (List.prefix_append a _) h.2 hle
      cases d with
      | nil => exact ⟨[], by rw [List.append_nil, ← hd, List.append_nil]⟩
      | cons r d =>
        obtain ⟨-, h⟩ := h
        rw [← hd] at h
        have hr := (List.cons_prefix_cons.mp ((List.prefix_append_right_inj a).mp h)).1
        have hmem : '[' ∈ body ++ [']'] := by
          rw [← hd, hr]
          exact List.mem_append_right a List.mem_cons_self
        rcases List.mem_append.mp hmem with hmem | hmem
        · exact absurd hmem hopen
        · exact absurd hmem (by decide)
  · exact fun h => h.trans ⟨'[' :: b, rfl⟩

theorem occurrences_split (ht : Bracketed t) (a b : Text) :
    occurrences t (a ++ '[' :: b) = occurrences t a + occurrences t ('[' :: b) := by
  induction a with
  | nil => rw [List.nil_append, occurrences, Nat.zero_add]
  | cons c a ih =>
    rw [List.cons_append, occurrences, occurrences, ih, Nat.add_assoc]
    simp only [List.isPrefixOf_iff_prefix, prefix_split ht]

/-- Of two texts in brackets none begins with the other. -/
theorem eq_of_bracketed (ht : Bracketed t) (hx : Bracketed x) (h : t <+: x) : t = x := by
  obtain ⟨body, rfl, -, -⟩ := ht
  obtain ⟨body', rfl, -, hclose⟩ := hx
  obtain ⟨d, hd⟩ := h
  rcases List.eq_nil_or_concat d with rfl | ⟨d, c, rfl⟩
  · rw [List.append_nil] at hd
    exact hd
  · rw [List.cons_append, List.concat_eq_append, ← List.append_assoc] at hd
    have hbody := (List.append_inj' (List.cons.inj hd).2 rfl).1
    exact absurd (by rw [← hbody]; simp) hclose

theorem occurrences_bracketed (ht : Bracketed t) (hx : Bracketed x) (b : Text) :
    occurrences t (x ++ b) = (if t = x then 1 else 0) + occurrences t b := by
  have hprefix : t <+: x ++ b ↔ t = x := by
    constructor
    · intro h
      rcases List.prefix_or_prefix_of_prefix h (List.prefix_append x b) with h | h
      · exact eq_of_bracketed ht hx h
      · exact (eq_of_bracketed hx ht h).symm
    · rintro rfl
      exact List.prefix_append t b
  have hrest : ∃ rest, x = '[' :: rest ∧ '[' ∉ rest := by
    obtain ⟨body, hbody, hopen, -⟩ := hx
    refine ⟨body ++ [']'], hbody, fun hmem => ?_⟩
    rcases List.mem_append.mp hmem with hmem | hmem
    · exact hopen hmem
    · exact absurd hmem (by decide)
  obtain ⟨rest, hcons, hrest⟩ := hrest
  rw [← occurrences_free ht hrest b, hcons, List.cons_append, occurrences, ← List.cons_append, ← hcons]
  simp only [List.isPrefixOf_iff_prefix, hprefix]

/-- A text in brackets, between others. -/
theorem occurrences_between (ht : Bracketed t) (hx : Bracketed x) (a b : Text) :
    occurrences t (a ++ x ++ b) = occurrences t a + (if t = x then 1 else 0) + occurrences t b := by
  have hxb : ∃ rest, x ++ b = '[' :: rest := by
    obtain ⟨body, rfl, -, -⟩ := hx
    exact ⟨_, rfl⟩
  obtain ⟨rest, hrest⟩ := hxb
  rw [List.append_assoc, hrest, occurrences_split ht, ← hrest, occurrences_bracketed ht hx, Nat.add_assoc]

end Occurrences

/-! ## Images -/

/-- The places of the tag `i`, from the number `id` on. -/
theorem placed_succ (i id n : Nat) : ((if i = id then 1 else 0) +
    if id + 1 ≤ i ∧ i < id + 1 + n then 1 else 0) = if id ≤ i ∧ i < id + (n + 1) then 1 else 0 := by
  split <;> split <;> split <;> omega

/-- A tag that is put in occurs once more. -/
theorem occurrences_inserted {id n : Nat} {s s' : Text} (h : Inserted (List.range' id n) s s')
    (i : Nat) : occurrences (imgTag i) s' = occurrences (imgTag i) s +
      if id ≤ i ∧ i < id + n then 1 else 0 := by
  induction n generalizing id s s' with
  | zero =>
    cases h
    rw [Nat.add_zero, if_neg (by omega), Nat.add_zero]
  | succ n ih =>
    have hone : (if imgTag i = imgTag id then 1 else 0) = if i = id then 1 else 0 := by
      simp only [imgTag_inj]
    rw [← placed_succ, ← hone]
    cases h with
    | @replace _ _ before behind _ h =>
      rw [ih h, occurrences_between (bracketed_imgTag i) bracketed_img,
        occurrences_between (bracketed_imgTag i) (bracketed_imgTag id), if_neg (imgTag_ne_img i)]
      omega
    | front h =>
      rw [occurrences_bracketed (bracketed_imgTag i) (bracketed_imgTag id), ih h]
      omega

theorem tagImage_renderer (hm : m.Renderer ≠ []) (images : List ImageData)
    (s : List MediaData × Text × Text) : images.foldl (tagImage b m) s =
      (s.1 ++ mediaFrom b.DetectMediaKind s.1.length images, s.2) := by
  induction images generalizing s with
  | nil => rw [List.foldl_nil, mediaFrom, List.zipIdx_nil, List.map_nil, List.append_nil]
  | cons i images ih =>
    rw [List.foldl_cons, ih, tagImage, if_pos hm, mediaFrom, mediaFrom, List.zipIdx_cons, List.map_cons,
      List.append_assoc, List.length_append, List.length_singleton]
    rfl

/-- An image's tag is put in the place of the next `[img]`, or in front. -/
theorem tagImages_tags (hm : m.Renderer = []) (images : List ImageData) (media : List MediaData)
    (pfx prompt : Text) : ∃ pfx' prompt' s, images.foldl (tagImage b m) (media, pfx, prompt) =
      (media ++ mediaFrom b.DetectMediaKind media.length images, pfx', prompt') ∧
      pfx' ++ prompt' = pfx ++ s ∧ Inserted (List.range' media.length images.length) prompt s := by
  induction images generalizing media pfx prompt with
  | nil =>
    refine ⟨pfx, prompt, prompt, ?_, rfl, .nil prompt⟩
    rw [List.foldl_nil, mediaFrom, List.zipIdx_nil, List.map_nil, List.append_nil]
  | cons image images ih =>
    have hmedia : media ++ [⟨image, media.length, b.DetectMediaKind image⟩] ++
        mediaFrom b.DetectMediaKind (media.length + 1) images =
          media ++ mediaFrom b.DetectMediaKind media.length (image :: images) := by
      rw [List.append_assoc, mediaFrom, mediaFrom, List.zipIdx_cons, List.map_cons]
      rfl
    have hlen : (media ++ [(⟨image, media.length, b.DetectMediaKind image⟩ : MediaData)]).length =
        media.length + 1 := List.length_append
    rw [List.foldl_cons, tagImage, if_neg (not_not.mpr hm), List.length_cons, List.range'_succ]
    cases hcut : cut "[img]".toList prompt with
    | none =>
      obtain ⟨pfx', prompt', s, hfold, hs, hinserted⟩ :=
        ih (media ++ [⟨image, media.length, b.DetectMediaKind image⟩]) (pfx ++ imgTag media.length) prompt
      rw [hlen] at hfold hinserted
      refine ⟨pfx', prompt', imgTag media.length ++ s, ?_, ?_, .front hinserted⟩
      · rw [← hmedia, ← hfold]
      · rw [hs, List.append_assoc]
    | some parts =>
      obtain ⟨before, behind⟩ := parts
      obtain ⟨pfx', prompt', s, hfold, hs, hinserted⟩ :=
        ih (media ++ [⟨image, media.length, b.DetectMediaKind image⟩]) pfx
          (before ++ imgTag media.length ++ behind)
      rw [hlen] at hfold hinserted
      refine ⟨pfx', prompt', s, ?_, hs, ?_⟩
      · rw [← hmedia, ← hfold]
      · rw [eq_of_cut hcut]
        exact .replace hinserted

theorem tagMessages_error {msgs : List (Message C)} (h : ∃ msg ∈ msgs, tooMany m msg)
    (media : List MediaData) : tagMessages b m media msgs = .error oneImage := by
  induction msgs generalizing media with
  | nil =>
    obtain ⟨msg, hmsg, -⟩ := h
    exact absurd hmsg List.not_mem_nil
  | cons msg msgs ih =>
    rw [tagMessages]
    split
    · rfl
    · rename_i hone
      have hrest : ∃ msg ∈ msgs, tooMany m msg := by
        obtain ⟨msg', hmem, hmany⟩ := h
        rcases List.mem_cons.mp hmem with rfl | hmem
        · exact absurd hmany hone
        · exact ⟨msg', hmem, hmany⟩
      simp only
      rw [ih hrest]
      rfl

theorem tagMessages_tagged {msgs : List (Message C)} (h : ¬∃ msg ∈ msgs, tooMany m msg)
    (media : List MediaData) : ∃ msgs', tagMessages b m media msgs =
      .ok (media ++ mediaFrom b.DetectMediaKind media.length (msgs.flatMap Message.Images), msgs') ∧
      Tagged m media.length msgs msgs' := by
  induction msgs generalizing media with
  | nil =>
    refine ⟨[], ?_, .nil _⟩
    rw [tagMessages, List.flatMap_nil, mediaFrom, List.zipIdx_nil, List.map_nil, List.append_nil]
  | cons msg msgs ih =>
    have hone : ¬tooMany m msg := fun hmany => h ⟨msg, List.mem_cons_self, hmany⟩
    have hrest : ¬∃ msg ∈ msgs, tooMany m msg := fun ⟨msg', hmem, hmany⟩ =>
      h ⟨msg', List.mem_cons_of_mem msg hmem, hmany⟩
    have hmedia : ∀ images : List ImageData, mediaFrom b.DetectMediaKind media.length
        (msg.Images ++ images) = mediaFrom b.DetectMediaKind media.length msg.Images ++
          mediaFrom b.DetectMediaKind (media.length + msg.Images.length) images := fun images => by
      rw [mediaFrom, List.zipIdx_append, List.map_append, mediaFrom, mediaFrom]
    have hlen : (media ++ mediaFrom b.DetectMediaKind media.length msg.Images).length =
        media.length + msg.Images.length := by
      rw [List.length_append, mediaFrom, List.length_map, List.length_zipIdx]
    obtain ⟨msgs', htags, htagged⟩ := ih hrest
      (media ++ mediaFrom b.DetectMediaKind media.length msg.Images)
    rw [hlen] at htags htagged
    rw [tagMessages, if_neg hone, List.flatMap_cons, hmedia, ← List.append_assoc]
    by_cases hm : m.Renderer = []
    · obtain ⟨pfx, prompt, s, hfold, hs, hinserted⟩ := tagImages_tags b m hm msg.Images media [] msg.Content
      rw [List.nil_append] at hs
      rw [hfold]
      simp only [htags, hs]
      refine ⟨_, rfl, ?_⟩
      rw [if_neg (not_not.mpr hm)]
      exact .cons (fun hne => absurd hm hne) (fun _ => hinserted)
        (fun _ => occurrences_inserted hinserted) htagged
    · rw [tagImage_renderer b m hm]
      simp only [htags]
      refine ⟨_, rfl, ?_⟩
      rw [if_pos hm]
      exact .cons (fun _ => rfl) (fun h => absurd h hm) (fun h => absurd h hm) htagged

/-! ## The prompt -/

theorem keepsAll_kept {msgs : List (Message C)} {k : Nat} (hk : k < msgs.length) :
    KeepsAll msgs (kept msgs k) := by
  have hdrop : msgs.drop k ≠ [] := fun hnil => hk.not_ge (List.drop_eq_nil_iff.mp hnil)
  have hlast : ∀ front : List (Message C), (front ++ msgs.drop k).getLast? = (msgs.drop k).getLast? :=
    fun front => by
      obtain ⟨msg, hmsg⟩ := Option.ne_none_iff_exists'.mp (mt List.getLast?_eq_none_iff.mp hdrop)
      rw [List.getLast?_append, hmsg, Option.some_or]
  refine ⟨?_, ?_, ?_⟩
  · have hsub := (List.filter_sublist (p := Message.isSystem) (l := msgs.take k)).append
      (List.Sublist.refl (msgs.drop k))
    rwa [List.take_append_drop] at hsub
  · have htwice : (systemOf msgs k).filter Message.isSystem = (msgs.take k).filter Message.isSystem := by
      rw [systemOf, List.filter_filter]
      simp only [Bool.and_self]
    rw [kept, List.filter_append, htwice, ← List.filter_append, List.take_append_drop]
  · rw [kept, hlast, ← hlast (msgs.take k), List.take_append_drop]

theorem length_tagged {id : Nat} {msgs msgs' : List (Message C)} (h : Tagged m id msgs msgs') :
    msgs'.length = msgs.length := by
  induction h with
  | nil => rfl
  | cons _ _ _ _ ih => rw [List.length_cons, List.length_cons, ih]

section Total

variable (renderer : List (Message C) → Text) (template : Text → List (Message C) → Text)
  (tokens : Text → List Int) (kind : ImageData → MediaKind) (growth : Growth)

/-- The prompt is that of the system messages and the first messages that fit, with their images
tagged, unless the model takes one image only or the system messages are spoilt. -/
theorem chatPrompt_spec {h : Heap (Message C)} {msgs : Slice} (hvalid : msgs.Valid h)
    (hne : msgs.read h ≠ []) (numCtx : Int) :
    ∃ k, FirstFit m renderer template tokens numCtx (msgs.read h) k ∧
      KeepsAll (msgs.read h) (kept (msgs.read h) k) ∧
      msgs.read (chatPrompt (Backend.total renderer template tokens kind growth) m numCtx h msgs
        true).1 = msgs.read h ∧
      ((∃ msg ∈ (msgs.read h).drop k, tooMany m msg) →
        (chatPrompt (Backend.total renderer template tokens kind growth) m numCtx h msgs true).2 =
          .error oneImage) ∧
      ((¬∃ msg ∈ (msgs.read h).drop k, tooMany m msg) → ¬Spoils m growth (msgs.read h) k →
        PromptFrom m renderer template kind (msgs.read h) k
          (chatPrompt (Backend.total renderer template tokens kind growth) m numCtx h msgs true).2) := by
  generalize hms : msgs.read h = ms at *
  have hpos := List.length_pos_of_ne_nil hne
  -- the loop starts with an empty slice
  have halloc : Keeps h.length h (Slice.alloc h []).1 := keeps_append le_rfl _
  have harray : msgs.array < (Slice.alloc h ([] : List (Message C))).1.length :=
    hvalid.array_lt.trans_le halloc.length_le
  have hread : msgs.read (Slice.alloc h []).1 = ms :=
    (Slice.read_keeps halloc hvalid.array_lt).trans hms
  obtain ⟨k, h₁, system, htruncate, hk, hpassed⟩ := @truncateFrom_total _ m renderer template tokens
    kind growth numCtx msgs ms ms.length 0 _ (Slice.alloc h ([] : List (Message C))).2 harray hread rfl
    hpos fun j hj => absurd hj (Nat.not_lt_zero j)
  refine ⟨k, hk, keepsAll_kept hk.lt, ?_⟩
  have harray₁ := harray.trans_le hpassed.keeps.length_le
  have hread₁ := (Slice.read_keeps hpassed.keeps harray).trans hread
  -- the copy of the messages
  obtain ⟨h₂, renderMsgs, hclone⟩ : ∃ h₂ renderMsgs, Slice.alloc h₁ ms = (h₂, renderMsgs) :=
    ⟨_, _, rfl⟩
  have hclone₁ : Keeps h₁.length h₁ h₂ := by
    have hkeeps := @keeps_append _ h₁.length h₁ le_rfl [ms]
    rwa [← (Prod.mk.inj hclone).1]
  have hcopy : renderMsgs.read h₂ = ms := by
    have hcopy := Slice.read_alloc h₁ ms
    rwa [hclone] at hcopy
  have hcopyValid : renderMsgs.Valid h₂ := by
    have hvalid := Slice.valid_alloc h₁ ms
    rwa [hclone] at hvalid
  have hcopyArray : renderMsgs.array = h₁.length := by rw [← (Prod.mk.inj hclone).2]
  have hread₂ := (Slice.read_keeps hclone₁ harray₁).trans hread₁
  rw [chatPrompt]
  simp only [hread, if_true, htruncate, hread₁, hclone, hcopy]
  by_cases hmany : ∃ msg ∈ ms.drop k, tooMany m msg
  · rw [tagMessages_error _ m hmany]
    exact ⟨hread₂, fun _ => rfl, fun hone => absurd hmany hone⟩
  · obtain ⟨tagged, htags, htagged⟩ :=
      tagMessages_tagged (Backend.total renderer template tokens kind growth) m hmany []
    have hlen : (ms.take k ++ tagged).length = renderMsgs.len := by
      rw [← Slice.length_read hcopyValid, hcopy, List.length_append, length_tagged m htagged,
        ← List.length_append, List.take_append_drop]
    have hwritten : renderMsgs.read (renderMsgs.write h₂ (ms.take k ++ tagged)) =
        ms.take k ++ tagged := by
      rw [Slice.read_write hcopyValid hlen rfl le_rfl, ← hlen, List.take_length]
    have htail : (ms.take k ++ tagged).drop k = tagged := List.drop_left' (List.length_take_of_le hk.lt.le)
    simp only [htags, renderPrompt_total, total_growth, hwritten, htail]
    -- writing the copy leaves the other arrays as they are
    have hkeeps : Keeps h₁.length h₁ (renderMsgs.write h₂ (ms.take k ++ tagged)) :=
      hclone₁.trans (keeps_set h₂ hcopyArray.ge _)
    generalize renderMsgs.write h₂ (ms.take k ++ tagged) = h₃ at hkeeps ⊢
    have hsystem : system.Valid h₃ := Slice.valid_of_array hpassed.valid hkeeps.length_le
      (congrArg List.length (hkeeps.array_eq _ hpassed.valid.array_lt)).ge
    have happend := @Slice.array_append _ h₃ system tagged .zero growth _ hpassed.own hsystem
    refine ⟨?_, fun hsome => absurd hsome hmany, fun _ hspoils => ⟨tagged, htagged, ?_⟩⟩
    · rw [Slice.read_keeps (keeps_rendered m happend.1) harray, Slice.read_keeps happend.2 harray,
        Slice.read_keeps hkeeps harray₁, hread₁]
    · rw [Slice.read_append hsystem, Slice.read_keeps hkeeps hpassed.valid.array_lt,
        hpassed.read hspoils]
      rfl

end Total

section Inputs

/-- A template that prints the contents, a token for each rune, and arrays that double. -/
def printing : Text → List (Message Unit) → Text := fun _ msgs => msgs.flatMap Message.Content

def runeTokens : Text → List Int := fun p => p.map fun c => (c.toNat : Int)

def doubling : Growth := ⟨fun old needed => max needed (2 * old), fun _ _ => le_max_left _ _⟩

def images : ImageData → MediaKind := fun _ => .image

/-- A message with an image, in a model with projectors. -/
theorem chatPrompt_spec_one :
    ∃ k, FirstFit ⟨[], [], true⟩ (fun _ => []) printing runeTokens 800
        [⟨"user".toList, "a".toList, [], [[0]], [], [], []⟩] k ∧
      PromptFrom ⟨[], [], true⟩ (fun _ => []) printing images
        [⟨"user".toList, "a".toList, [], [[0]], [], [], []⟩] k
        (chatPrompt (Backend.total (fun _ => []) printing runeTokens images doubling) ⟨[], [], true⟩
          800 [[⟨"user".toList, "a".toList, [], [[0]], [], [], []⟩]] ⟨0, 1⟩ true).2 := by
  obtain ⟨k, hk, -, -, -, hok⟩ := @chatPrompt_spec Unit ⟨[], [], true⟩ (fun _ => []) printing runeTokens
    images doubling [[⟨"user".toList, "a".toList, [], [[0]], [], [], []⟩]] ⟨0, 1⟩
    ⟨by decide, by decide⟩ (by decide) 800
  obtain rfl : k = 0 := Nat.lt_one_iff.mp hk.lt
  exact ⟨0, hk, hok (by decide) fun hspoils => hspoils.2.2 rfl⟩

/-- A model that takes one image gives an error for two of them, and three system messages that are
skipped are rendered twice. -/
theorem not_chatPrompt_spec :
    (¬∀ (m : Model) (h : Heap (Message Unit)) (msgs : Slice) (numCtx : Int),
      msgs.Valid h → msgs.read h ≠ [] →
        ∃ k, FirstFit m (fun _ => []) printing runeTokens numCtx (msgs.read h) k ∧
          PromptFrom m (fun _ => []) printing images (msgs.read h) k
            (chatPrompt (Backend.total (fun _ => []) printing runeTokens images doubling) m numCtx h
              msgs true).2) ∧
    ¬∀ (m : Model) (h : Heap (Message Unit)) (msgs : Slice) (numCtx : Int),
      msgs.Valid h → msgs.read h ≠ [] → (∀ msg ∈ msgs.read h, ¬tooMany m msg) →
        ∃ k, FirstFit m (fun _ => []) printing runeTokens numCtx (msgs.read h) k ∧
          PromptFrom m (fun _ => []) printing images (msgs.read h) k
            (chatPrompt (Backend.total (fun _ => []) printing runeTokens images doubling) m numCtx h
              msgs true).2 := by
  refine ⟨fun hclaim => ?_, fun hclaim => ?_⟩
  · obtain ⟨k, -, tagged, -, hok⟩ := hclaim ⟨[], ["mllama".toList], true⟩
      [[⟨"user".toList, "a".toList, [], [[0], [1]], [], [], []⟩]] ⟨0, 1⟩ 8192 ⟨by decide, by decide⟩
      (by decide)
    have herror : (chatPrompt (Backend.total (fun _ => []) printing runeTokens images doubling)
        ⟨[], ["mllama".toList], true⟩ 8192
        [[⟨"user".toList, "a".toList, [], [[0], [1]], [], [], []⟩]] ⟨0, 1⟩ true).2 =
          .error oneImage := rfl
    rw [herror] at hok
    cases hok
  · obtain ⟨k, hk, tagged, htagged, hok⟩ := hclaim ⟨[], [], false⟩
      [[⟨"system".toList, "a".toList, [], [], [], [], []⟩,
        ⟨"system".toList, "b".toList, [], [], [], [], []⟩,
        ⟨"system".toList, "c".toList, [], [], [], [], []⟩,
        ⟨"user".toList, "d".toList, [], [], [], [], []⟩]] ⟨0, 4⟩ 0 ⟨by decide, by decide⟩ (by decide)
      (by decide)
    have htwice : (chatPrompt (Backend.total (fun _ => []) printing runeTokens images doubling)
        ⟨[], [], false⟩ 0
        [[⟨"system".toList, "a".toList, [], [], [], [], []⟩,
          ⟨"system".toList, "b".toList, [], [], [], [], []⟩,
          ⟨"system".toList, "c".toList, [], [], [], [], []⟩,
          ⟨"user".toList, "d".toList, [], [], [], [], []⟩]] ⟨0, 4⟩ true).2 =
        .ok ("a\n\nb\n\nc\n\nb\n\ncd".toList, []) := rfl
    have hlast : k = 3 := by
      rcases hk.fits with hfits | hlast
      · have hlt : k < 4 := hk.lt
        interval_cases k
        · exact absurd hfits (by decide)
        · exact absurd hfits (by decide)
        · exact absurd hfits (by decide)
        · rfl
      · exact hlast
    subst hlast
    cases htagged with
    | cons _ hinserted _ hrest =>
      cases hrest
      cases hinserted rfl
      rw [htwice] at hok
      exact absurd hok (by decide)

end Inputs

end Prismalama.Server.ChatPrompt
