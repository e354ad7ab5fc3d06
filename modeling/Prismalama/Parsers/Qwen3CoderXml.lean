import Prismalama.Lib.Scan

/-!
# Qwen3-Coder tool calls as XML (`model/parsers/qwen3coder.go`)

`transformToXML` rewrites the tags of the form `<x=y>`, then escapes what lies between the tags of
functions and parameters. Both are searches for the matches of a pattern (`Lib.Scan`). The XML that
comes out is read with the names and values of the call just when no pattern matches in a value and
all runes may stand in XML as they are (`transformToXML_iff`).
-/

namespace Prismalama.Parsers.Qwen3CoderXml

open Prismalama.Lib.Scan

/-! ## The transformation -/

/-- `\w` -/
def isWord (c : Char) : Bool := c.isAlphanum || c == '_'

/-- `\s` -/
def isBlank (c : Char) : Bool := c == ' ' || c == '\t' || c == '\n' || c == '\x0c' || c == '\r'

/-- `isInCharacterRange` of `encoding/xml` -/
def isInCharacterRange (c : Char) : Bool :=
  let n := c.toNat
  n == 0x09 || n == 0x0A || n == 0x0D || (0x20 ≤ n && n ≤ 0xD7FF) || (0xE000 ≤ n && n ≤ 0xFFFD) ||
    (0x10000 ≤ n && n ≤ 0x10FFFF)

/-- A rune of `xml.EscapeText` -/
def escapeAttr (c : Char) : List Char :=
  if c = '"' then "&#34;".toList
  else if c = '\'' then "&#39;".toList
  else if c = '&' then "&amp;".toList
  else if c = '<' then "&lt;".toList
  else if c = '>' then "&gt;".toList
  else if c = '\t' then "&#x9;".toList
  else if c = '\n' then "&#xA;".toList
  else if c = '\r' then "&#xD;".toList
  else if isInCharacterRange c = true then [c]
  else ['\uFFFD']

/-- `<%s name="%s">` -/
def openTag (tag value : List Char) : List Char :=
  '<' :: (tag ++ " name=\"".toList ++ value.flatMap escapeAttr ++ "\">".toList)

/-- `qwenTagRegex` at the start of a text: what is put in its place, and its length -/
def qwenTag (s : List Char) : Option (List Char × Nat) :=
  match strip ['<'] s with
  | none => none
  | some s =>
    let tag := s.takeWhile isWord
    if tag = [] then none
    else
      match strip ['='] (s.dropWhile isWord) with
      | none => none
      | some s =>
        let value := s.takeWhile (· != '>')
        if value = [] ∨ s.dropWhile (· != '>') = [] then none
        else some (openTag tag value, tag.length + value.length + 3)

/-- `(?:\s+name="[^"]*")?>`: what follows it -/
def tagEnd (s : List Char) : Option (List Char) :=
  match strip ['>'] s with
  | some s => some s
  | none =>
    if s.takeWhile isBlank = [] then none
    else
      match strip "name=\"".toList (s.dropWhile isBlank) with
      | none => none
      | some s => strip "\">".toList (s.dropWhile (· != '"'))

/-- `qwenXMLTagRegex` at the start of a text, with its length -/
def qwenXMLTag (s : List Char) : Option (List Char × Nat) :=
  match strip ['<'] s with
  | none => none
  | some r =>
    let r := (strip ['/'] r).getD r
    match (strip "function".toList r).or (strip "parameter".toList r) with
    | none => none
    | some r => (tagEnd r).map fun r => (s.take (s.length - r.length), s.length - r.length)

/-- A rune of `escapeTextNode` -/
def escapeRune (c : Char) : List Char :=
  if c = '&' then "&amp;".toList
  else if c = '<' then "&lt;".toList
  else if c = '>' then "&gt;".toList
  else [c]

/-- `qwenTagRegex.ReplaceAllStringFunc` -/
def replaceTags (s : List Char) : List Char := replaceAll qwenTag (fun c => [c]) s

/-- The text between the tags is escaped. -/
def escapeTexts (s : List Char) : List Char := replaceAll qwenXMLTag escapeRune s

def transformToXML (raw : List Char) : List Char := escapeTexts (replaceTags raw)

/-! ## Tool calls -/

/-- A name in the notation of the model. -/
structure Name where
  runes : List Char
  ne_nil : runes ≠ []
  no_close : '>' ∉ runes

/-- White space between tags. -/
structure Gap where
  runes : List Char
  blank : ∀ c ∈ runes, c = ' ' ∨ c = '\t' ∨ c = '\n' ∨ c = '\r'

structure Parameter where
  name : Name
  value : List Char
  gap : Gap

structure Call where
  lead : Gap
  name : Name
  gap : Gap
  params : List Parameter
  trail : Gap

def closeParameter : List Char := "</parameter>".toList

def closeFunction : List Char := "</function>".toList

def Parameter.raw (p : Parameter) : List Char :=
  "<parameter=".toList ++ p.name.runes ++ ">".toList ++ p.value ++ closeParameter ++ p.gap.runes

/-- The parameters and what follows them. -/
def rawParams (trail : Gap) : List Parameter → List Char
  | [] => closeFunction ++ trail.runes
  | p :: ps => p.raw ++ rawParams trail ps

/-- The call as the model writes it. -/
def Call.raw (c : Call) : List Char :=
  c.lead.runes ++ "<function=".toList ++ c.name.runes ++ ">".toList ++ c.gap.runes ++
    rawParams c.trail c.params

/-! ## Reading XML -/

/-- The references that are written for runes. -/
def references : List (List Char × Char) :=
  [("amp;".toList, '&'), ("lt;".toList, '<'), ("gt;".toList, '>'), ("#34;".toList, '"'),
    ("#39;".toList, '\''), ("#x9;".toList, '\t'), ("#xA;".toList, '\n'), ("#xD;".toList, '\r')]

/-- The text of character data after `skip` runes, with `cr` after a carriage return: references stand
for their runes, and a line ends with a line feed. -/
def unescapeFrom : Nat → Bool → List Char → Option (List Char)
  | _, _, [] => some []
  | skip + 1, cr, _ :: s => unescapeFrom skip cr s
  | 0, cr, c :: s =>
    if c = '&' then
      match references.find? fun r => r.1.isPrefixOf s with
      | some r => (unescapeFrom r.1.length false s).map (r.2 :: ·)
      | none => none
    else if c = '\r' then (unescapeFrom 0 true s).map ('\n' :: ·)
    else if c = '\n' ∧ cr = true then unescapeFrom 0 false s
    else if isInCharacterRange c = true then (unescapeFrom 0 false s).map (c :: ·)
    else none

def unescape (s : List Char) : Option (List Char) := unescapeFrom 0 false s

/-- The value of an attribute, and what follows the tag. -/
def readAttr (s : List Char) : Option (List Char × List Char) :=
  match strip "\">".toList (s.dropWhile (· != '"')) with
  | none => none
  | some rest => (unescape (s.takeWhile (· != '"'))).map (·, rest)

/-- The text of a parameter, and what follows the parameter. -/
def readText (s : List Char) : Option (List Char × List Char) :=
  match strip closeParameter (s.dropWhile (· != '<')) with
  | none => none
  | some rest => (unescape (s.takeWhile (· != '<'))).map (·, rest)

def isXMLSpace (c : Char) : Bool := c == ' ' || c == '\t' || c == '\n' || c == '\r'

/-- The parameters of a function up to its end, of which there are less than `fuel`. -/
def readParams : Nat → List Char → Option (List (List Char × List Char))
  | 0, _ => none
  | fuel + 1, s =>
    let s := s.dropWhile isXMLSpace
    match strip closeFunction s with
    | some rest => if rest.all isXMLSpace = true then some [] else none
    | none =>
      match strip "<parameter name=\"".toList s with
      | none => none
      | some s =>
        (readAttr s).bind fun name =>
          (readText name.2).bind fun value =>
            (readParams fuel value.2).map ((name.1, value.1) :: ·)

/-- A document of a function with its parameters: the names and the texts. -/
def readXML (s : List Char) : Option (List Char × List (List Char × List Char)) :=
  match strip "<function name=\"".toList (s.dropWhile isXMLSpace) with
  | none => none
  | some s => (readAttr s).bind fun name => (readParams name.2.length name.2).map (name.1, ·)

/-! ## What should come out -/

/-- No tag is rewritten in the value, nor left as one, and its runes stand for themselves in XML. -/
structure PlainValue (value : List Char) : Prop where
  rewritten : Free qwenTag value closeParameter
  left : Free qwenXMLTag value closeParameter
  inRange : ∀ c ∈ value, isInCharacterRange c = true
  lines : '\r' ∉ value

structure PlainCall (c : Call) : Prop where
  name : ∀ r ∈ c.name.runes, isInCharacterRange r = true
  names : ∀ p ∈ c.params, ∀ r ∈ p.name.runes, isInCharacterRange r = true
  values : ∀ p ∈ c.params, PlainValue p.value

/-- The name of the function, with the names and values of the parameters. -/
def Call.contents (c : Call) : List Char × List (List Char × List Char) :=
  (c.name.runes, c.params.map fun p => (p.name.runes, p.value))

/-! ## The patterns -/

theorem strip_cons_self (c : Char) (s : List Char) : strip [c] (c :: s) = some s :=
  strip_append [c] s

theorem strip_cons_ne {c d : Char} (h : d ≠ c) (s : List Char) : strip [c] (d :: s) = none :=
  strip_eq_none.mpr fun hp => h (List.cons_prefix_cons.mp hp).1.symm

theorem qwenTag_ne {c : Char} (h : c ≠ '<') (s : List Char) : qwenTag (c :: s) = none := by
  rw [qwenTag, strip_cons_ne h]

theorem qwenXMLTag_ne {c : Char} (h : c ≠ '<') (s : List Char) : qwenXMLTag (c :: s) = none := by
  rw [qwenXMLTag, strip_cons_ne h]

/-- Where there is no `<`, no tag begins. -/
theorem free_of_not_mem {found : List Char → Option (List Char × Nat)}
    (hne : ∀ c s, c ≠ '<' → found (c :: s) = none) {a : List Char} (ha : '<' ∉ a) (y : List Char) :
    Free found a y := by
  induction a with
  | nil => exact free_nil y
  | cons c a ih =>
    obtain ⟨hc, ha⟩ := not_or.mp (mt List.mem_cons.mpr ha)
    exact free_cons.mpr ⟨hne c _ (Ne.symm hc), ih ha⟩

theorem takeWhile_word {tag : List Char} (htag : ∀ c ∈ tag, isWord c = true) (s : List Char) :
    (tag ++ '=' :: s).takeWhile isWord = tag ∧ (tag ++ '=' :: s).dropWhile isWord = '=' :: s := by
  have heq : isWord '=' = false := rfl
  rw [List.takeWhile_append_of_pos htag, List.dropWhile_append_of_pos htag, List.takeWhile_cons,
    List.dropWhile_cons, heq]
  exact ⟨List.append_nil tag, rfl⟩

theorem takeWhile_ne {stop : Char} {a : List Char} (ha : stop ∉ a) (s : List Char) :
    (a ++ stop :: s).takeWhile (· != stop) = a ∧
      (a ++ stop :: s).dropWhile (· != stop) = stop :: s := by
  have hne : ∀ c ∈ a, (c != stop) = true := fun c hc => bne_iff_ne.mpr fun h => ha (h ▸ hc)
  have hstop : (stop != stop) = false := bne_self_eq_false stop
  rw [List.takeWhile_append_of_pos hne, List.dropWhile_append_of_pos hne, List.takeWhile_cons,
    List.dropWhile_cons, hstop]
  exact ⟨List.append_nil a, rfl⟩

/-- A tag of the model is found. -/
theorem qwenTag_tag {tag : List Char} (htag : ∀ c ∈ tag, isWord c = true) (hne : tag ≠ [])
    (n : Name) (s : List Char) : qwenTag ('<' :: (tag ++ '=' :: (n.runes ++ '>' :: s))) =
      some (openTag tag n.runes, tag.length + n.runes.length + 3) := by
  obtain ⟨htake, hdrop⟩ := takeWhile_word htag (n.runes ++ '>' :: s)
  obtain ⟨htake', hdrop'⟩ := takeWhile_ne n.no_close s
  have hsome : ¬(n.runes = [] ∨ '>' :: s = []) := fun h => h.elim n.ne_nil (List.cons_ne_nil _ _)
  rw [qwenTag, strip_cons_self]
  simp only [htake, hdrop, strip_cons_self, htake', hdrop', if_neg hne, if_neg hsome]

/-- Whether a tag begins at the front is settled by a text with a `>`. -/
theorem qwenTag_append {s : List Char} (hs : '>' ∈ s) (y : List Char) :
    qwenTag (s ++ y) = qwenTag s := by
  rw [qwenTag, qwenTag, strip_append_of_mem hs (by decide)]
  cases hopen : strip ['<'] s with
  | none => rfl
  | some s₁ =>
    have hs₁ : '>' ∈ s₁ := by
      rw [eq_of_strip hopen] at hs
      exact (List.mem_append.mp hs).resolve_left (by decide)
    have hword : isWord '>' = false := rfl
    simp only [Option.map_some, takeWhile_append_of_mem hs₁ hword, dropWhile_append_of_mem hs₁ hword]
    rw [strip_append_of_mem (mem_dropWhile hs₁ hword) (by decide)]
    cases heq : strip ['='] (s₁.dropWhile isWord) with
    | none => rfl
    | some s₂ =>
      have hs₂ : '>' ∈ s₂ := by
        have hmem := mem_dropWhile hs₁ hword
        rw [eq_of_strip heq] at hmem
        exact (List.mem_append.mp hmem).resolve_left (by decide)
      have hstop : ('>' != '>') = false := rfl
      have hmem := @mem_dropWhile _ (· != '>') s₂ '>' hs₂ hstop
      have hne : s₂.dropWhile (· != '>') ≠ [] := List.ne_nil_of_mem hmem
      have hne' : s₂.dropWhile (· != '>') ++ y ≠ [] := List.append_ne_nil_of_left_ne_nil hne y
      simp only [Option.map_some, takeWhile_append_of_mem (p := (· != '>')) hs₂ hstop,
        dropWhile_append_of_mem (p := (· != '>')) hs₂ hstop, hne, hne', or_false]

/-! ## The tags that are left -/

theorem tagEnd_close (s : List Char) : tagEnd ('>' :: s) = some s := by
  rw [tagEnd, strip_cons_self]

theorem tagEnd_attr {e : List Char} (he : '"' ∉ e) (s : List Char) :
    tagEnd (" name=\"".toList ++ e ++ "\">".toList ++ s) = some s := by
  have hblank : (" name=\"".toList ++ e ++ "\">".toList ++ s).takeWhile isBlank = [' '] := rfl
  have hname : (" name=\"".toList ++ e ++ "\">".toList ++ s).dropWhile isBlank =
      "name=\"".toList ++ (e ++ '"' :: ('>' :: s)) := by
    rw [List.append_assoc, List.append_assoc]
    rfl
  have hopen : strip ['>'] (" name=\"".toList ++ e ++ "\">".toList ++ s) = none :=
    strip_cons_ne (by decide) _
  rw [tagEnd, hopen]
  simp only
  rw [hblank, hname, if_neg (List.cons_ne_nil _ _), strip_append]
  simp only
  rw [(takeWhile_ne he ('>' :: s)).2]
  exact strip_append "\">".toList s

theorem take_before (a s : List Char) :
    ((a ++ s).take ((a ++ s).length - s.length), (a ++ s).length - s.length) = (a, a.length) := by
  rw [List.length_append, Nat.add_sub_cancel, List.take_left]

/-- The closing tags are left. -/
theorem qwenXMLTag_close {tag : List Char} (htag : tag = closeParameter ∨ tag = closeFunction)
    (s : List Char) : qwenXMLTag (tag ++ s) = some (tag, tag.length) := by
  rw [← take_before tag s]
  rcases htag with rfl | rfl
  · have hname : strip "function".toList ("parameter>".toList ++ s) = none :=
      strip_eq_none.mpr fun h => absurd (List.cons_prefix_cons.mp h).1 (by decide)
    have hparameter : strip "parameter".toList ("parameter>".toList ++ s) = some ('>' :: s) :=
      strip_append "parameter".toList ('>' :: s)
    rw [qwenXMLTag, show strip ['<'] (closeParameter ++ s) = some ("/parameter>".toList ++ s) from
      strip_cons_self _ _]
    simp only [show strip ['/'] ("/parameter>".toList ++ s) = some ("parameter>".toList ++ s) from
      strip_cons_self _ _, Option.getD_some, hname, hparameter, Option.none_or, tagEnd_close,
      Option.map_some]
  · have hfunction : strip "function".toList ("function>".toList ++ s) = some ('>' :: s) :=
      strip_append "function".toList ('>' :: s)
    rw [qwenXMLTag, show strip ['<'] (closeFunction ++ s) = some ("/function>".toList ++ s) from
      strip_cons_self _ _]
    simp only [show strip ['/'] ("/function>".toList ++ s) = some ("function>".toList ++ s) from
      strip_cons_self _ _, Option.getD_some, hfunction, Option.some_or, tagEnd_close, Option.map_some]

theorem escapeAttr_ne (c : Char) : '"' ∉ escapeAttr c := by
  rw [escapeAttr]
  repeat' split
  all_goals first | decide | skip
  rename_i hne _ _ _ _ _ _ _ _
  exact fun h => hne (List.mem_singleton.mp h).symm

theorem quote_not_mem (value : List Char) : '"' ∉ value.flatMap escapeAttr := fun h => by
  obtain ⟨c, -, hc⟩ := List.mem_flatMap.mp h
  exact escapeAttr_ne c hc

/-- The tags that were rewritten are left. -/
theorem qwenXMLTag_open {tag : List Char} (htag : tag = "function".toList ∨ tag = "parameter".toList)
    (value s : List Char) :
    qwenXMLTag (openTag tag value ++ s) = some (openTag tag value, (openTag tag value).length) := by
  rw [← take_before (openTag tag value) s]
  have hopen : strip ['<'] (openTag tag value ++ s) = some (tag ++
      (" name=\"".toList ++ value.flatMap escapeAttr ++ "\">".toList ++ s)) := by
    rw [openTag, List.cons_append, strip_cons_self]
    simp only [List.append_assoc]
  have hname : (strip "function".toList (tag ++
        (" name=\"".toList ++ value.flatMap escapeAttr ++ "\">".toList ++ s))).or
      (strip "parameter".toList (tag ++
        (" name=\"".toList ++ value.flatMap escapeAttr ++ "\">".toList ++ s))) =
      some (" name=\"".toList ++ value.flatMap escapeAttr ++ "\">".toList ++ s) := by
    rcases htag with rfl | rfl
    · rw [strip_append, Option.some_or]
    · generalize " name=\"".toList ++ value.flatMap escapeAttr ++ "\">".toList ++ s = r
      have hne : strip "function".toList ("parameter".toList ++ r) = none :=
        strip_eq_none.mpr fun h => absurd (List.cons_prefix_cons.mp h).1 (by decide)
      rw [strip_append, hne, Option.none_or]
  have hslash : strip ['/'] (tag ++
      (" name=\"".toList ++ value.flatMap escapeAttr ++ "\">".toList ++ s)) = none := by
    rcases htag with rfl | rfl
    · exact strip_cons_ne (by decide) _
    · exact strip_cons_ne (by decide) _
  rw [qwenXMLTag, hopen]
  simp only [hslash, Option.getD_none, hname, tagEnd_attr (quote_not_mem value), Option.map_some]

/-! ## What follows a value -/

/-- The text ends with a `>`. -/
def Ends (s : List Char) : Prop := ∃ a, s = a ++ ['>']

theorem Ends.mem {s : List Char} (h : Ends s) : '>' ∈ s := by
  obtain ⟨a, rfl⟩ := h
  exact List.mem_append_right a List.mem_cons_self

theorem Ends.right {a s : List Char} (h : Ends (a ++ s)) (ha : s ≠ []) : Ends s := by
  obtain ⟨b, hb⟩ := h
  obtain ⟨s', c, rfl⟩ := List.eq_nil_or_concat s |>.resolve_left ha
  rw [List.concat_eq_append, ← List.append_assoc] at hb
  exact ⟨s', by rw [List.concat_eq_append, (List.append_inj' hb rfl).2]⟩

theorem Ends.strip {p s r : List Char} (h : Ends s) (hr : strip p s = some r) (hp : '>' ∉ p) :
    Ends r := by
  rw [eq_of_strip hr] at h
  refine h.right fun hnil => hp ?_
  rw [hnil, List.append_nil] at h
  exact h.mem

theorem Ends.dropWhile {s : List Char} {p : Char → Bool} (h : Ends s) (hp : p '>' = false) :
    Ends (s.dropWhile p) := by
  have hne := List.ne_nil_of_mem (mem_dropWhile h.mem hp)
  rw [← List.takeWhile_append_dropWhile (p := p) (l := s)] at h
  exact h.right hne

/-- The first quote is not the end of a tag. -/
def QuoteSafe (y : List Char) : Prop := strip "\">".toList (y.dropWhile (· != '"')) = none

theorem strip_append_of_le {p s : List Char} (h : p.length ≤ s.length) (y : List Char) :
    strip p (s ++ y) = none ↔ strip p s = none := by
  rw [strip_eq_none, strip_eq_none]
  exact not_congr ⟨fun hp => List.prefix_of_prefix_length_le hp (List.prefix_append s y) h,
    fun hp => hp.trans (List.prefix_append s y)⟩

theorem tagEnd_append {s y : List Char} (hs : Ends s) (hy : QuoteSafe y) :
    tagEnd (s ++ y) = none ↔ tagEnd s = none := by
  have hpos : 1 ≤ s.length := List.length_pos_of_mem hs.mem
  have hblank : isBlank '>' = false := rfl
  rw [tagEnd, tagEnd]
  cases hclose : strip ['>'] s with
  | some r =>
    rw [eq_of_strip hclose, List.append_assoc, strip_append]
    exact iff_of_false nofun nofun
  | none =>
    rw [(strip_append_of_le (p := ['>']) hpos y).mpr hclose]
    simp only [takeWhile_append_of_mem hs.mem hblank, dropWhile_append_of_mem hs.mem hblank]
    split
    · rfl
    · rw [strip_append_of_mem (hs.dropWhile hblank).mem (by decide)]
      cases hname : strip "name=\"".toList (s.dropWhile isBlank) with
      | none => rfl
      | some s₁ =>
        have hs₁ := (hs.dropWhile hblank).strip hname (by decide)
        simp only [Option.map_some]
        by_cases hquote : '"' ∈ s₁
        · have hstop : ('"' != '"') = false := rfl
          rw [dropWhile_append_of_mem (p := (· != '"')) hquote hstop]
          refine strip_append_of_le ?_ y
          -- the quote is not the last rune
          have hends : Ends (s₁.dropWhile (· != '"')) := by
            rw [← List.takeWhile_append_dropWhile (p := (· != '"')) (l := s₁)] at hs₁
            exact hs₁.right (List.ne_nil_of_mem (mem_dropWhile hquote hstop))
          have hmem := @mem_dropWhile _ (· != '"') s₁ '"' hquote hstop
          obtain ⟨a, ha⟩ := hends
          rw [ha] at hmem ⊢
          have hmem' := (List.mem_append.mp hmem).resolve_right (by decide)
          have hlen := List.length_pos_of_mem hmem'
          rw [List.length_append]
          exact Nat.add_le_add_right hlen 1
        · have hall : ∀ c ∈ s₁, (c != '"') = true := fun c hc =>
            bne_iff_ne.mpr fun h => hquote (h ▸ hc)
          have hnil : s₁.dropWhile (· != '"') = [] := List.dropWhile_eq_nil_iff.mpr hall
          rw [List.dropWhile_append_of_pos hall, hnil]
          exact iff_of_true hy rfl

theorem qwenXMLTag_append {s y : List Char} (hs : Ends s) (hy : QuoteSafe y) :
    qwenXMLTag (s ++ y) = none ↔ qwenXMLTag s = none := by
  rw [qwenXMLTag, qwenXMLTag, strip_append_of_mem hs.mem (by decide)]
  cases hopen : strip ['<'] s with
  | none => rfl
  | some s₁ =>
    have hs₁ := hs.strip hopen (by decide)
    simp only [Option.map_some]
    have hslash : (strip ['/'] (s₁ ++ y)).getD (s₁ ++ y) = (strip ['/'] s₁).getD s₁ ++ y := by
      rw [strip_append_of_mem hs₁.mem (by decide)]
      cases strip ['/'] s₁ <;> rfl
    have hs₂ : Ends ((strip ['/'] s₁).getD s₁) := by
      cases hslash : strip ['/'] s₁ with
      | none => exact hs₁
      | some r => exact hs₁.strip hslash (by decide)
    rw [hslash]
    generalize (strip ['/'] s₁).getD s₁ = s₂ at hs₂ ⊢
    rw [strip_append_of_mem hs₂.mem (by decide), strip_append_of_mem hs₂.mem (by decide), ← Option.map_or]
    cases hname : (strip "function".toList s₂).or (strip "parameter".toList s₂) with
    | none => rfl
    | some s₃ =>
      have hs₃ : Ends s₃ := by
        rcases Option.or_eq_some_iff.mp hname with h | ⟨-, h⟩
        · exact hs₂.strip h (by decide)
        · exact hs₂.strip h (by decide)
      simp only [Option.map_some, Option.map_eq_none_iff]
      exact tagEnd_append hs₃ hy

/-! ## Reading what was escaped -/

/-- The text with a line feed at the end of each line, with `cr` after a carriage return. -/
def lineEnds : Bool → List Char → List Char
  | _, [] => []
  | cr, c :: s =>
    if c = '\r' then '\n' :: lineEnds true s
    else if c = '\n' ∧ cr = true then lineEnds false s
    else c :: lineEnds false s

theorem length_lineEnds_le (cr : Bool) (s : List Char) : (lineEnds cr s).length ≤ s.length := by
  induction s generalizing cr with
  | nil => rfl
  | cons c s ih =>
    rw [lineEnds]
    split
    · exact Nat.succ_le_succ (ih true)
    · split
      · exact (ih false).trans (Nat.le_succ _)
      · exact Nat.succ_le_succ (ih false)

theorem not_mem_lineEnds (cr : Bool) (s : List Char) : '\r' ∉ lineEnds cr s := by
  induction s generalizing cr with
  | nil => exact List.not_mem_nil
  | cons c s ih =>
    rw [lineEnds]
    split
    · exact List.not_mem_cons_of_ne_of_not_mem (by decide) (ih true)
    · rename_i hc
      split
      · exact ih false
      · exact List.not_mem_cons_of_ne_of_not_mem (Ne.symm hc) (ih false)

theorem lineEnds_append {a : List Char} (ha : '\r' ∉ a) (s : List Char) :
    lineEnds false (a ++ s) = a ++ lineEnds false s := by
  induction a with
  | nil => rfl
  | cons c a ih =>
    obtain ⟨hc, ha⟩ := not_or.mp (mt List.mem_cons.mpr ha)
    rw [List.cons_append, lineEnds, if_neg (Ne.symm hc), if_neg fun h => Bool.false_ne_true h.2, ih ha,
      List.cons_append]

theorem lineEnds_self {a : List Char} (ha : '\r' ∉ a) : lineEnds false a = a := by
  have h := lineEnds_append ha []
  rwa [List.append_nil, lineEnds, List.append_nil] at h

theorem unescapeFrom_eq (skip : Nat) (cr : Bool) (s : List Char) :
    unescapeFrom skip cr s = unescapeFrom 0 cr (s.drop skip) := by
  induction s generalizing skip with
  | nil => rw [List.drop_nil, unescapeFrom, unescapeFrom]
  | cons c s ih =>
    cases skip with
    | zero => rfl
    | succ skip => rw [unescapeFrom, ih, List.drop_succ_cons]

theorem unescapeFrom_reference {r : List Char × Char} (hr : r ∈ references) (cr : Bool)
    (s : List Char) :
    unescapeFrom 0 cr ('&' :: (r.1 ++ s)) = (unescapeFrom 0 false s).map (r.2 :: ·) := by
  have hfind : references.find? (fun q => q.1.isPrefixOf (r.1 ++ s)) = some r := by
    simp only [references, List.mem_cons, List.not_mem_nil, or_false] at hr
    rcases hr with rfl | rfl | rfl | rfl | rfl | rfl | rfl | rfl <;> rfl
  rw [unescapeFrom, if_pos rfl, hfind]
  simp only
  rw [unescapeFrom_eq, List.drop_left]

/-- What is read for a text that was escaped. -/
theorem unescapeFrom_text (cr : Bool) (s : List Char) :
    unescapeFrom 0 cr (s.flatMap escapeRune) =
      if s.all isInCharacterRange = true then some (lineEnds cr s) else none := by
  induction s generalizing cr with
  | nil => rfl
  | cons c s ih =>
    have hmap : ∀ d cr, (unescapeFrom 0 cr (s.flatMap escapeRune)).map (d :: ·) =
        if s.all isInCharacterRange = true then some (d :: lineEnds cr s) else none := by
      intro d cr
      rw [ih]
      split <;> rfl
    have hreference : ∀ r ∈ references, c = r.2 → escapeRune r.2 = '&' :: r.1 → r.2 ≠ '\r' →
        r.2 ≠ '\n' → isInCharacterRange r.2 = true → unescapeFrom 0 cr ((c :: s).flatMap escapeRune) =
          if (c :: s).all isInCharacterRange = true then some (lineEnds cr (c :: s)) else none := by
      rintro r hr rfl hescape hcr hlf hrange
      have hlf' : ¬(r.2 = '\n' ∧ cr = true) := fun h => hlf h.1
      rw [List.flatMap_cons, hescape, List.cons_append, unescapeFrom_reference hr, hmap, lineEnds,
        if_neg hcr, if_neg hlf']
      simp only [List.all_cons, hrange, Bool.true_and]
    by_cases hamp : c = '&'
    · exact hreference ("amp;".toList, '&') (by decide) hamp rfl (by decide) (by decide) (by decide)
    by_cases hlt : c = '<'
    · exact hreference ("lt;".toList, '<') (by decide) hlt rfl (by decide) (by decide) (by decide)
    by_cases hgt : c = '>'
    · exact hreference ("gt;".toList, '>') (by decide) hgt rfl (by decide) (by decide) (by decide)
    have hescape : escapeRune c = [c] := by
      rw [escapeRune, if_neg hamp, if_neg hlt, if_neg hgt]
    rw [List.flatMap_cons, hescape, List.singleton_append, unescapeFrom, if_neg hamp, lineEnds]
    simp only [List.all_cons]
    by_cases hcr : c = '\r'
    · have hrange : isInCharacterRange c = true := hcr ▸ by decide
      simp only [if_pos hcr, hmap, hrange, Bool.true_and]
    · rw [if_neg hcr, if_neg hcr]
      by_cases hlf : c = '\n' ∧ cr = true
      · have hrange : isInCharacterRange c = true := hlf.1 ▸ by decide
        simp only [if_pos hlf, ih, hrange, Bool.true_and]
      · rw [if_neg hlf, if_neg hlf]
        by_cases hrange : isInCharacterRange c = true
        · rw [if_pos hrange]
          simp only [hmap, hrange, Bool.true_and]
        · rw [if_neg hrange]
          simp only [Bool.eq_false_iff.mpr hrange, Bool.false_and, Bool.false_eq_true, if_false]

/-- What stands for a rune in an attribute. -/
def replaced (c : Char) : Char := if isInCharacterRange c = true then c else '\uFFFD'

theorem unescapeFrom_attr (cr : Bool) (s : List Char) :
    unescapeFrom 0 cr (s.flatMap escapeAttr) = some (s.map replaced) := by
  induction s generalizing cr with
  | nil => rfl
  | cons c s ih =>
    have hreference : ∀ r ∈ references, c = r.2 → escapeAttr r.2 = '&' :: r.1 → replaced r.2 = r.2 →
        unescapeFrom 0 cr ((c :: s).flatMap escapeAttr) = some ((c :: s).map replaced) := by
      rintro r hr rfl hescape hreplaced
      rw [List.flatMap_cons, hescape, List.cons_append, unescapeFrom_reference hr, ih, List.map_cons,
        hreplaced]
      rfl
    have hrune : ∀ d, escapeAttr c = [d] → replaced c = d → d ≠ '&' → d ≠ '\r' → d ≠ '\n' →
        isInCharacterRange d = true →
        unescapeFrom 0 cr ((c :: s).flatMap escapeAttr) = some ((c :: s).map replaced) := by
      intro d hescape hreplaced hamp hcr hlf hrange
      rw [List.flatMap_cons, hescape, List.singleton_append, unescapeFrom, if_neg hamp, if_neg hcr,
        if_neg fun h => hlf h.1, if_pos hrange, ih, List.map_cons, hreplaced]
      rfl
    by_cases hquot : c = '"'
    · exact hreference ("#34;".toList, '"') (by decide) hquot rfl rfl
    by_cases hapos : c = '\''
    · exact hreference ("#39;".toList, '\'') (by decide) hapos rfl rfl
    by_cases hamp : c = '&'
    · exact hreference ("amp;".toList, '&') (by decide) hamp rfl rfl
    by_cases hlt : c = '<'
    · exact hreference ("lt;".toList, '<') (by decide) hlt rfl rfl
    by_cases hgt : c = '>'
    · exact hreference ("gt;".toList, '>') (by decide) hgt rfl rfl
    by_cases htab : c = '\t'
    · exact hreference ("#x9;".toList, '\t') (by decide) htab rfl rfl
    by_cases hlf : c = '\n'
    · exact hreference ("#xA;".toList, '\n') (by decide) hlf rfl rfl
    by_cases hcr : c = '\r'
    · exact hreference ("#xD;".toList, '\r') (by decide) hcr rfl rfl
    have hescape : escapeAttr c = if isInCharacterRange c = true then [c] else ['\uFFFD'] := by
      rw [escapeAttr, if_neg hquot, if_neg hapos, if_neg hamp, if_neg hlt, if_neg hgt, if_neg htab,
        if_neg hlf, if_neg hcr]
    by_cases hrange : isInCharacterRange c = true
    · rw [if_pos hrange] at hescape
      exact hrune c hescape (if_pos hrange) hamp hcr hlf hrange
    · rw [if_neg hrange] at hescape
      exact hrune '\uFFFD' hescape (if_neg hrange) (by decide) (by decide) (by decide) (by decide)

theorem map_replaced {s : List Char} :
    s.map replaced = s ↔ ∀ c ∈ s, isInCharacterRange c = true := by
  have hone : ∀ c, replaced c = c ↔ isInCharacterRange c = true := by
    intro c
    rw [replaced]
    split
    · rename_i h
      exact iff_of_true rfl h
    · rename_i h
      exact iff_of_false (fun heq => h (heq ▸ by decide)) h
  induction s with
  | nil => exact iff_of_true rfl fun c hc => absurd hc List.not_mem_nil
  | cons c s ih =>
    rw [List.map_cons, List.cons.injEq, List.forall_mem_cons]
    exact and_congr (hone c) ih

/-! ## A value -/

theorem mem_closeParameter (s : List Char) : '>' ∈ s ++ closeParameter :=
  List.mem_append_right s (by decide)

theorem ends_closeParameter (s : List Char) : Ends (s ++ closeParameter) :=
  ⟨s ++ "</parameter".toList, by rw [List.append_assoc]; rfl⟩

/-- What comes after the closing tag does not decide about tags in the value. -/
theorem free_qwenTag {value : List Char} (y : List Char) :
    Free qwenTag value (closeParameter ++ y) ↔ Free qwenTag value closeParameter := by
  refine free_congr fun b _ _ => ?_
  rw [← List.append_assoc, qwenTag_append (mem_closeParameter b)]

theorem free_qwenXMLTag {value y : List Char} (hy : QuoteSafe y) :
    Free qwenXMLTag value (closeParameter ++ y) ↔ Free qwenXMLTag value closeParameter := by
  refine free_congr fun b _ _ => ?_
  rw [← List.append_assoc]
  exact qwenXMLTag_append (ends_closeParameter b) hy

theorem flatMap_singleton (s : List Char) : s.flatMap (fun c => [c]) = s := by
  rw [List.flatMap_singleton']

theorem replaceTags_free {a y : List Char} (h : Free qwenTag a y) :
    replaceTags (a ++ y) = a ++ replaceTags y := by
  rw [replaceTags, replaceAll_free h, flatMap_singleton, replaceTags]

theorem replaceTags_close {tag : List Char} (htag : tag = closeParameter ∨ tag = closeFunction)
    (y : List Char) : replaceTags (tag ++ y) = tag ++ replaceTags y := by
  have hclose : ∀ rest : List Char, '<' ∉ rest → rest.head? = some '/' →
      replaceTags ('<' :: rest ++ y) = '<' :: rest ++ replaceTags y := by
    intro rest hrest hslash
    refine replaceTags_free (free_cons.mpr ⟨?_, free_of_not_mem (fun c s hc => qwenTag_ne hc s) hrest y⟩)
    cases rest with
    | nil => cases hslash
    | cons c rest =>
      obtain rfl := Option.some.inj hslash
      have hword : ('/' :: (rest ++ y)).takeWhile isWord = [] := rfl
      rw [qwenTag, strip_cons_self]
      simp only [List.cons_append, hword, if_true]
  rcases htag with rfl | rfl
  · exact hclose "/parameter>".toList (by decide) rfl
  · exact hclose "/function>".toList (by decide) rfl

theorem escapeRune_ne (c : Char) : '<' ∉ escapeRune c := by
  rw [escapeRune]
  split
  · decide
  · split
    · decide
    · rename_i hlt
      split
      · decide
      · exact fun h => hlt (List.mem_singleton.mp h).symm

theorem escaped_ne (a : List Char) : ∀ c ∈ a.flatMap escapeRune, (c != '<') = true := by
  intro c hc
  obtain ⟨d, -, hd⟩ := List.mem_flatMap.mp hc
  exact bne_iff_ne.mpr fun h => escapeRune_ne d (h ▸ hd)

theorem length_le_of_tagEnd {s r : List Char} (h : tagEnd s = some r) : r.length ≤ s.length := by
  rw [tagEnd] at h
  split at h
  · rename_i hclose
    rw [← Option.some.inj h]
    exact length_le_of_strip hclose
  · split at h
    · exact absurd h nofun
    · split at h
      · exact absurd h nofun
      · rename_i s₁ hname
        have hle := length_le_of_strip h
        have hle' := length_le_of_strip hname
        have hsuffix := (List.dropWhile_suffix (l := s₁) (· != '"')).length_le
        have hsuffix' := (List.dropWhile_suffix (l := s) isBlank).length_le
        exact hle.trans (hsuffix.trans (hle'.trans hsuffix'))

/-- A tag that is left starts with a `<`. -/
theorem qwenXMLTag_starts {s out : List Char} {n : Nat} (h : qwenXMLTag s = some (out, n)) :
    s ≠ [] ∧ 0 < n ∧ out.head? = some '<' := by
  rw [qwenXMLTag] at h
  split at h
  · exact absurd h nofun
  · rename_i r hopen
    obtain rfl := eq_of_strip hopen
    have hslash : ((strip ['/'] r).getD r).length ≤ r.length := by
      cases hslash : strip ['/'] r with
      | none => exact le_rfl
      | some r' => exact length_le_of_strip hslash
    simp only at h
    split at h
    · exact absurd h nofun
    · rename_i r₁ hname
      have hle : r₁.length ≤ r.length := by
        rcases Option.or_eq_some_iff.mp hname with h | ⟨-, h⟩
        · exact (length_le_of_strip h).trans hslash
        · exact (length_le_of_strip h).trans hslash
      obtain ⟨r₂, hend, heq⟩ := Option.map_eq_some_iff.mp h
      have hle' := length_le_of_tagEnd hend
      obtain ⟨rfl, rfl⟩ := Prod.mk.inj heq
      have hlen : (['<'] ++ r).length - r₂.length = (r.length - r₂.length) + 1 := by
        rw [List.length_append, List.length_singleton]
        omega
      exact ⟨List.cons_ne_nil _ _, by omega, by rw [hlen]; rfl⟩

/-- The text that is read is the part before the first tag that is left. -/
theorem readText_escaped {u : List Char} {r : List Char × List Char}
    (h : readText (escapeTexts u) = some r) : ∃ a y, u = a ++ y ∧ Free qwenXMLTag a y ∧
      r.1 = lineEnds false a ∧ ∀ c ∈ a, isInCharacterRange c = true := by
  obtain ⟨a, y, rfl, hfree, hy⟩ := @exists_first _ _ qwenXMLTag u
  refine ⟨a, y, rfl, hfree, ?_⟩
  have htake : (escapeTexts (a ++ y)).takeWhile (· != '<') = a.flatMap escapeRune := by
    rw [escapeTexts, replaceAll_free hfree, List.takeWhile_append_of_pos (escaped_ne a)]
    rcases hy with rfl | ⟨q, hq⟩
    · exact List.append_nil _
    · obtain ⟨hne, hpos, hhead⟩ := qwenXMLTag_starts hq
      rw [replaceAll_found hq hne hpos]
      obtain ⟨rest, hrest⟩ : ∃ rest, q.1 = '<' :: rest := by
        cases hout : q.1 with
        | nil =>
          rw [hout] at hhead
          cases hhead
        | cons c rest =>
          rw [hout] at hhead
          exact ⟨rest, by rw [Option.some.inj hhead]⟩
      rw [hrest]
      exact List.append_nil _
  rw [readText] at h
  split at h
  · exact absurd h nofun
  · rw [htake, unescape, unescapeFrom_text] at h
    split at h
    · rename_i hrange
      rw [← Option.some.inj h]
      exact ⟨rfl, List.all_eq_true.mp hrange⟩
    · exact absurd h nofun

/-- What a tag of the model looks like, and what stands in its place. -/
theorem qwenTag_starts {s out : List Char} {n : Nat} (h : qwenTag s = some (out, n)) :
    ∃ tag rest value, s = '<' :: (tag ++ '=' :: rest) ∧ '<' ∉ tag ∧ out = openTag tag value ∧
      0 < n := by
  rw [qwenTag] at h
  split at h
  · exact absurd h nofun
  · rename_i r hopen
    simp only at h
    split at h
    · exact absurd h nofun
    · split at h
      · exact absurd h nofun
      · rename_i r' heq
        split at h
        · exact absurd h nofun
        · obtain ⟨rfl, rfl⟩ := Prod.mk.inj (Option.some.inj h)
          refine ⟨r.takeWhile isWord, r', _, ?_, fun hmem => ?_, rfl, Nat.succ_pos _⟩
          · have hr := List.takeWhile_append_dropWhile (p := isWord) (l := r)
            rw [eq_of_strip heq] at hr
            rw [eq_of_strip hopen]
            exact congrArg ('<' :: ·) hr.symm
          · exact absurd (List.mem_takeWhile_imp hmem) (by decide)

/-- What comes before the `=` lies before the `<`. -/
theorem exists_of_append {b z tag rest : List Char} (h : b ++ '<' :: z = tag ++ '=' :: rest)
    (htag : '<' ∉ tag) : ∃ k, b = tag ++ '=' :: k := by
  rcases List.append_eq_append_iff.mp h with ⟨d, hd, hrest⟩ | ⟨d, hd, hrest⟩
  · cases d with
    | nil => exact absurd (List.cons.inj hrest).1 (by decide)
    | cons c d =>
      obtain ⟨rfl, -⟩ := List.cons.inj hrest
      exact absurd (hd ▸ List.mem_append_right b List.mem_cons_self) htag
  · cases d with
    | nil => exact absurd (List.cons.inj hrest).1 (by decide)
    | cons c d =>
      obtain ⟨rfl, -⟩ := List.cons.inj hrest
      exact ⟨d, hd⟩

/-- No tag is rewritten in a value that is read as it was. -/
theorem free_of_read {value a x y : List Char} (hu : replaceTags (value ++ (closeParameter ++ x)) = a ++ y)
    (hvalue : value = lineEnds false a) : Free qwenTag value (closeParameter ++ x) := by
  by_contra hnot
  obtain ⟨before, b, ⟨out, n⟩, hsplit, hb, hfree, hfound⟩ := exists_of_not_free hnot
  obtain ⟨tag, rest, attr, hs, htag, rfl, hn⟩ := qwenTag_starts hfound
  obtain ⟨c, b, rfl⟩ := List.exists_cons_of_ne_nil hb
  obtain ⟨rfl, hs'⟩ := List.cons.inj hs
  obtain ⟨k, rfl⟩ := exists_of_append (b := b) (z := "/parameter>".toList ++ x) hs' htag
  have hcr : '\r' ∉ value := hvalue ▸ not_mem_lineEnds false a
  have hle := length_lineEnds_le false a
  rw [← hvalue] at hle
  -- the blank that is written comes before the end of the text
  obtain ⟨u, hwritten⟩ : ∃ u, replaceTags (value ++ (closeParameter ++ x)) =
      before ++ '<' :: tag ++ [' '] ++ u := by
    refine ⟨"name=\"".toList ++ attr.flatMap escapeAttr ++ "\">".toList ++ replaceAll qwenTag
      (fun c => [c]) (('<' :: (tag ++ '=' :: k) ++ (closeParameter ++ x)).drop n), ?_⟩
    rw [hsplit, List.append_assoc, replaceTags_free hfree, replaceTags,
      replaceAll_found hfound (List.cons_ne_nil _ _) hn, openTag]
    simp only [List.append_assoc, List.cons_append]
    rfl
  have hlen : (before ++ '<' :: tag ++ [' ']).length ≤ a.length := by
    refine le_trans ?_ hle
    rw [hsplit]
    simp only [List.length_append, List.length_cons, List.length_nil]
    omega
  obtain ⟨d, rfl⟩ : before ++ '<' :: tag ++ [' '] <+: a :=
    List.prefix_of_prefix_length_le ⟨u, (hwritten.symm.trans hu)⟩ (List.prefix_append a y) hlen
  have hfront : '\r' ∉ before ++ '<' :: tag ++ [' '] := by
    intro hmem
    rcases List.mem_append.mp hmem with hmem | hmem
    · refine hcr ?_
      rw [hsplit, ← List.cons_append, ← List.append_assoc]
      exact List.mem_append_left _ hmem
    · exact absurd hmem (by decide)
  rw [lineEnds_append hfront, hsplit] at hvalue
  have htail : before ++ '<' :: tag ++ ('=' :: k) = before ++ '<' :: tag ++ (' ' :: lineEnds false d) := by
    simpa only [List.append_assoc, List.cons_append, List.nil_append] using hvalue
  exact absurd (List.cons.inj (List.append_cancel_left htail)).1 (by decide)

/-- A value that is read as it was is plain. -/
theorem plainValue_of_read {value x s : List Char} (hx : QuoteSafe (replaceTags x))
    (h : readText (escapeTexts (replaceTags (value ++ (closeParameter ++ x)))) = some (value, s)) :
    PlainValue value := by
  obtain ⟨a, y, hu, hleft, hvalue, hrange⟩ := readText_escaped h
  replace hvalue : value = lineEnds false a := hvalue
  have hrewritten := free_of_read hu hvalue
  have hcr : '\r' ∉ value := hvalue ▸ not_mem_lineEnds false a
  have hle := length_lineEnds_le false a
  rw [← hvalue] at hle
  rw [replaceTags_free hrewritten, replaceTags_close (.inl rfl)] at hu
  obtain ⟨d, rfl⟩ : value <+: a :=
    List.prefix_of_prefix_length_le ⟨_, hu⟩ (List.prefix_append a y) hle
  rw [List.append_assoc] at hu
  have hrest := List.append_cancel_left hu
  -- the text ends where the closing tag begins
  obtain rfl : d = [] := by
    by_contra hd
    have hnone := hleft d (List.suffix_append value d) hd
    rw [← hrest, qwenXMLTag_close (.inl rfl)] at hnone
    exact absurd hnone nofun
  rw [List.append_nil] at hleft hrange
  rw [List.nil_append] at hrest
  rw [← hrest] at hleft
  exact ⟨(free_qwenTag x).mp hrewritten, (free_qwenXMLTag hx).mp hleft, hrange, hcr⟩

theorem escapeTexts_found {s tail : List Char} (h : qwenXMLTag (s ++ tail) = some (s, s.length))
    (hs : s ≠ []) : escapeTexts (s ++ tail) = s ++ escapeTexts tail := by
  rw [escapeTexts, replaceAll_found h (List.append_ne_nil_of_left_ne_nil hs tail)
    (List.length_pos_of_ne_nil hs), List.drop_left]
  rfl

theorem escapeTexts_plain {value x : List Char} (hvalue : PlainValue value)
    (hx : QuoteSafe (replaceTags x)) : escapeTexts (replaceTags (value ++ (closeParameter ++ x))) =
      value.flatMap escapeRune ++ (closeParameter ++ escapeTexts (replaceTags x)) := by
  rw [replaceTags_free ((free_qwenTag x).mpr hvalue.rewritten), replaceTags_close (.inl rfl),
    escapeTexts, replaceAll_free ((free_qwenXMLTag hx).mpr hvalue.left), ← escapeTexts,
    escapeTexts_found (qwenXMLTag_close (.inl rfl) _) (by decide)]

/-- A plain value is read as it was. -/
theorem readText_plain {value x : List Char} (hvalue : PlainValue value)
    (hx : QuoteSafe (replaceTags x)) :
    readText (escapeTexts (replaceTags (value ++ (closeParameter ++ x)))) =
      some (value, escapeTexts (replaceTags x)) := by
  have hwritten : escapeTexts (replaceTags (value ++ (closeParameter ++ x))) =
      value.flatMap escapeRune ++ '<' :: ("/parameter>".toList ++ escapeTexts (replaceTags x)) :=
    escapeTexts_plain hvalue hx
  have hstop : ('<' != '<') = false := rfl
  have hclose : strip closeParameter
      ('<' :: ("/parameter>".toList ++ escapeTexts (replaceTags x))) =
        some (escapeTexts (replaceTags x)) := strip_append closeParameter _
  rw [readText, hwritten, List.takeWhile_append_of_pos (escaped_ne value),
    List.dropWhile_append_of_pos (escaped_ne value), List.takeWhile_cons, List.dropWhile_cons, hstop]
  simp only [Bool.false_eq_true, if_false, hclose, List.append_nil]
  rw [unescape, unescapeFrom_text, if_pos (List.all_eq_true.mpr hvalue.inRange),
    lineEnds_self hvalue.lines, Option.map_some]

/-! ## A call -/

theorem gap_ne {g : Gap} {c : Char} (hc : c ∈ g.runes) :
    isXMLSpace c = true ∧ c ≠ '<' ∧ c ≠ '"' ∧ escapeRune c = [c] := by
  rcases g.blank c hc with rfl | rfl | rfl | rfl <;> decide

theorem gap_free (g : Gap) {found : List Char → Option (List Char × Nat)}
    (hne : ∀ c s, c ≠ '<' → found (c :: s) = none) (y : List Char) : Free found g.runes y :=
  free_of_not_mem hne (fun h => (gap_ne h).2.1 rfl) y

theorem replaceTags_gap (g : Gap) (y : List Char) :
    replaceTags (g.runes ++ y) = g.runes ++ replaceTags y :=
  replaceTags_free (gap_free g (fun _ s hc => qwenTag_ne hc s) y)

theorem escapeTexts_gap (g : Gap) (y : List Char) :
    escapeTexts (g.runes ++ y) = g.runes ++ escapeTexts y := by
  have hsame : g.runes.flatMap escapeRune = g.runes := by
    conv_rhs => rw [← flatMap_singleton g.runes]
    exact List.flatMap_congr fun c hc => (gap_ne hc).2.2.2
  rw [escapeTexts, replaceAll_free (gap_free g (fun _ s hc => qwenXMLTag_ne hc s) y), hsame, escapeTexts]

theorem dropWhile_gap (g : Gap) (y : List Char) :
    (g.runes ++ '<' :: y).dropWhile isXMLSpace = '<' :: y := by
  have hstop : isXMLSpace '<' = false := rfl
  rw [List.dropWhile_append_of_pos fun c hc => (gap_ne hc).1, List.dropWhile_cons, hstop]
  rfl

/-- A tag of the model, with what comes after it. -/
theorem replaceTags_tag {tag : List Char} (htag : ∀ c ∈ tag, isWord c = true) (hne : tag ≠ [])
    (n : Name) (s : List Char) : replaceTags ('<' :: (tag ++ '=' :: (n.runes ++ '>' :: s))) =
      openTag tag n.runes ++ replaceTags s := by
  have hdrop : ('<' :: (tag ++ '=' :: (n.runes ++ '>' :: s))).drop
      (tag.length + n.runes.length + 3) = s := by
    have hsplit : '<' :: (tag ++ '=' :: (n.runes ++ '>' :: s)) =
        ('<' :: (tag ++ '=' :: (n.runes ++ ['>']))) ++ s := by
      simp only [List.cons_append, List.append_assoc, List.nil_append]
    rw [hsplit]
    refine List.drop_left' ?_
    simp only [List.length_cons, List.length_append, List.length_nil]
    omega
  rw [replaceTags, replaceAll_found (qwenTag_tag htag hne n s) (List.cons_ne_nil _ _) (Nat.succ_pos _),
    hdrop, replaceTags]

theorem rawParams_cons (trail : Gap) (p : Parameter) (ps : List Parameter) :
    rawParams trail (p :: ps) = '<' :: ("parameter".toList ++ '=' :: (p.name.runes ++ '>' ::
      (p.value ++ (closeParameter ++ (p.gap.runes ++ rawParams trail ps))))) := by
  have hopen : ∀ name rest : List Char, "<parameter=".toList ++ (name ++ (">".toList ++ rest)) =
      '<' :: ("parameter".toList ++ '=' :: (name ++ '>' :: rest)) := fun _ _ => rfl
  have hraw : p.raw = "<parameter=".toList ++ p.name.runes ++ ">".toList ++ p.value ++
      closeParameter ++ p.gap.runes := rfl
  rw [rawParams, hraw]
  simp only [List.append_assoc]
  exact hopen _ _

theorem replaceTags_nil (trail : Gap) :
    replaceTags (rawParams trail []) = closeFunction ++ trail.runes := by
  have h := replaceTags_gap trail []
  rw [List.append_nil] at h
  rw [rawParams, replaceTags_close (.inr rfl), h, replaceTags, replaceAll_nil, List.append_nil]

theorem replaceTags_cons (trail : Gap) (p : Parameter) (ps : List Parameter) :
    replaceTags (rawParams trail (p :: ps)) = openTag "parameter".toList p.name.runes ++
      replaceTags (p.value ++ (closeParameter ++ (p.gap.runes ++ rawParams trail ps))) := by
  rw [rawParams_cons, replaceTags_tag (List.all_eq_true.mp (by decide)) (by decide)]

theorem escapeAttr_head (c : Char) : ∃ d s, escapeAttr c = d :: s ∧ d ≠ '>' := by
  by_cases hgt : c = '>'
  · exact ⟨'&', "gt;".toList, by rw [hgt]; rfl, by decide⟩
  · rw [escapeAttr, if_neg hgt]
    repeat' split
    all_goals first | exact ⟨_, _, rfl, by decide⟩ | skip
    exact ⟨c, [], rfl, hgt⟩

/-- The quotes that come after a value are those of attributes. -/
theorem quoteSafe_rest (g trail : Gap) (ps : List Parameter) :
    QuoteSafe (replaceTags (g.runes ++ rawParams trail ps)) := by
  rw [replaceTags_gap, QuoteSafe]
  cases ps with
  | nil =>
    have hnone : ∀ c ∈ g.runes ++ replaceTags (rawParams trail []), (c != '"') = true := by
      rw [replaceTags_nil]
      intro c hc
      refine bne_iff_ne.mpr ?_
      rcases List.mem_append.mp hc with hc | hc
      · exact (gap_ne hc).2.2.1
      · rcases List.mem_append.mp hc with hc | hc
        · rintro rfl
          exact absurd hc (by decide)
        · exact (gap_ne hc).2.2.1
    rw [List.dropWhile_eq_nil_iff.mpr hnone]
    rfl
  | cons p ps =>
    obtain ⟨r, rs, hname⟩ := List.exists_cons_of_ne_nil p.name.ne_nil
    obtain ⟨d, s, hd, hne⟩ := escapeAttr_head r
    obtain ⟨tail, htail⟩ : ∃ tail, g.runes ++ replaceTags (rawParams trail (p :: ps)) =
        (g.runes ++ "<parameter name=".toList) ++ '"' :: (d :: tail) := by
      refine ⟨s ++ (rs.flatMap escapeAttr ++ ("\">".toList ++ replaceTags
        (p.value ++ (closeParameter ++ (p.gap.runes ++ rawParams trail ps))))), ?_⟩
      rw [replaceTags_cons, openTag, hname, List.flatMap_cons, hd]
      simp only [List.append_assoc, List.cons_append]
      rfl
    have hquote : '"' ∉ g.runes ++ "<parameter name=".toList := by
      intro hmem
      rcases List.mem_append.mp hmem with hmem | hmem
      · exact (gap_ne hmem).2.2.1 rfl
      · exact absurd hmem (by decide)
    rw [htail, (takeWhile_ne hquote (d :: tail)).2, strip_eq_none]
    intro hprefix
    exact hne (List.cons_prefix_cons.mp (List.cons_prefix_cons.mp hprefix).2).1.symm

theorem readAttr_escaped (n s : List Char) :
    readAttr (n.flatMap escapeAttr ++ ("\">".toList ++ s)) = some (n.map replaced, s) := by
  obtain ⟨htake, hdrop⟩ := takeWhile_ne (quote_not_mem n) ('>' :: s)
  have hclose : strip "\">".toList ('"' :: '>' :: s) = some s := strip_append "\">".toList s
  rw [readAttr, show n.flatMap escapeAttr ++ ("\">".toList ++ s) =
    n.flatMap escapeAttr ++ '"' :: '>' :: s from rfl, htake, hdrop, hclose]
  simp only
  rw [unescape, unescapeFrom_attr, Option.map_some]

/-- The text of a parameter that is left to read. -/
theorem escapeTexts_tag {tag : List Char} (htag : tag = "function".toList ∨ tag = "parameter".toList)
    (n s : List Char) : escapeTexts (openTag tag n ++ s) = openTag tag n ++ escapeTexts s :=
  escapeTexts_found (qwenXMLTag_open htag n s) (List.cons_ne_nil _ _)

theorem readParams_nil (fuel : Nat) (g trail : Gap) :
    readParams (fuel + 1) (escapeTexts (replaceTags (g.runes ++ rawParams trail []))) = some [] := by
  have h := escapeTexts_gap trail []
  rw [List.append_nil] at h
  have hread : escapeTexts (replaceTags (g.runes ++ rawParams trail [])) =
      g.runes ++ '<' :: ("/function>".toList ++ trail.runes) := by
    rw [replaceTags_gap, escapeTexts_gap, replaceTags_nil,
      escapeTexts_found (qwenXMLTag_close (.inr rfl) _) (by decide), h, escapeTexts, replaceAll_nil,
      List.append_nil]
    rfl
  have hclose : strip closeFunction ('<' :: ("/function>".toList ++ trail.runes)) =
      some trail.runes := strip_append closeFunction trail.runes
  rw [readParams, hread, dropWhile_gap]
  simp only [hclose]
  exact if_pos (List.all_eq_true.mpr fun c hc => (gap_ne hc).1)

theorem readParams_cons (fuel : Nat) (g trail : Gap) (p : Parameter) (ps : List Parameter) :
    readParams (fuel + 1) (escapeTexts (replaceTags (g.runes ++ rawParams trail (p :: ps)))) =
      (readText (escapeTexts (replaceTags
        (p.value ++ (closeParameter ++ (p.gap.runes ++ rawParams trail ps)))))).bind fun value =>
        (readParams fuel value.2).map ((p.name.runes.map replaced, value.1) :: ·) := by
  rw [replaceTags_gap, escapeTexts_gap, replaceTags_cons, escapeTexts_tag (.inr rfl)]
  generalize escapeTexts (replaceTags
    (p.value ++ (closeParameter ++ (p.gap.runes ++ rawParams trail ps)))) = rest
  have hopen : openTag "parameter".toList p.name.runes ++ rest = '<' :: ("parameter name=\"".toList ++
      (p.name.runes.flatMap escapeAttr ++ ("\">".toList ++ rest))) := by
    rw [openTag]
    simp only [List.append_assoc, List.cons_append]
    rfl
  have hclose : strip closeFunction ('<' :: ("parameter name=\"".toList ++
      (p.name.runes.flatMap escapeAttr ++ ("\">".toList ++ rest)))) = none :=
    strip_eq_none.mpr fun h =>
      absurd (List.cons_prefix_cons.mp (List.cons_prefix_cons.mp h).2).1 (by decide)
  have hname : strip "<parameter name=\"".toList ('<' :: ("parameter name=\"".toList ++
      (p.name.runes.flatMap escapeAttr ++ ("\">".toList ++ rest)))) =
        some (p.name.runes.flatMap escapeAttr ++ ("\">".toList ++ rest)) :=
    strip_append "<parameter name=\"".toList _
  rw [readParams, hopen, dropWhile_gap]
  simp only [hclose, hname, readAttr_escaped, Option.bind_some]

/-- Parameters that are read as they were are plain. -/
theorem plain_of_readParams {fuel : Nat} {g trail : Gap} {ps : List Parameter}
    (h : readParams fuel (escapeTexts (replaceTags (g.runes ++ rawParams trail ps))) =
      some (ps.map fun p => (p.name.runes, p.value))) :
    ∀ p ∈ ps, (∀ r ∈ p.name.runes, isInCharacterRange r = true) ∧ PlainValue p.value := by
  induction ps generalizing fuel g with
  | nil => exact fun p hp => absurd hp List.not_mem_nil
  | cons p ps ih =>
    cases fuel with
    | zero => exact absurd h nofun
    | succ fuel =>
      rw [readParams_cons, List.map_cons] at h
      obtain ⟨⟨value, rest⟩, hread, hmap⟩ := Option.bind_eq_some_iff.mp h
      obtain ⟨others, hothers, hcons⟩ := Option.map_eq_some_iff.mp hmap
      obtain ⟨hpair, rfl⟩ := List.cons.inj hcons
      obtain ⟨hname, rfl⟩ := Prod.mk.inj hpair
      have hsafe := quoteSafe_rest p.gap trail ps
      have hvalue := plainValue_of_read hsafe hread
      rw [readText_plain hvalue hsafe] at hread
      obtain ⟨-, rfl⟩ := Prod.mk.inj (Option.some.inj hread)
      exact List.forall_mem_cons.mpr ⟨⟨map_replaced.mp hname, hvalue⟩, ih hothers⟩

/-- Plain parameters are read as they were. -/
theorem readParams_plain {fuel : Nat} {g trail : Gap} {ps : List Parameter}
    (h : ∀ p ∈ ps, (∀ r ∈ p.name.runes, isInCharacterRange r = true) ∧ PlainValue p.value)
    (hfuel : ps.length < fuel) :
    readParams fuel (escapeTexts (replaceTags (g.runes ++ rawParams trail ps))) =
      some (ps.map fun p => (p.name.runes, p.value)) := by
  induction ps generalizing fuel g with
  | nil =>
    obtain ⟨fuel, rfl⟩ := Nat.exists_eq_succ_of_ne_zero hfuel.ne_bot
    exact readParams_nil fuel g trail
  | cons p ps ih =>
    obtain ⟨fuel, rfl⟩ := Nat.exists_eq_succ_of_ne_zero hfuel.ne_bot
    obtain ⟨⟨hname, hvalue⟩, hps⟩ := List.forall_mem_cons.mp h
    rw [readParams_cons, readText_plain hvalue (quoteSafe_rest p.gap trail ps), Option.bind_some,
      ih hps (Nat.lt_of_succ_lt_succ hfuel), Option.map_some, map_replaced.mpr hname, List.map_cons]

theorem length_plain {g trail : Gap} {ps : List Parameter} (h : ∀ p ∈ ps, PlainValue p.value) :
    ps.length < (escapeTexts (replaceTags (g.runes ++ rawParams trail ps))).length := by
  rw [replaceTags_gap, escapeTexts_gap, List.length_append]
  induction ps generalizing g with
  | nil =>
    rw [replaceTags_nil, escapeTexts_found (qwenXMLTag_close (.inr rfl) _) (by decide),
      List.length_append]
    have hpos : 0 < closeFunction.length := by decide
    exact Nat.lt_of_lt_of_le hpos ((Nat.le_add_right _ _).trans (Nat.le_add_left _ _))
  | cons p ps ih =>
    obtain ⟨hvalue, hps⟩ := List.forall_mem_cons.mp h
    have hlt := ih (g := p.gap) hps
    have hpos : 0 < closeParameter.length := by decide
    rw [replaceTags_cons, escapeTexts_tag (.inr rfl),
      escapeTexts_plain hvalue (quoteSafe_rest p.gap trail ps), replaceTags_gap, escapeTexts_gap]
    simp only [List.length_append, List.length_cons]
    omega

/-- The names and values of a call come out just when it is plain. -/
theorem transformToXML_iff (c : Call) :
    readXML (transformToXML c.raw) = some c.contents ↔ PlainCall c := by
  have hraw : c.raw = c.lead.runes ++ ('<' :: ("function".toList ++ '=' :: (c.name.runes ++ '>' ::
      (c.gap.runes ++ rawParams c.trail c.params)))) := by
    have hopen : ∀ name rest : List Char, "<function=".toList ++ (name ++ (">".toList ++ rest)) =
        '<' :: ("function".toList ++ '=' :: (name ++ '>' :: rest)) := fun _ _ => rfl
    have hraw : c.raw = c.lead.runes ++ "<function=".toList ++ c.name.runes ++ ">".toList ++
        c.gap.runes ++ rawParams c.trail c.params := rfl
    rw [hraw]
    simp only [List.append_assoc]
    exact congrArg (c.lead.runes ++ ·) (hopen _ _)
  have hread : readXML (transformToXML c.raw) =
      (readParams (escapeTexts (replaceTags (c.gap.runes ++ rawParams c.trail c.params))).length
        (escapeTexts (replaceTags (c.gap.runes ++ rawParams c.trail c.params)))).map
          (c.name.runes.map replaced, ·) := by
    rw [transformToXML, hraw, replaceTags_gap, escapeTexts_gap,
      replaceTags_tag (List.all_eq_true.mp (by decide)) (by decide), escapeTexts_tag (.inl rfl)]
    generalize escapeTexts (replaceTags (c.gap.runes ++ rawParams c.trail c.params)) = rest
    have hopen : openTag "function".toList c.name.runes ++ rest = '<' :: ("function name=\"".toList ++
        (c.name.runes.flatMap escapeAttr ++ ("\">".toList ++ rest))) := by
      rw [openTag]
      simp only [List.append_assoc, List.cons_append]
      rfl
    have hname : strip "<function name=\"".toList ('<' :: ("function name=\"".toList ++
        (c.name.runes.flatMap escapeAttr ++ ("\">".toList ++ rest)))) =
          some (c.name.runes.flatMap escapeAttr ++ ("\">".toList ++ rest)) :=
      strip_append "<function name=\"".toList _
    rw [readXML, hopen, dropWhile_gap, hname]
    simp only [readAttr_escaped, Option.bind_some]
  rw [hread]
  constructor
  · intro h
    obtain ⟨params, hparams, hpair⟩ := Option.map_eq_some_iff.mp h
    obtain ⟨hname, rfl⟩ := Prod.mk.inj hpair
    have hplain := plain_of_readParams hparams
    exact ⟨map_replaced.mp hname, fun p hp => (hplain p hp).1, fun p hp => (hplain p hp).2⟩
  · intro h
    rw [readParams_plain (fun p hp => ⟨h.names p hp, h.values p hp⟩) (length_plain h.values),
      Option.map_some, map_replaced.mpr h.name, Call.contents]

def noGap : Gap := ⟨[], List.forall_mem_nil _⟩

def newline : Gap := ⟨['\n'], List.forall_mem_singleton.mpr (.inr (.inr (.inl rfl)))⟩

/-- A value with a tag in it is rewritten. -/
theorem not_transformToXML :
    ¬∀ c : Call, readXML (transformToXML c.raw) = some c.contents := by
  intro h
  have hcall := h ⟨noGap, ⟨"f".toList, by decide, by decide⟩, newline,
    [⟨⟨"x".toList, by decide, by decide⟩, "\n<color=red>hot</color>\n".toList, newline⟩], noGap⟩
  exact absurd hcall (by decide)

end Prismalama.Parsers.Qwen3CoderXml
