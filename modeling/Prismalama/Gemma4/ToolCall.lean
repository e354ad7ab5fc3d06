import Prismalama.Lib.Json
import Prismalama.Lib.TagStream

/-!
# Tool calls of Gemma 4 (`model/renderers/gemma4.go`, `model/parsers/gemma4.go`)

`formatToolCall` writes keys without quotes and strings between delimiters. The parser puts a
numbered placeholder for every string, quotes the keys, and puts the strings back as JSON
(`gemma4ArgsToJSON`). Where that is not valid JSON it tries a few repairs. Texts are lists of
runes, so that positions are counted in runes.
-/

namespace Prismalama.Gemma4

open Prismalama.Lib

/-- `gemma4StringDelimiter` -/
def delimiter : List Char := ['<', '|', '"', '|', '>']

def toolCallOpenTag : List Char := "<|tool_call>".toList

def toolCallCloseTag : List Char := "<tool_call|>".toList

/-- `r == '_' || unicode.IsLetter(r) || unicode.IsDigit(r)`, of which the ASCII part is known and
that none is a space. -/
structure Letters where
  isKeyRune : Char → Bool
  ascii : ∀ c : Char, c.toNat < 128 → isKeyRune c =
    (c == '_' || ('a' ≤ c && c ≤ 'z') || ('A' ≤ c && c ≤ 'Z') || isDigit c)
  not_space : ∀ c : Char, isKeyRune c = true → isSpace c = false

/-- How `fmt` prints a number and `strconv.ParseFloat` reads it. -/
structure Numbers (N : Type) where
  print : N → List Char
  read : List Char → Option N
  isNumber_print : ∀ n, isNumber (print n) = true
  read_print : ∀ n, read (print n) = some n

variable {N : Type}

/-! ## The renderer -/

section

variable (numbers : Numbers N)

mutual

def formatArgValue : Value N → List Char
  | .null => "<nil>".toList
  | .bool b => if b then "true".toList else "false".toList
  | .num n => numbers.print n
  | .str s => delimiter ++ s ++ delimiter
  | .arr vs => '[' :: formatItems true vs ++ [']']
  | .obj fs => '{' :: formatEntries true fs ++ ['}']

/-- The loop of `formatArrayValue`. -/
def formatItems (first : Bool) : Values N → List Char
  | .nil => []
  | .cons v vs => (if first then [] else [',']) ++ formatArgValue v ++ formatItems false vs

/-- The loop of `formatMapValue` and of `formatToolCall`, over the sorted keys. -/
def formatEntries (first : Bool) : Fields N → List Char
  | .nil => []
  | .cons k v fs =>
    (if first then [] else [',']) ++ k ++ ':' :: formatArgValue v ++ formatEntries false fs

end

def formatArgs (args : Fields N) : List Char := '{' :: formatEntries numbers true args ++ ['}']

/-- What stands between the tags. -/
def callText (name : List Char) (args : Fields N) : List Char :=
  "call:".toList ++ name ++ formatArgs numbers args

def formatToolCall (name : List Char) (args : Fields N) : List Char :=
  toolCallOpenTag ++ callText numbers name args ++ toolCallCloseTag

end

/-! ## Strings and placeholders -/

theorem delimiter_ne : delimiter ≠ [] := by decide

def placeholder (i : Nat) : List Char := ['\x00', runeOf i, '\x00']

/-- `gemma4QuotedStringRe.ReplaceAllStringFunc`: the text with placeholders from `i` on, and the
strings. -/
def replaceQuoted (i : Nat) (s : List Char) : List Char × List (List Char) :=
  match hbehind : cut delimiter s with
  | none => (s, [])
  | some (before, behind) =>
    match hrest : cut delimiter behind with
    | none => (s, [])
    | some (value, rest) =>
      let (text, values) := replaceQuoted (i + 1) rest
      (before ++ placeholder i ++ text, value :: values)
termination_by s.length
decreasing_by
  have := length_of_cut delimiter_ne hbehind
  have := length_of_cut delimiter_ne hrest
  omega

/-- `strings.ReplaceAll`, with `skip` runes of a match still to come. -/
def replaceAllFrom (old new : List Char) : Nat → List Char → List Char
  | _, [] => []
  | skip + 1, _ :: s => replaceAllFrom old new skip s
  | 0, c :: s =>
    if old <+: c :: s then new ++ replaceAllFrom old new (old.length - 1) s
    else c :: replaceAllFrom old new 0 s

def replaceAll (s old new : List Char) : List Char := replaceAllFrom old new 0 s

/-- The loop that puts the strings back, from the `i`-th on. -/
def putBack (text : List Char) (i : Nat) : List (List Char) → List Char
  | [] => text
  | value :: values => putBack (replaceAll text (placeholder i) (jsonString value)) (i + 1) values

/-! ## Bare keys -/

/-- Up to a quote without a backslash in front, and behind it. -/
def quotedEnd (quote : Char) (escaped : Bool) : List Char → Option (List Char × List Char)
  | [] => none
  | c :: s =>
    if c = quote ∧ escaped = false then some ([], s)
    else (quotedEnd quote (c == '\\' && !escaped) s).map fun p => (c :: p.1, p.2)

theorem eq_of_quotedEnd {quote : Char} {escaped : Bool} {s q r : List Char}
    (h : quotedEnd quote escaped s = some (q, r)) : s = q ++ quote :: r := by
  induction s generalizing escaped q with
  | nil => cases h
  | cons c s ih =>
    rw [quotedEnd] at h
    split at h
    · rename_i hc
      obtain ⟨rfl, rfl⟩ := Prod.mk.inj (Option.some.inj h)
      rw [hc.1, List.nil_append]
    · obtain ⟨⟨q', r'⟩, hrest, heq⟩ := Option.map_eq_some_iff.mp h
      obtain ⟨rfl, rfl⟩ := Prod.mk.inj heq
      rw [ih hrest, List.cons_append]

theorem length_of_quotedEnd {quote : Char} {escaped : Bool} {s q r : List Char}
    (h : quotedEnd quote escaped s = some (q, r)) : r.length < s.length := by
  rw [eq_of_quotedEnd h, List.length_append, List.length_cons]
  omega

variable (letters : Letters)

theorem length_dropWhile_le (p : Char → Bool) (s : List Char) : (s.dropWhile p).length ≤ s.length :=
  (List.dropWhile_suffix p).length_le

def quoteGemma4BareKeys (s : List Char) : List Char :=
  match s with
  | [] => []
  | c :: s =>
    if c = '"' then
      match hrest : quotedEnd '"' false s with
      | some (quoted, rest) => c :: quoted ++ '"' :: quoteGemma4BareKeys rest
      | none => c :: quoteGemma4BareKeys s
    else if c ≠ '{' ∧ c ≠ ',' then c :: quoteGemma4BareKeys s
    else
      let text := trimLeft s
      let key := text.takeWhile letters.isKeyRune
      let behind := text.dropWhile letters.isKeyRune
      if key ≠ [] ∧ behind.head? = some ':' then
        c :: leading s ++ '"' :: key ++ '"' :: ':' :: quoteGemma4BareKeys behind.tail
      else c :: leading s ++ quoteGemma4BareKeys text
termination_by s.length
decreasing_by
  · have := length_of_quotedEnd hrest
    simp only [List.length_cons]
    omega
  · simp
  · simp
  · have htext := length_dropWhile_le isSpace s
    have hbehind := length_dropWhile_le letters.isKeyRune (s.dropWhile isSpace)
    show ((trimLeft s).dropWhile letters.isKeyRune).tail.length < (c :: s).length
    rw [List.length_tail, List.length_cons, trimLeft]
    omega
  · have htext := length_dropWhile_le isSpace s
    show (trimLeft s).length < (c :: s).length
    rw [List.length_cons, trimLeft]
    omega

def gemma4ArgsToJSON (s : List Char) : List Char :=
  let (text, values) := replaceQuoted 0 s
  putBack (quoteGemma4BareKeys letters text) 0 values

/-- `json.Unmarshal` into the arguments of a call -/
def unmarshalArgs (read : List Char → Option N) (s : List Char) : Option (Fields N) :=
  match unmarshal read s with
  | some (.obj args) => some args
  | _ => none

/-! ## Repairs -/

inductive ToolProperty
  | mk (type : List (List Char)) (anyOf : List ToolProperty)

/-- What is read of an `api.Tool`; `none` where it has no properties. -/
structure Tool where
  name : List Char
  properties : Option (List (List Char × ToolProperty))

/-- `strings.EqualFold` with "string" -/
def isStringType (s : List Char) : Bool :=
  s.map (fun c => if c = '\u017F' then 's' else c.toLower) = "string".toList

mutual

/-- `gemma4PropertyAcceptsString` -/
def ToolProperty.acceptsString : ToolProperty → Bool
  | .mk type anyOf => type.any isStringType || anyAcceptsString anyOf

def anyAcceptsString : List ToolProperty → Bool
  | [] => false
  | p :: ps => p.acceptsString || anyAcceptsString ps

end

/-- `gemma4ToolProperties` -/
def toolProperties (toolName : List Char) (tools : List Tool) :
    Option (List (List Char × ToolProperty)) :=
  (tools.find? (·.name = toolName)).bind (·.properties)

/-- `strings.Count` of the delimiter, with `skip` runes of a match still to come. -/
def countDelimiters : Nat → List Char → Nat
  | _, [] => 0
  | skip + 1, _ :: s => countDelimiters skip s
  | 0, c :: s =>
    if delimiter <+: c :: s then countDelimiters (delimiter.length - 1) s + 1
    else countDelimiters 0 s

/-- `repairGemma4MissingStringDelimiter` -/
def repairMissingStringDelimiter (s : List Char) : List Char :=
  if countDelimiters 0 s % 2 = 0 then s
  else
    let text := trimRight s
    let blanks := s.drop text.length
    if text.getLast? = some '}' ∨ text.getLast? = some ']' then
      text.dropLast ++ delimiter ++ text.drop (text.length - 1) ++ blanks
    else text ++ delimiter ++ blanks

/-- `repairGemma4MissingObjectClose` -/
def repairMissingObjectClose (s : List Char) : List Char :=
  let text := trimRight s
  if (trimLeft s).head? ≠ some '{' then s
  else if text.getLast? = some '}' then s
  else text ++ '}' :: s.drop text.length

/-- `repairGemma4SingleQuotedValues` -/
def repairSingleQuotedValues (s : List Char) : List Char :=
  match s with
  | [] => []
  | c :: s =>
    if delimiter <+: c :: s then
      match hrest : cut delimiter ((c :: s).drop delimiter.length) with
      | none => c :: s
      | some (value, rest) =>
        delimiter ++ value ++ delimiter ++ repairSingleQuotedValues rest
    else if c = '"' then
      match hrest : quotedEnd '"' false s with
      | some (quoted, rest) => c :: quoted ++ '"' :: repairSingleQuotedValues rest
      | none => c :: repairSingleQuotedValues s
    else if c ≠ ':' then c :: repairSingleQuotedValues s
    else
      let text := trimLeft s
      if text.head? ≠ some '\'' then c :: leading s ++ repairSingleQuotedValues text
      else
        match hrest : quotedEnd '\'' false text.tail with
        | none => c :: leading s ++ repairSingleQuotedValues text
        | some (value, rest) =>
          c :: leading s ++ delimiter ++ value ++ delimiter ++
            -- a delimiter behind the value is dropped
            repairSingleQuotedValues
              (if delimiter <+: rest then rest.drop delimiter.length else rest)
termination_by s.length
decreasing_by
  · have hcut := length_of_cut delimiter_ne hrest
    rw [List.length_drop] at hcut
    omega
  · have := length_of_quotedEnd hrest
    simp only [List.length_cons]
    omega
  · simp
  · simp
  · have := length_dropWhile_le isSpace s
    show (trimLeft s).length < (c :: s).length
    rw [List.length_cons, trimLeft]
    omega
  · have := length_dropWhile_le isSpace s
    show (trimLeft s).length < (c :: s).length
    rw [List.length_cons, trimLeft]
    omega
  · have hquoted := length_of_quotedEnd hrest
    have htext := length_dropWhile_le isSpace s
    have hsame : text = s.dropWhile isSpace := rfl
    rw [List.length_tail, hsame] at hquoted
    split
    · rw [List.length_drop, List.length_cons]
      omega
    · rw [List.length_cons]
      omega

/-- `gemma4ValueStartsStructured`, where a value starts -/
def startsStructured (s : List Char) : Bool :=
  match s with
  | [] => false
  | c :: _ =>
    delimiter <+: s || c ∈ ['\'', '"', '{', '[', '-', 't', 'f', 'n'] || isDigit c

/-- `gemma4FindValueStartForKey`: the text up to the colon behind the key, and what is behind. -/
def findValueStart (key : List Char) (s : List Char) : Option (List Char × List Char) :=
  match s with
  | [] => none
  | c :: s =>
    if delimiter <+: c :: s then
      match hrest : cut delimiter ((c :: s).drop delimiter.length) with
      | none => none
      | some (value, rest) =>
        (findValueStart key rest).map fun p => (delimiter ++ value ++ delimiter ++ p.1, p.2)
    else if c = '"' then
      match hrest : quotedEnd '"' false s with
      | some (quoted, rest) =>
        (findValueStart key rest).map fun p => (c :: quoted ++ '"' :: p.1, p.2)
      | none => (findValueStart key s).map fun p => (c :: p.1, p.2)
    else if c ≠ '{' ∧ c ≠ ',' then (findValueStart key s).map fun p => (c :: p.1, p.2)
    else
      let text := trimLeft s
      let behind := text.drop key.length
      if key <+: text ∧ (trimLeft behind).head? = some ':' then
        some (c :: leading s ++ key ++ leading behind ++ [':'], (trimLeft behind).tail)
      else (findValueStart key s).map fun p => (c :: p.1, p.2)
termination_by s.length
decreasing_by
  · have hcut := length_of_cut delimiter_ne hrest
    rw [List.length_drop] at hcut
    omega
  · have := length_of_quotedEnd hrest
    simp only [List.length_cons]
    omega
  · simp
  · simp
  · simp

/-- The search of `gemma4RawStringValueEnd` for a comma in front of a known key. -/
def findNextKey (isProperty : List Char → Bool) : List Char → Option (List Char × List Char)
  | [] => none
  | c :: s =>
    let text := trimLeft s
    let key := text.takeWhile letters.isKeyRune
    if c = ',' ∧ key ≠ [] ∧
        (trimLeft (text.dropWhile letters.isKeyRune)).head? = some ':' ∧ isProperty key = true then
      some ([], c :: s)
    else (findNextKey isProperty s).map fun p => (c :: p.1, p.2)

/-- `gemma4RawStringValueEnd`: the raw value and what is behind it. -/
def rawStringValue (isProperty : List Char → Bool) (s : List Char) : List Char × List Char :=
  let text := trimRight s
  (findNextKey letters isProperty s).getD <|
    if text.getLast? = some '}' then (text.dropLast, s.drop (text.length - 1)) else (s, [])

/-- `repairGemma4RawTerminalStringValueForKey`; each search starts behind the one before. -/
def repairRawValueForKey (isProperty : List Char → Bool) (key : List Char) :
    Nat → List Char → Option (List Char)
  | 0, _ => none
  | fuel + 1, s =>
    match findValueStart key s with
    | none => none
    | some (before, behind) =>
      if startsStructured (trimLeft behind) then
        (repairRawValueForKey isProperty key fuel behind).map fun text => before ++ text
      else
        let (value, rest) := rawStringValue letters isProperty behind
        some (before ++ delimiter ++ value ++ delimiter ++ rest)

/-- `repairGemma4RawTerminalStringValue` -/
def repairRawValue (s toolName : List Char) (tools : List Tool) : Option (List Char) :=
  (toolProperties toolName tools).bind fun properties =>
    (properties.filter (·.2.acceptsString)).findSome? fun p =>
      repairRawValueForKey letters (fun key => properties.any (·.1 = key)) p.1 (s.length + 1) s

/-- `addCandidate` -/
def repairCandidate (candidate : List Char) (allowMissingObjectClose : Bool) : List Char :=
  let repaired := repairMissingStringDelimiter (repairSingleQuotedValues candidate)
  if allowMissingObjectClose ∨ repaired ≠ candidate then repairMissingObjectClose repaired
  else repaired

/-- `gemma4RepairCandidates` -/
def repairCandidates (s toolName : List Char) (tools : List Tool) : List (List Char) :=
  let first := repairCandidate s false
  match repairRawValue letters s toolName tools with
  | none => [first]
  | some raw => [first, repairCandidate raw true].dedup

/-- `repairGemma4ToolCallArgs` -/
def repairArgs (read : List Char → Option N) (s toolName : List Char) (tools : List Tool) :
    Option (Fields N) :=
  (repairCandidates letters s toolName tools).findSome? fun candidate =>
    unmarshalArgs read (gemma4ArgsToJSON letters candidate)

/-! ## The parser -/

inductive ParseError
  | expectedCall
  | expectedBrace
  | invalidArguments
  deriving DecidableEq

def parseGemma4ToolCall (read : List Char → Option N) (content : List Char) (tools : List Tool) :
    Except ParseError (List Char × Fields N) :=
  if ¬"call:".toList <+: content then .error .expectedCall
  else
    match cut ['{'] (content.drop 5) with
    | none => .error .expectedBrace
    | some (name, args) =>
      let toolName := trimSpace name
      match unmarshalArgs read (gemma4ArgsToJSON letters ('{' :: args)) with
      | some args => .ok (toolName, args)
      | none =>
        match repairArgs letters read ('{' :: args) toolName tools with
        | some args => .ok (toolName, args)
        | none => .error .invalidArguments

end Prismalama.Gemma4
