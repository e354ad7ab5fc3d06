import Mathlib.Data.Rat.Floor
import Prismalama.Lib.Decimal
import Prismalama.Lib.Json

/-!
# Arguments of Qwen3-Coder tool calls (`model/renderers/qwen3coder.go`, `model/parsers/qwen3coder.go`)

The renderer prints the value of an argument between two newlines, and the parser turns the text
into a value of a declared type. Every value comes back but a number without decimals that is
outside of `int64` (`survives_iff`). Floating point, JSON and letter case are those of the library.
-/

namespace Prismalama.Parsers.Qwen3Coder

open Prismalama.Lib Prismalama.Lib.Decimal

/-- A `float64` -/
inductive GoFloat
  | finite (q : ℚ)
  | inf (negative : Bool)
  | nan
  deriving DecidableEq

/-- A value of type `any`. -/
inductive Arg
  | null
  | bool (b : Bool)
  | int (n : Int)
  | float (f : GoFloat)
  | str (s : List Char)
  | arr (vs : Values ℚ)
  | obj (fs : Fields ℚ)

/-- The runes of `%v` for numbers. -/
def isFloatRune (c : Char) : Bool :=
  c.isDigit || c == '.' || c == 'e' || c == '+' || c == '-'

/-- What is used of the library. -/
structure Library where
  /-- `unicode.ToLower` -/
  toLower : Char → Char
  toLower_ascii : ∀ c, c.toNat < 128 → toLower c = c.toLower
  /-- `%v` of a finite number -/
  formatFloat : ℚ → List Char
  formatFloat_runes : ∀ q, ∀ c ∈ formatFloat q, isFloatRune c = true
  /-- `strconv.ParseFloat` -/
  parseFloat : List Char → Option GoFloat
  /-- The conversion `int64(f)`, which the language leaves open where the value does not fit -/
  toInt64 : GoFloat → Int
  toInt64_isInt64 : ∀ f, IsInt64 (toInt64 f)
  toInt64_exact : ∀ n : Int, IsInt64 n → toInt64 (.finite n) = n
  /-- `json.Marshal` -/
  marshalArr : Values ℚ → List Char
  marshalObj : Fields ℚ → List Char
  marshalArr_shape : ∀ vs, ∃ s, marshalArr vs = '[' :: s ++ [']']
  marshalObj_shape : ∀ fs, ∃ s, marshalObj fs = '\x7b' :: s ++ ['\x7d']
  /-- `json.Unmarshal` into a slice and into a map -/
  unmarshalArr : List Char → Option (Values ℚ)
  unmarshalObj : List Char → Option (Fields ℚ)

variable (lib : Library)

/-! ## Rendering -/

/-- `fmt.Sprintf("%v", value)` of a number -/
def formatGoFloat : GoFloat → List Char
  | .finite q => lib.formatFloat q
  | .inf false => "+Inf".toList
  | .inf true => "-Inf".toList
  | .nan => "NaN".toList

def formatToolCallArgument : Arg → List Char
  | .null => "null".toList
  | .str s => s
  | .arr vs => lib.marshalArr vs
  | .obj fs => lib.marshalObj fs
  | .bool b => if b then "true".toList else "false".toList
  | .int n => printInt n
  | .float f => formatGoFloat lib f

/-- What stands between the tags of a parameter. -/
def renderArgument (v : Arg) : List Char := '\n' :: formatToolCallArgument lib v ++ ['\n']

/-! ## Parsing -/

/-- `strings.TrimPrefix(s, "\n")` -/
def trimPrefixNewline : List Char → List Char
  | '\n' :: s => s
  | s => s

/-- `strings.TrimSuffix(s, "\n")` -/
def trimSuffixNewline (s : List Char) : List Char :=
  if s.getLast? = some '\n' then s.dropLast else s

/-- `strings.ToLower` -/
def lower (s : List Char) : List Char := s.map lib.toLower

/-- `math.Trunc` -/
def trunc : GoFloat → GoFloat
  | .finite q => .finite (if 0 ≤ q then ⌊q⌋ else ⌈q⌉ : ℤ)
  | f => f

/-- `f == g`; NaN is not even equal to itself. -/
def floatEq (f g : GoFloat) : Bool := f != .nan && f == g

/-- The last cases of the switch: what could not be read is a string. -/
def parseObject (raw : List Char) (paramType : List String) : Arg :=
  if "object" ∈ paramType then
    match lib.unmarshalObj raw with
    | some fs => .obj fs
    | none => .str raw
  else .str raw

def parseArray (raw : List Char) (paramType : List String) : Arg :=
  if "array" ∈ paramType then
    match lib.unmarshalArr raw with
    | some vs => .arr vs
    | none => if paramType.length = 1 then .str raw else parseObject lib raw paramType
  else parseObject lib raw paramType

def parseNumber (raw : List Char) (paramType : List String) : Arg :=
  if "number" ∈ paramType then
    match lib.parseFloat raw with
    | some f => if floatEq f (trunc f) then .int (lib.toInt64 f) else .float f
    | none => if paramType.length = 1 then .str raw else parseArray lib raw paramType
  else parseArray lib raw paramType

def parseInteger (raw : List Char) (paramType : List String) : Arg :=
  if "integer" ∈ paramType then
    match parseInt raw with
    | some i => .int i
    | none => if paramType.length = 1 then .str raw else parseNumber lib raw paramType
  else parseNumber lib raw paramType

def parseBoolean (raw : List Char) (paramType : List String) : Arg :=
  if "boolean" ∈ paramType then
    if lower lib raw = "true".toList then .bool true
    else if lower lib raw = "false".toList then .bool false
    else if paramType.length = 1 then .bool false
    else parseInteger lib raw paramType
  else parseInteger lib raw paramType

/-- The cases for the types come one after the other. -/
def parseValue (raw : List Char) (paramType : List String) : Arg :=
  let raw := trimSuffixNewline (trimPrefixNewline raw)
  if lower lib raw = "null".toList then .null
  else if paramType = [] then .str raw
  else parseBoolean lib raw paramType

/-! ## What comes back -/

/-- The number that a value is. -/
def Arg.number? : Arg → Option ℚ
  | .int n => some n
  | .float (.finite q) => some q
  | _ => none

/-- Equal values, where numbers are compared as numbers. -/
def Same (v w : Arg) : Prop := v = w ∨ (v.number?.isSome = true ∧ v.number? = w.number?)

/-- The JSON type of a value. -/
def jsonType : Arg → String
  | .null => "null"
  | .bool _ => "boolean"
  | .int _ => "integer"
  | .float _ => "number"
  | .str _ => "string"
  | .arr _ => "array"
  | .obj _ => "object"

/-- A value that an argument may have, of which the library reads what it prints. -/
def Argument : Arg → Prop
  | .null => False
  | .bool _ => True
  | .int n => IsInt64 n
  | .float f => ∃ q, f = .finite q ∧ lib.parseFloat (lib.formatFloat q) = some (.finite q)
  | .str s => lower lib s ≠ "null".toList
  | .arr vs => lib.unmarshalArr (lib.marshalArr vs) = some vs
  | .obj fs => lib.unmarshalObj (lib.marshalObj fs) = some fs

/-- A `float64` without decimals that is outside of `int64`. -/
def TooLarge (v : Arg) : Prop := ∃ n : Int, v = .float (.finite n) ∧ ¬IsInt64 n

variable {lib}

/-- The newlines of the renderer are those that are trimmed. -/
theorem trim_renderArgument (v : Arg) :
    trimSuffixNewline (trimPrefixNewline (renderArgument lib v)) =
      formatToolCallArgument lib v := by
  rw [renderArgument, List.cons_append, trimPrefixNewline, trimSuffixNewline, if_pos (by simp),
    List.dropLast_concat]

theorem low_of_isFloatRune {c : Char} (h : isFloatRune c = true) : c.toNat < 128 := by
  simp only [isFloatRune, Bool.or_eq_true, beq_iff_eq] at h
  rcases h with (((hdigit | rfl) | rfl) | rfl) | rfl
  · simp only [Char.isDigit, Bool.and_eq_true, decide_eq_true_eq] at hdigit
    have hle : c.toNat ≤ 57 := hdigit.2
    omega
  · decide
  · decide
  · decide
  · decide

/-- A text that starts with an ASCII rune other than an `n` is not `null`. -/
theorem lower_ne_null_of_head {s : List Char} {c : Char} (hs : s.head? = some c)
    (hc : c.toNat < 128) (hne : c.toLower ≠ 'n') : lower lib s ≠ "null".toList := by
  intro heq
  have hhead := congrArg List.head? heq
  rw [lower, List.head?_map, hs, Option.map_some, lib.toLower_ascii c hc] at hhead
  exact hne (Option.some.inj hhead)

theorem lower_ne_null_of_number {s : List Char} (hs : ∀ c ∈ s, isFloatRune c = true) :
    lower lib s ≠ "null".toList := by
  cases s with
  | nil => exact (List.cons_ne_nil _ _).symm
  | cons c s =>
    have hrune := hs c List.mem_cons_self
    have hlow := low_of_isFloatRune hrune
    have hnone : ∀ n < 128, isFloatRune (Char.ofNat n) = true → (Char.ofNat n).toLower ≠ 'n' := by
      decide
    have hne := hnone c.toNat hlow
    rw [Char.ofNat_toNat] at hne
    exact lower_ne_null_of_head rfl hlow (hne hrune)

theorem isFloatRune_printInt {n : Int} : ∀ c ∈ printInt n, isFloatRune c = true := by
  intro c hc
  rcases mem_printInt hc with rfl | hdigit
  · decide
  · simp [isFloatRune, hdigit]

/-- The text of an argument is not `null`. -/
theorem lower_ne_null {v : Arg} (hv : Argument lib v) :
    lower lib (formatToolCallArgument lib v) ≠ "null".toList := by
  cases v with
  | null => exact hv.elim
  | bool b =>
    cases b
    · exact lower_ne_null_of_head (c := 'f') rfl (by decide) (by decide)
    · exact lower_ne_null_of_head (c := 't') rfl (by decide) (by decide)
  | int n => exact lower_ne_null_of_number isFloatRune_printInt
  | float f =>
    obtain ⟨q, rfl, -⟩ := hv
    exact lower_ne_null_of_number (lib.formatFloat_runes q)
  | str s => exact hv
  | arr vs =>
    obtain ⟨s, hs⟩ := lib.marshalArr_shape vs
    have hhead : (lib.marshalArr vs).head? = some '[' := by rw [hs]; rfl
    exact lower_ne_null_of_head hhead (by decide) (by decide)
  | obj fs =>
    obtain ⟨s, hs⟩ := lib.marshalObj_shape fs
    have hhead : (lib.marshalObj fs).head? = some '\x7b' := by rw [hs]; rfl
    exact lower_ne_null_of_head hhead (by decide) (by decide)

/-- Lower case letters stay. -/
theorem lower_bool (b : Bool) : lower lib (formatToolCallArgument lib (.bool b)) =
    formatToolCallArgument lib (.bool b) := by
  have hsame : ∀ s : List Char,
      (s.all fun c => decide (c.toNat < 128) && decide (c.toLower = c)) = true → lower lib s = s := by
    intro s hs
    refine (List.map_congr_left fun c hc => ?_).trans (List.map_id s)
    have hc' := List.all_eq_true.mp hs c hc
    rw [Bool.and_eq_true, decide_eq_true_eq, decide_eq_true_eq] at hc'
    exact (lib.toLower_ascii c hc'.1).trans hc'.2
  cases b
  · exact hsame "false".toList (by decide)
  · exact hsame "true".toList (by decide)

/-- A number of the library is read as an integer when it has no decimals, else as it is. -/
theorem parseNumber_float {q : ℚ} (h : lib.parseFloat (lib.formatFloat q) = some (.finite q)) :
    (∃ n : Int, q = n) ∧
        parseNumber lib (lib.formatFloat q) ["number"] = .int (lib.toInt64 (.finite q)) ∨
      (¬∃ n : Int, q = n) ∧
        parseNumber lib (lib.formatFloat q) ["number"] = .float (.finite q) := by
  have hmem : "number" ∈ ["number"] := List.mem_singleton.mpr rfl
  have htrunc : floatEq (.finite q) (trunc (.finite q)) = true ↔ ∃ n : Int, q = n := by
    rw [floatEq, trunc, Bool.and_eq_true, bne_iff_ne, beq_iff_eq, GoFloat.finite.injEq]
    constructor
    · rintro ⟨-, heq⟩
      exact ⟨_, heq⟩
    · rintro ⟨n, rfl⟩
      refine ⟨nofun, ?_⟩
      rw [Int.floor_intCast, Int.ceil_intCast, ite_self]
  rw [parseNumber, if_pos hmem, h]
  simp only
  by_cases hq : ∃ n : Int, q = n
  · exact .inl ⟨hq, if_pos (htrunc.mpr hq)⟩
  · exact .inr ⟨hq, if_neg (mt htrunc.mp hq)⟩

theorem parseValue_render {v : Arg} (hv : Argument lib v) :
    parseValue lib (renderArgument lib v) [jsonType v] =
      parseBoolean lib (formatToolCallArgument lib v) [jsonType v] := by
  rw [parseValue, trim_renderArgument, if_neg (lower_ne_null hv), if_neg (List.cons_ne_nil _ _)]

theorem parseValue_float {q : ℚ} (hv : Argument lib (.float (.finite q))) :
    parseValue lib (renderArgument lib (.float (.finite q))) ["number"] =
      parseNumber lib (lib.formatFloat q) ["number"] := by
  refine (parseValue_render hv).trans ?_
  simp [parseBoolean, parseInteger, jsonType, formatToolCallArgument, formatGoFloat]

/-- Every value comes back, except a number without decimals that is outside of `int64`. -/
theorem survives_iff {v : Arg} (hv : Argument lib v) :
    Same (parseValue lib (renderArgument lib v) [jsonType v]) v ↔ ¬TooLarge v := by
  cases v with
  | null => exact hv.elim
  | bool b =>
    refine iff_of_true (.inl ?_) (by rintro ⟨n, hn, -⟩; cases hn)
    rw [parseValue_render hv]
    rw [parseBoolean, lower_bool]
    cases b <;> rfl
  | int n =>
    refine iff_of_true (.inl ?_) (by rintro ⟨n, hn, -⟩; cases hn)
    rw [parseValue_render hv]
    have hread : parseInt (printInt n) = some n := parseInt_printInt hv
    simp [parseBoolean, parseInteger, jsonType, formatToolCallArgument, hread]
  | str s =>
    refine iff_of_true (.inl ?_) (by rintro ⟨n, hn, -⟩; cases hn)
    rw [parseValue_render hv]
    simp [parseBoolean, parseInteger, parseNumber, parseArray, parseObject, jsonType,
      formatToolCallArgument]
  | arr vs =>
    refine iff_of_true (.inl ?_) (by rintro ⟨n, hn, -⟩; cases hn)
    rw [parseValue_render hv]
    have hread : lib.unmarshalArr (lib.marshalArr vs) = some vs := hv
    simp [parseBoolean, parseInteger, parseNumber, parseArray, jsonType, formatToolCallArgument,
      hread]
  | obj fs =>
    refine iff_of_true (.inl ?_) (by rintro ⟨n, hn, -⟩; cases hn)
    rw [parseValue_render hv]
    have hread : lib.unmarshalObj (lib.marshalObj fs) = some fs := hv
    simp [parseBoolean, parseInteger, parseNumber, parseArray, parseObject, jsonType,
      formatToolCallArgument, hread]
  | float f =>
    obtain ⟨q, rfl, hread⟩ := id hv
    rw [jsonType, parseValue_float hv]
    rcases parseNumber_float hread with ⟨⟨n, rfl⟩, hparsed⟩ | ⟨hnot, hparsed⟩
    · rw [hparsed]
      have hsame : Same (.int (lib.toInt64 (.finite n))) (.float (.finite n)) ↔
          lib.toInt64 (.finite n) = n := by
        constructor
        · rintro (heq | ⟨-, heq⟩)
          · cases heq
          · exact_mod_cast Option.some.inj heq
        · intro heq
          exact .inr ⟨rfl, by rw [heq]; rfl⟩
      have hlarge : TooLarge (.float (.finite n)) ↔ ¬IsInt64 n := by
        constructor
        · rintro ⟨n', heq, hnot⟩
          have hn : (n : ℚ) = n' := GoFloat.finite.inj (Arg.float.inj heq)
          rwa [Int.cast_inj.mp hn]
        · exact fun hnot => ⟨n, rfl, hnot⟩
      rw [hsame, hlarge, not_not]
      exact ⟨fun heq => heq ▸ lib.toInt64_isInt64 (.finite n), lib.toInt64_exact n⟩
    · rw [hparsed]
      refine iff_of_true (.inl rfl) ?_
      rintro ⟨n, heq, -⟩
      exact hnot ⟨n, GoFloat.finite.inj (Arg.float.inj heq)⟩

/-- The conversion on a machine that gives the least number for one that does not fit. -/
def leastUnless (n : Int) : Int := if IsInt64 n then n else -2 ^ 63

theorem isInt64_leastUnless (n : Int) : IsInt64 (leastUnless n) := by
  rw [leastUnless]
  split
  · assumption
  · decide

/-- The library on 1/2 and 2^63. -/
def someLibrary : Library where
  toLower := Char.toLower
  toLower_ascii _ _ := rfl
  formatFloat q := if q = 1 / 2 then "0.5".toList else "9.223372036854776e+18".toList
  formatFloat_runes q := by
    have hall : ("0.5".toList ++ "9.223372036854776e+18".toList).all isFloatRune = true := by
      decide
    intro c hc
    refine List.all_eq_true.mp hall c (List.mem_append.mpr ?_)
    split at hc
    · exact .inl hc
    · exact .inr hc
  parseFloat s :=
    if s = "0.5".toList then some (.finite (1 / 2))
    else if s = "9.223372036854776e+18".toList then some (.finite 9223372036854775808)
    else none
  toInt64
    | .finite q => leastUnless (if 0 ≤ q then ⌊q⌋ else ⌈q⌉)
    | _ => leastUnless (2 ^ 63)
  toInt64_isInt64 f := by
    split
    · exact isInt64_leastUnless _
    · exact isInt64_leastUnless _
  toInt64_exact n h := by
    simp only [Int.floor_intCast, Int.ceil_intCast, ite_self]
    exact if_pos h
  marshalArr _ := "[]".toList
  marshalObj _ := "\x7b\x7d".toList
  marshalArr_shape _ := ⟨[], rfl⟩
  marshalObj_shape _ := ⟨[], rfl⟩
  unmarshalArr _ := some .nil
  unmarshalObj _ := some .nil

theorem survives_half : Same (parseValue someLibrary
    (renderArgument someLibrary (.float (.finite (1 / 2)))) ["number"])
      (.float (.finite (1 / 2))) := by
  have hargument : Argument someLibrary (.float (.finite (1 / 2))) :=
    ⟨1 / 2, rfl, by decide +kernel⟩
  refine (survives_iff hargument).mpr ?_
  rintro ⟨n, heq, -⟩
  have hden := congrArg Rat.den (GoFloat.finite.inj (Arg.float.inj heq))
  rw [Rat.den_intCast] at hden
  exact absurd hden (by norm_num)

/-- 2^63 comes back as -2^63. -/
theorem not_survives : Argument someLibrary (.float (.finite 9223372036854775808)) ∧
    ¬Same (parseValue someLibrary
      (renderArgument someLibrary (.float (.finite 9223372036854775808))) ["number"])
        (.float (.finite 9223372036854775808)) := by
  have hformat : someLibrary.formatFloat 9223372036854775808 =
      "9.223372036854776e+18".toList := if_neg (by norm_num)
  have hparse : someLibrary.parseFloat "9.223372036854776e+18".toList =
      some (.finite 9223372036854775808) := rfl
  have hargument : Argument someLibrary (.float (.finite 9223372036854775808)) :=
    ⟨_, rfl, by rw [hformat, hparse]⟩
  refine ⟨hargument, fun hsame => ?_⟩
  have hinteger : ∃ n : Int, (9223372036854775808 : ℚ) = n := ⟨9223372036854775808, by norm_num⟩
  rw [parseValue_float hargument] at hsame
  rcases parseNumber_float (hformat.symm ▸ hparse) with ⟨-, hparsed⟩ | ⟨hnot, -⟩
  · rw [hparsed] at hsame
    have hleast : someLibrary.toInt64 (.finite 9223372036854775808) = -2 ^ 63 := by
      decide
    rw [hleast] at hsame
    rcases hsame with heq | ⟨-, heq⟩
    · cases heq
    · have hnum : ((-2 ^ 63 : Int) : ℚ) = 9223372036854775808 := Option.some.inj heq
      norm_num at hnum
  · exact hnot hinteger

end Prismalama.Parsers.Qwen3Coder
