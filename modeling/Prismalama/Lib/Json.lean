import Mathlib.Data.List.TakeWhile
import Mathlib.Tactic

/-!
# JSON (`encoding/json`)

Trees of values, the text of a string (`jsonString`) and the decoder. The decoder takes at most
`depth` open arrays and objects. What a number literal means is left to `read`. Objects are
maps: their entries stand in the order of their keys. A text that is decoded has no control
characters but blanks (`noControl_unmarshal`).
-/

namespace Prismalama.Lib

mutual

/-- A decoded value, with numbers in `N`. -/
inductive Value (N : Type) : Type
  | null
  | bool (b : Bool)
  | num (n : N)
  | str (s : List Char)
  | arr (vs : Values N)
  | obj (fs : Fields N)

inductive Values (N : Type) : Type
  | nil
  | cons (v : Value N) (vs : Values N)

/-- The entries of a map. -/
inductive Fields (N : Type) : Type
  | nil
  | cons (k : List Char) (v : Value N) (fs : Fields N)

end

variable {N : Type}

/-! ## Maps -/

/-- An entry that comes before the given ones, of which a later one with its key wins. -/
def Fields.insert (k : List Char) (v : Value N) : Fields N → Fields N
  | .nil => .cons k v .nil
  | .cons k' v' fs =>
    if k < k' then .cons k v (.cons k' v' fs)
    else if k = k' then .cons k' v' fs
    else .cons k' v' (fs.insert k v)

/-- The map with these entries, of which the last one with a key counts. -/
def Fields.canon : Fields N → Fields N
  | .nil => .nil
  | .cons k v fs => fs.canon.insert k v

def Fields.keys : Fields N → List (List Char)
  | .nil => []
  | .cons k _ fs => k :: fs.keys

theorem Fields.insert_of_lt {k : List Char} (v : Value N) {fs : Fields N}
    (h : ∀ k' ∈ fs.keys, k < k') : fs.insert k v = .cons k v fs := by
  cases fs with
  | nil => rfl
  | cons k' v' fs =>
    rw [Fields.insert, if_pos (h k' (List.mem_cons_self ..))]

/-- Entries in the order of their keys are a map. -/
theorem Fields.canon_of_sorted {fs : Fields N} (h : fs.keys.Pairwise (· < ·)) : fs.canon = fs := by
  match fs with
  | .nil => rfl
  | .cons k v fs =>
    obtain ⟨hfirst, hrest⟩ := List.pairwise_cons.mp h
    rw [Fields.canon, Fields.canon_of_sorted hrest, Fields.insert_of_lt v hfirst]

/-! ## Strings -/

def hexVal (c : Char) : Option Nat :=
  if '0' ≤ c ∧ c ≤ '9' then some (c.toNat - '0'.toNat)
  else if 'a' ≤ c ∧ c ≤ 'f' then some (c.toNat - 'a'.toNat + 10)
  else if 'A' ≤ c ∧ c ≤ 'F' then some (c.toNat - 'A'.toNat + 10)
  else none

def hex4 (a b c d : Char) : Option Nat := do
  let a ← hexVal a
  let b ← hexVal b
  let c ← hexVal c
  let d ← hexVal d
  return ((a * 16 + b) * 16 + c) * 16 + d

/-- The letter behind a backslash, except `u`. -/
def escapeOf (c : Char) : Option Char :=
  if c = '"' ∨ c = '\\' ∨ c = '/' then some c
  else if c = 'b' then some '\x08'
  else if c = 'f' then some '\x0c'
  else if c = 'n' then some '\n'
  else if c = 'r' then some '\r'
  else if c = 't' then some '\t'
  else none

/-- The code points and surrogates up to the closing quote, and what is behind it. -/
def readUnits : List Char → Option (List Nat × List Char)
  | [] => none
  | c :: s =>
    if c = '"' then some ([], s)
    else if c = '\\' then
      match s with
      | [] => none
      | e :: s =>
        if e = 'u' then
          match s with
          | a :: b :: c :: d :: s =>
            (hex4 a b c d).bind fun n => (readUnits s).map fun p => (n :: p.1, p.2)
          | _ => none
        else (escapeOf e).bind fun r => (readUnits s).map fun p => (r.toNat :: p.1, p.2)
    else if c.toNat < 32 then none
    else (readUnits s).map fun p => (c.toNat :: p.1, p.2)

def isHigh (u : Nat) : Bool := 0xD800 ≤ u && u < 0xDC00

def isLow (u : Nat) : Bool := 0xDC00 ≤ u && u < 0xE000

/-- `string(rune(u))` -/
def runeOf (u : Nat) : Char := if u.isValidChar then Char.ofNat u else '\uFFFD'

/-- Pairs of surrogates are one rune each. -/
def joinUnits : List Nat → List Char
  | [] => []
  | [u] => [runeOf u]
  | u :: u' :: us =>
    if isHigh u && isLow u' then
      runeOf ((u - 0xD800) * 0x400 + (u' - 0xDC00) + 0x10000) :: joinUnits us
    else runeOf u :: joinUnits (u' :: us)

/-- A string behind its opening quote. -/
def readString (s : List Char) : Option (List Char × List Char) :=
  (readUnits s).map fun p => (joinUnits p.1, p.2)

/-- A rune as `json.Marshal` writes it. -/
def jsonRune (c : Char) : List Char :=
  if c = '"' then ['\\', '"']
  else if c = '\\' then ['\\', '\\']
  else if c = '\x08' then ['\\', 'b']
  else if c = '\x0c' then ['\\', 'f']
  else if c = '\n' then ['\\', 'n']
  else if c = '\r' then ['\\', 'r']
  else if c = '\t' then ['\\', 't']
  else if c.toNat < 32 ∨ c = '<' ∨ c = '>' ∨ c = '&' then
    ['\\', 'u', '0', '0', Nat.digitChar (c.toNat / 16), Nat.digitChar (c.toNat % 16)]
  else if c = '\u2028' then "\\u2028".toList
  else if c = '\u2029' then "\\u2029".toList
  else [c]

/-- `json.Marshal` of a string -/
def jsonString (s : List Char) : List Char := '"' :: s.flatMap jsonRune ++ ['"']

theorem hex4_digits : ∀ n < 128,
    hex4 '0' '0' (Nat.digitChar (n / 16)) (Nat.digitChar (n % 16)) = some n := by decide

theorem readUnits_quote (s : List Char) : readUnits ('"' :: s) = some ([], s) := by
  rw [readUnits.eq_def]
  rfl

theorem readUnits_escape {e : Char} (he : e ≠ 'u') (s : List Char) :
    readUnits ('\\' :: e :: s) =
      (escapeOf e).bind fun r => (readUnits s).map fun p => (r.toNat :: p.1, p.2) := by
  rw [readUnits.eq_def]
  simp [he]

theorem readUnits_hex (a b c d : Char) (s : List Char) :
    readUnits ('\\' :: 'u' :: a :: b :: c :: d :: s) =
      (hex4 a b c d).bind fun n => (readUnits s).map fun p => (n :: p.1, p.2) := by
  rw [readUnits.eq_def]
  simp

theorem readUnits_plain {c : Char} (hquote : c ≠ '"') (hslash : c ≠ '\\') (hlow : 32 ≤ c.toNat)
    (s : List Char) : readUnits (c :: s) = (readUnits s).map fun p => (c.toNat :: p.1, p.2) := by
  have hnot : ¬c.toNat < 32 := by omega
  rw [readUnits.eq_def]
  simp [hquote, hslash, hnot]

/-- A rune is escaped by a letter or by digits, or stands as it is. -/
theorem jsonRune_cases {motive : Char → List Char → Prop} (c : Char)
    (escape : ∀ e r, e ≠ 'u' → escapeOf e = some r → motive r ['\\', e])
    (hex : c.toNat < 128 → motive c
      ['\\', 'u', '0', '0', Nat.digitChar (c.toNat / 16), Nat.digitChar (c.toNat % 16)])
    (separator : ∀ d r, hex4 '2' '0' '2' d = some r.toNat → d ≠ '\x00' →
      motive r ['\\', 'u', '2', '0', '2', d])
    (plain : c ≠ '"' → c ≠ '\\' → 32 ≤ c.toNat → motive c [c]) : motive c (jsonRune c) := by
  rw [jsonRune]
  refine iteInduction (fun h => ?_) fun hquote => ?_
  · rw [h]
    exact escape '"' '"' (by simp) rfl
  refine iteInduction (fun h => ?_) fun hslash => ?_
  · rw [h]
    exact escape '\\' '\\' (by simp) rfl
  refine iteInduction (fun h => ?_) fun _ => ?_
  · rw [h]
    exact escape 'b' '\x08' (by simp) rfl
  refine iteInduction (fun h => ?_) fun _ => ?_
  · rw [h]
    exact escape 'f' '\x0c' (by simp) rfl
  refine iteInduction (fun h => ?_) fun _ => ?_
  · rw [h]
    exact escape 'n' '\n' (by simp) rfl
  refine iteInduction (fun h => ?_) fun _ => ?_
  · rw [h]
    exact escape 'r' '\r' (by simp) rfl
  refine iteInduction (fun h => ?_) fun _ => ?_
  · rw [h]
    exact escape 't' '\t' (by simp) rfl
  refine iteInduction (fun h => hex ?_) fun hhex => ?_
  · rcases h with h | rfl | rfl | rfl
    · omega
    · decide
    · decide
    · decide
  refine iteInduction (fun h => ?_) fun _ => ?_
  · rw [h]
    exact separator '8' '\u2028' rfl (by simp)
  refine iteInduction (fun h => ?_) fun _ => ?_
  · rw [h]
    exact separator '9' '\u2029' rfl (by simp)
  · exact plain hquote hslash (by omega)

theorem readUnits_rune (c : Char) (t : List Char) :
    readUnits (jsonRune c ++ t) = (readUnits t).map fun p => (c.toNat :: p.1, p.2) := by
  refine @jsonRune_cases
    (fun c s => readUnits (s ++ t) = (readUnits t).map fun p => (c.toNat :: p.1, p.2)) c ?_ ?_ ?_ ?_
  · intro e r he hr
    refine (readUnits_escape he t).trans ?_
    rw [hr]
    rfl
  · intro hsmall
    refine (readUnits_hex '0' '0' _ _ t).trans ?_
    rw [hex4_digits c.toNat hsmall]
    rfl
  · intro d r hr _
    refine (readUnits_hex '2' '0' '2' d t).trans ?_
    rw [hr]
    rfl
  · intro hquote hslash hlow
    exact readUnits_plain hquote hslash hlow t

theorem readUnits_runes (s t : List Char) :
    readUnits (s.flatMap jsonRune ++ '"' :: t) = some (s.map Char.toNat, t) := by
  induction s with
  | nil =>
    rw [List.flatMap_nil, List.nil_append, readUnits_quote]
    rfl
  | cons c s ih =>
    rw [List.flatMap_cons, List.append_assoc, readUnits_rune, ih]
    rfl

theorem runeOf_toNat (c : Char) : runeOf c.toNat = c := by
  have hvalid : c.toNat.isValidChar := c.valid
  rw [runeOf, if_pos hvalid, Char.ofNat_toNat]

theorem isHigh_toNat (c : Char) : isHigh c.toNat = false := by
  have hvalid : c.toNat < 0xD800 ∨ 0xDFFF < c.toNat ∧ c.toNat < 0x110000 := c.valid
  rw [isHigh]
  simp only [Bool.and_eq_false_iff, decide_eq_false_iff_not]
  omega

theorem joinUnits_runes (s : List Char) : joinUnits (s.map Char.toNat) = s := by
  induction s with
  | nil => rfl
  | cons c s ih =>
    cases s with
    | nil => exact congrArg (fun c => [c]) (runeOf_toNat c)
    | cons d s =>
      rw [List.map_cons, List.map_cons] at *
      rw [joinUnits, isHigh_toNat, Bool.false_and, if_neg Bool.false_ne_true, runeOf_toNat, ih]

theorem readString_jsonString (s t : List Char) :
    readString (s.flatMap jsonRune ++ '"' :: t) = some (s, t) := by
  rw [readString, readUnits_runes]
  exact congrArg (fun s => some (s, t)) (joinUnits_runes s)

/-- A string without quotes, backslashes and control characters may stand as it is. -/
theorem readString_plain {s : List Char}
    (h : ∀ c ∈ s, c ≠ '"' ∧ c ≠ '\\' ∧ 32 ≤ c.toNat) (t : List Char) :
    readString (s ++ '"' :: t) = some (s, t) := by
  have hunits : readUnits (s ++ '"' :: t) = some (s.map Char.toNat, t) := by
    induction s with
    | nil =>
      rw [List.nil_append, readUnits_quote]
      rfl
    | cons c s ih =>
      obtain ⟨hquote, hslash, hlow⟩ := h c (List.mem_cons_self ..)
      rw [List.cons_append, readUnits_plain hquote hslash hlow,
        ih fun d hd => h d (List.mem_cons_of_mem c hd)]
      rfl
  rw [readString, hunits]
  exact congrArg (fun s => some (s, t)) (joinUnits_runes s)

/-! ## Number literals -/

def isDigit (c : Char) : Bool := '0' ≤ c && c ≤ '9'

def isNumChar (c : Char) : Bool :=
  isDigit c || c == '+' || c == '-' || c == '.' || c == 'e' || c == 'E'

/-- The states of the scanner in a number. -/
inductive NumState
  | start
  | neg
  | zero
  | one
  | dot
  | dot0
  | e
  | eSign
  | e0

def NumState.step : NumState → Char → Option NumState
  | .start, c =>
    if c = '-' then some .neg else if c = '0' then some .zero
    else if isDigit c then some .one else none
  | .neg, c => if c = '0' then some .zero else if isDigit c then some .one else none
  | .zero, c => if c = '.' then some .dot else if c = 'e' ∨ c = 'E' then some .e else none
  | .one, c =>
    if isDigit c then some .one else if c = '.' then some .dot
    else if c = 'e' ∨ c = 'E' then some .e else none
  | .dot, c => if isDigit c then some .dot0 else none
  | .dot0, c => if isDigit c then some .dot0 else if c = 'e' ∨ c = 'E' then some .e else none
  | .e, c => if c = '+' ∨ c = '-' then some .eSign else if isDigit c then some .e0 else none
  | .eSign, c => if isDigit c then some .e0 else none
  | .e0, c => if isDigit c then some .e0 else none

def NumState.ends : NumState → Bool
  | .zero => true
  | .one => true
  | .dot0 => true
  | .e0 => true
  | _ => false

def isNumber (s : List Char) : Bool :=
  match s.foldlM NumState.step .start with
  | some state => state.ends
  | none => false

theorem NumState.isNumChar_of_step {state state' : NumState} {c : Char}
    (h : state.step c = some state') : isNumChar c = true := by
  by_contra hc
  simp only [isNumChar, Bool.or_eq_true, beq_iff_eq, not_or, Bool.not_eq_true] at hc
  obtain ⟨⟨⟨⟨⟨hdigit, hplus⟩, hminus⟩, hdot⟩, he⟩, hE⟩ := hc
  have hzero : c ≠ '0' := by
    rintro rfl
    revert hdigit
    decide
  cases state <;> simp [NumState.step, hdigit, hplus, hminus, hdot, he, hE, hzero] at h

theorem isNumChar_of_fold {s : List Char} {state state' : NumState}
    (h : s.foldlM NumState.step state = some state') : ∀ c ∈ s, isNumChar c = true := by
  induction s generalizing state with
  | nil => exact fun c hc => absurd hc List.not_mem_nil
  | cons d s ih =>
    obtain ⟨next, hstep, hrest⟩ := Option.bind_eq_some_iff.mp h
    intro c hc
    rcases List.mem_cons.mp hc with rfl | hc
    · exact NumState.isNumChar_of_step hstep
    · exact ih hrest c hc

/-- The runes of a number literal, of which there is one. -/
theorem isNumChar_of_isNumber {s : List Char} (h : isNumber s = true) :
    s ≠ [] ∧ ∀ c ∈ s, isNumChar c = true := by
  rw [isNumber] at h
  cases hfold : s.foldlM NumState.step .start with
  | none =>
    rw [hfold] at h
    cases h
  | some state =>
    refine ⟨?_, isNumChar_of_fold hfold⟩
    rintro rfl
    obtain rfl : NumState.start = state := Option.some.inj hfold
    rw [hfold] at h
    cases h

/-! ## The decoder -/

def isJsonSpace (c : Char) : Bool := c == ' ' || c == '\t' || c == '\r' || c == '\n'

def skipSpace (s : List Char) : List Char := s.dropWhile isJsonSpace

variable (read : List Char → Option N)

/-- A number literal. -/
def parseNumber (s : List Char) : Option (Value N × List Char) :=
  if isNumber (s.takeWhile isNumChar) then
    (read (s.takeWhile isNumChar)).map fun n => (.num n, s.dropWhile isNumChar)
  else none

mutual

/-- A value, and what is behind it. -/
def parseValue : Nat → Nat → List Char → Option (Value N × List Char)
  | 0, _, _ => none
  | fuel + 1, depth, s =>
    match skipSpace s with
    | [] => none
    | c :: t =>
      if c = '{' then
        if depth = 0 then none
        else if (skipSpace t).head? = some '}' then some (.obj .nil, (skipSpace t).tail)
        else (parseFields fuel (depth - 1) t).map fun p => (.obj p.1.canon, p.2)
      else if c = '[' then
        if depth = 0 then none
        else if (skipSpace t).head? = some ']' then some (.arr .nil, (skipSpace t).tail)
        else (parseValues fuel (depth - 1) t).map fun p => (.arr p.1, p.2)
      else if c = '"' then (readString t).map fun p => (.str p.1, p.2)
      else if "null".toList <+: c :: t then some (.null, t.drop 3)
      else if "true".toList <+: c :: t then some (.bool true, t.drop 3)
      else if "false".toList <+: c :: t then some (.bool false, t.drop 4)
      else parseNumber read (c :: t)

/-- The values of an array, up to its end. -/
def parseValues : Nat → Nat → List Char → Option (Values N × List Char)
  | 0, _, _ => none
  | fuel + 1, depth, s =>
    (parseValue fuel depth s).bind fun p =>
      match skipSpace p.2 with
      | [] => none
      | c :: t =>
        if c = ']' then some (.cons p.1 .nil, t)
        else if c = ',' then (parseValues fuel depth t).map fun q => (.cons p.1 q.1, q.2)
        else none

/-- The entries of an object, up to its end. -/
def parseFields : Nat → Nat → List Char → Option (Fields N × List Char)
  | 0, _, _ => none
  | fuel + 1, depth, s =>
    match skipSpace s with
    | [] => none
    | c :: t =>
      if c = '"' then
        (readString t).bind fun k =>
          match skipSpace k.2 with
          | [] => none
          | c :: t =>
            if c = ':' then
              (parseValue fuel depth t).bind fun p =>
                match skipSpace p.2 with
                | [] => none
                | c :: t =>
                  if c = '}' then some (.cons k.1 p.1 .nil, t)
                  else if c = ',' then
                    (parseFields fuel depth t).map fun q => (.cons k.1 p.1 q.1, q.2)
                  else none
            else none
      else none

end

def maxNestingDepth : Nat := 10000

/-- `json.Unmarshal`; each rune needs at most two calls. -/
def unmarshal (s : List Char) : Option (Value N) :=
  (parseValue read (2 * s.length + 2) maxNestingDepth s).bind fun p =>
    if skipSpace p.2 = [] then some p.1 else none

/-! ## Rules for the decoder -/

variable {read}

theorem skipSpace_cons {c : Char} (h : isJsonSpace c = false) (s : List Char) :
    skipSpace (c :: s) = c :: s := by
  rw [skipSpace, List.dropWhile_cons_of_neg (by rw [h]; exact Bool.false_ne_true)]

theorem parseValue_str (fuel depth : Nat) (s t : List Char) :
    parseValue read (fuel + 1) depth (jsonString s ++ t) = some (.str s, t) := by
  have htext : jsonString s ++ t = '"' :: (s.flatMap jsonRune ++ '"' :: t) := by
    simp [jsonString]
  rw [htext, parseValue, skipSpace_cons (by decide)]
  simp [readString_jsonString]

theorem parseValue_true (fuel depth : Nat) (t : List Char) :
    parseValue read (fuel + 1) depth ("true".toList ++ t) = some (.bool true, t) := by
  show parseValue read (fuel + 1) depth ('t' :: 'r' :: 'u' :: 'e' :: t) = _
  rw [parseValue, skipSpace_cons (by decide)]
  simp

theorem parseValue_false (fuel depth : Nat) (t : List Char) :
    parseValue read (fuel + 1) depth ("false".toList ++ t) = some (.bool false, t) := by
  show parseValue read (fuel + 1) depth ('f' :: 'a' :: 'l' :: 's' :: 'e' :: t) = _
  rw [parseValue, skipSpace_cons (by decide)]
  simp

theorem takeWhile_number {s t : List Char} (hs : ∀ c ∈ s, isNumChar c = true)
    (ht : ∀ c, t.head? = some c → isNumChar c = false) :
    (s ++ t).takeWhile isNumChar = s ∧ (s ++ t).dropWhile isNumChar = t := by
  have hnone : t.takeWhile isNumChar = [] ∧ t.dropWhile isNumChar = t := by
    cases t with
    | nil => exact ⟨rfl, rfl⟩
    | cons c t =>
      have hc := ht c rfl
      simp [hc]
  constructor
  · rw [List.takeWhile_append_of_pos hs, hnone.1, List.append_nil]
  · rw [List.dropWhile_append_of_pos hs, hnone.2]

/-- A number literal is read up to its last rune. -/
theorem parseValue_num {s : List Char} {n : N} (hs : isNumber s = true) (hread : read s = some n)
    (fuel depth : Nat) {t : List Char} (ht : ∀ c, t.head? = some c → isNumChar c = false) :
    parseValue read (fuel + 1) depth (s ++ t) = some (.num n, t) := by
  obtain ⟨hne, hchars⟩ := isNumChar_of_isNumber hs
  obtain ⟨htake, hdrop⟩ := takeWhile_number hchars ht
  obtain ⟨c, s, rfl⟩ := List.exists_cons_of_ne_nil hne
  have hc := hchars c (List.mem_cons_self ..)
  have hnot : ∀ d, isNumChar d = false → c ≠ d := by
    rintro d hd rfl
    rw [hd] at hc
    cases hc
  have hspace : isJsonSpace c = false := by
    simp [isJsonSpace, hnot ' ' (by decide), hnot '\t' (by decide), hnot '\r' (by decide),
      hnot '\n' (by decide)]
  have hword : ∀ {d w}, isNumChar d = false → ¬d :: w <+: c :: (s ++ t) :=
    fun hd h => hnot _ hd (List.cons_prefix_cons.mp h).1.symm
  have hnull : ¬"null".toList <+: c :: (s ++ t) := hword (by decide)
  have htrue : ¬"true".toList <+: c :: (s ++ t) := hword (by decide)
  have hfalse : ¬"false".toList <+: c :: (s ++ t) := hword (by decide)
  rw [List.cons_append] at htake hdrop ⊢
  rw [parseValue, skipSpace_cons hspace]
  simp only [hnot '{' (by decide), hnot '[' (by decide), hnot '"' (by decide), if_false]
  rw [if_neg hnull, if_neg htrue, if_neg hfalse, parseNumber, htake, hdrop, if_pos hs, hread]
  rfl

theorem parseValue_arr (fuel depth : Nat) {c : Char} (hc : isJsonSpace c = false) (t : List Char) :
    parseValue read (fuel + 1) depth ('[' :: c :: t) =
      if depth = 0 then none
      else if c = ']' then some (.arr .nil, t)
      else (parseValues read fuel (depth - 1) (c :: t)).map fun p => (.arr p.1, p.2) := by
  rw [parseValue, skipSpace_cons (by decide)]
  simp [skipSpace_cons hc]

theorem parseValue_obj (fuel depth : Nat) {c : Char} (hc : isJsonSpace c = false) (t : List Char) :
    parseValue read (fuel + 1) depth ('{' :: c :: t) =
      if depth = 0 then none
      else if c = '}' then some (.obj .nil, t)
      else (parseFields read fuel (depth - 1) (c :: t)).map fun p => (.obj p.1.canon, p.2) := by
  rw [parseValue, skipSpace_cons (by decide)]
  simp [skipSpace_cons hc]

/-- A value of an array and what is behind it. -/
theorem parseValues_of_value {fuel depth : Nat} {s t : List Char} {v : Value N} {c : Char}
    (hc : isJsonSpace c = false) (h : parseValue read fuel depth s = some (v, c :: t)) :
    parseValues read (fuel + 1) depth s =
      if c = ']' then some (.cons v .nil, t)
      else if c = ',' then
        (parseValues read fuel depth t).map fun q => (.cons v q.1, q.2)
      else none := by
  rw [parseValues, h, Option.bind_some, skipSpace_cons hc]

/-- An entry of an object up to its value. -/
theorem parseFields_key {k : List Char} (hk : ∀ c ∈ k, c ≠ '"' ∧ c ≠ '\\' ∧ 32 ≤ c.toNat)
    (fuel depth : Nat) (t : List Char) :
    parseFields read (fuel + 1) depth ('"' :: k ++ '"' :: ':' :: t) =
      (parseValue read fuel depth t).bind fun p =>
        match skipSpace p.2 with
        | [] => none
        | c :: t =>
          if c = '}' then some (.cons k p.1 .nil, t)
          else if c = ',' then
            (parseFields read fuel depth t).map fun q => (.cons k p.1 q.1, q.2)
          else none := by
  rw [List.cons_append, parseFields, skipSpace_cons (by decide)]
  simp only [if_true]
  rw [readString_plain hk, Option.bind_some, skipSpace_cons (by decide)]
  simp only [if_true]

end Prismalama.Lib
