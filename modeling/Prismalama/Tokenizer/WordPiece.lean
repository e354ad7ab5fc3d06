import Prismalama.Lib.TagStream
import Prismalama.Lib.Utf8Prefix

/-!
# Words (`WordPiece.words` of `tokenizer/wordpiece.go`)

A text is split at its white space, with white space put around every ideograph, and each
field at its punctuation, which is kept. The fields are found rune by rune, the punctuation
at byte offsets: a punctuation mark at the front of what is left is one byte.
-/

namespace Prismalama.Tokenizer

open Prismalama.Lib

/-- One of the listed blocks. -/
def isIdeograph (r : Char) : Bool :=
  let n := r.toNat
  (0x4E00 ≤ n && n ≤ 0x9FFF) || (0x3400 ≤ n && n ≤ 0x4DBF) || (0x20000 ≤ n && n ≤ 0x2A6DF) ||
    (0x2A700 ≤ n && n ≤ 0x2B73F) || (0x2B740 ≤ n && n ≤ 0x2B81F) ||
    (0x2B820 ≤ n && n ≤ 0x2CEAF) || (0xF900 ≤ n && n ≤ 0xFAFF) || (0x2F800 ≤ n && n ≤ 0x2FA1F)

/-- The category P of a version of Unicode. -/
structure Punctuation where
  /-- `unicode.IsPunct` -/
  isPunct : Char → Bool
  isPunct_space : ∀ r, isSpace r = true → isPunct r = false
  isPunct_ideograph : ∀ r, isIdeograph r = true → isPunct r = false
  isPunct_ellipsis : isPunct '\u2026' = true

example : Punctuation where
  isPunct r := r == '.' || r == '\u2026'
  isPunct_space r h := by
    rw [Bool.or_eq_false_iff, beq_eq_false_iff_ne, beq_eq_false_iff_ne]
    constructor <;> rintro rfl <;> cases h
  isPunct_ideograph r h := by
    rw [Bool.or_eq_false_iff, beq_eq_false_iff_ne, beq_eq_false_iff_ne]
    constructor <;> rintro rfl <;> cases h
  isPunct_ellipsis := rfl

/-- `strings.FieldsFunc`, with the runes of the field that has begun. -/
def fieldsFunc (f : Char → Bool) : List Char → List Char → List (List Char)
  | field, [] => if field = [] then [] else [field]
  | field, r :: runes =>
    if f r = true then (if field = [] then [] else [field]) ++ fieldsFunc f [] runes
    else fieldsFunc f (field ++ [r]) runes

/-- `strings.IndexFunc`, after `skip` bytes that belong to the rune before; `none` for -1. -/
def indexFuncFrom (f : Char → Bool) : Nat → GoString → Option Nat
  | _, [] => none
  | skip + 1, _ :: s => (indexFuncFrom f skip s).map (· + 1)
  | 0, b :: s =>
    match decodeRune (b :: s) with
    | some r => if f r = true then some 0 else (indexFuncFrom f (r.utf8Size - 1) s).map (· + 1)
    | none => if f '\uFFFD' = true then some 0 else (indexFuncFrom f 0 s).map (· + 1)

def indexFunc (s : GoString) (f : Char → Bool) : Option Nat := indexFuncFrom f 0 s

namespace WordPiece

variable (U : Punctuation)

/-- `runes`: white space around the ideographs. -/
def spaced (runes : List Char) : List Char :=
  runes.flatMap fun r => if isIdeograph r = true then [' ', r, ' '] else [r]

/-- The loop over one field, of which at most `fuel` bytes are left. -/
def splitPunct : Nat → GoString → List GoString
  | _, [] => []
  | 0, _ :: _ => []
  | fuel + 1, b :: s =>
    let w := b :: s
    let stop :=
      match indexFunc w U.isPunct with
      | none => w.length
      | some 0 => 1
      | some n => n
    w.take stop :: splitPunct fuel (w.drop stop)

/-- `words` -/
def words (s : GoString) : List GoString :=
  (fieldsFunc isSpace [] (spaced (decodeRunes s))).flatMap fun w =>
    splitPunct U (encodeRunes w).length (encodeRunes w)

/-- What the words of a text are to be. -/
structure WordsRight (rs : List Char) : Prop where
  valid : ∀ w ∈ words U (encodeRunes rs), w ≠ [] ∧ ValidUtf8 w
  noSpace : ∀ w ∈ words U (encodeRunes rs), ∀ r ∈ decodeRunes w, isSpace r = false
  punct : ∀ w ∈ words U (encodeRunes rs), (∃ r, U.isPunct r = true ∧ w = encodeRunes [r]) ∨
    ∀ r ∈ decodeRunes w, U.isPunct r = false
  alone : ∀ w ∈ words U (encodeRunes rs), ∀ r ∈ decodeRunes w, isIdeograph r = true →
    w = encodeRunes [r]
  ideograph : ∀ r ∈ rs, isIdeograph r = true → encodeRunes [r] ∈ words U (encodeRunes rs)
  concat : (words U (encodeRunes rs)).flatten = encodeRunes (rs.filter fun r => !isSpace r)

/-! ## Fields -/

theorem isSpace_ideograph {r : Char} (h : isIdeograph r = true) : isSpace r = false := by
  simp only [isIdeograph, isSpace, Bool.or_eq_true, Bool.and_eq_true, decide_eq_true_eq,
    Bool.or_eq_false_iff, Bool.and_eq_false_iff, decide_eq_false_iff_not, beq_eq_false_iff_ne,
    ne_eq] at h ⊢
  omega

theorem fieldsFunc_separator {f : Char → Bool} {r : Char} (h : f r = true)
    (field runes : List Char) : fieldsFunc f field (r :: runes) =
      (if field = [] then [] else [field]) ++ fieldsFunc f [] runes := by
  rw [fieldsFunc, if_pos h]

theorem fieldsFunc_rune {f : Char → Bool} {r : Char} (h : f r = false)
    (field runes : List Char) :
    fieldsFunc f field (r :: runes) = fieldsFunc f (field ++ [r]) runes := by
  rw [fieldsFunc, if_neg (by rw [h]; decide)]

/-- A field is not empty, without white space, and one ideograph if it has any. -/
structure FieldRight (w : List Char) : Prop where
  ne_nil : w ≠ []
  noSpace : ∀ r ∈ w, isSpace r = false
  alone : ∀ r ∈ w, isIdeograph r = true → w = [r]

/-- The fields of what is left, behind a field that has begun and has no ideograph. -/
theorem fields_spaced (rs : List Char) {field : List Char}
    (hfield : ∀ r ∈ field, isSpace r = false ∧ isIdeograph r = false) :
    (∀ w ∈ fieldsFunc isSpace field (spaced rs), FieldRight w) ∧
      (fieldsFunc isSpace field (spaced rs)).flatten =
        field ++ rs.filter fun r => !isSpace r := by
  -- the field that has begun, when it ends
  have hended : ∀ {field : List Char}, (∀ r ∈ field, isSpace r = false ∧ isIdeograph r = false) →
      (∀ w ∈ (if field = [] then [] else [field] : List (List Char)), FieldRight w) ∧
        (if field = [] then [] else [field] : List (List Char)).flatten = field := by
    intro field hfield
    split
    · rename_i hnil
      exact ⟨fun w hw => absurd hw List.not_mem_nil, by rw [hnil]; rfl⟩
    · rename_i hne
      refine ⟨fun w hw => ?_, List.append_nil field⟩
      obtain rfl := List.mem_singleton.mp hw
      refine ⟨hne, fun r hr => (hfield r hr).1, fun r hr hideo => ?_⟩
      rw [(hfield r hr).2] at hideo
      cases hideo
  induction rs generalizing field with
  | nil =>
    obtain ⟨hright, hflat⟩ := hended hfield
    refine ⟨hright, hflat.trans (List.append_nil field).symm⟩
  | cons r rs ih =>
    have hempty := @ih [] fun r hr => absurd hr List.not_mem_nil
    obtain ⟨hright, hflat⟩ := hended hfield
    by_cases hideo : isIdeograph r = true
    · have hspace := isSpace_ideograph hideo
      have hstep : fieldsFunc isSpace field (spaced (r :: rs)) =
          (if field = [] then [] else [field]) ++ [r] :: fieldsFunc isSpace [] (spaced rs) := by
        rw [spaced, List.flatMap_cons, if_pos hideo]
        show fieldsFunc isSpace field (' ' :: r :: ' ' :: spaced rs) = _
        have hblank : isSpace ' ' = true := by decide
        rw [fieldsFunc_separator hblank, fieldsFunc_rune hspace, List.nil_append,
          fieldsFunc_separator hblank, if_neg (List.cons_ne_nil r [])]
        rfl
      rw [hstep]
      refine ⟨fun w hw => ?_, ?_⟩
      · rcases List.mem_append.mp hw with hw | hw
        · exact hright w hw
        · rcases List.mem_cons.mp hw with rfl | hw
          · refine ⟨List.cons_ne_nil r [], fun r' hr' => ?_, fun r' hr' _ => ?_⟩
            · rwa [List.mem_singleton.mp hr']
            · rw [List.mem_singleton.mp hr']
          · exact hempty.1 w hw
      · rw [List.flatten_append, List.flatten_cons, hflat, hempty.2,
          List.filter_cons_of_pos (by simp [hspace])]
        rfl
    · have hspaced : spaced (r :: rs) = r :: spaced rs := by
        rw [spaced, List.flatMap_cons, if_neg hideo]
        rfl
      rw [hspaced]
      by_cases hspace : isSpace r = true
      · rw [fieldsFunc_separator hspace, List.filter_cons_of_neg (by simp [hspace])]
        refine ⟨fun w hw => ?_, ?_⟩
        · rcases List.mem_append.mp hw with hw | hw
          · exact hright w hw
          · exact hempty.1 w hw
        · rw [List.flatten_append, hflat, hempty.2, List.nil_append]
      · rw [fieldsFunc_rune (Bool.eq_false_iff.mpr hspace), List.filter_cons_of_pos (by simp [hspace])]
        obtain ⟨hrest, hrestflat⟩ := @ih (field ++ [r]) fun r' hr' => by
          rcases List.mem_append.mp hr' with hr' | hr'
          · exact hfield r' hr'
          · rw [List.mem_singleton.mp hr']
            exact ⟨Bool.eq_false_iff.mpr hspace, Bool.eq_false_iff.mpr hideo⟩
        exact ⟨hrest, by rw [hrestflat, List.append_assoc]; rfl⟩

/-! ## The search for punctuation -/

theorem indexFuncFrom_append (f : Char → Bool) (s t : GoString) :
    indexFuncFrom f s.length (s ++ t) = (indexFunc t f).map (· + s.length) := by
  induction s with
  | nil =>
    show indexFunc t f = (indexFunc t f).map (· + 0)
    cases indexFunc t f <;> rfl
  | cons b s ih =>
    show (indexFuncFrom f s.length (s ++ t)).map (· + 1) = _
    rw [ih, Option.map_map, List.length_cons]
    rfl

theorem indexFunc_rune (f : Char → Bool) (r : Char) (s : GoString) :
    indexFunc (String.utf8EncodeChar r ++ s) f =
      if f r = true then some 0
      else (indexFunc s f).map (· + (String.utf8EncodeChar r).length) := by
  have hdec := decodeRune_encode_append r s
  have hlen := String.length_utf8EncodeChar r
  cases henc : String.utf8EncodeChar r with
  | nil => exact absurd henc (utf8EncodeChar_ne_nil r)
  | cons b bs =>
    rw [henc] at hdec hlen
    rw [List.length_cons] at hlen
    have hskip : r.utf8Size - 1 = bs.length := by omega
    rw [List.cons_append] at hdec ⊢
    unfold indexFunc
    rw [indexFuncFrom, hdec]
    simp only
    split
    · rfl
    · rw [hskip, indexFuncFrom_append, Option.map_map]
      rfl

/-- Runes that are not searched for are passed over. -/
theorem indexFunc_runes (f : Char → Bool) {rs : List Char} (h : ∀ r ∈ rs, f r = false)
    (s : GoString) :
    indexFunc (encodeRunes rs ++ s) f = (indexFunc s f).map (· + (encodeRunes rs).length) := by
  induction rs with
  | nil => cases hs : indexFunc s f <;> simp [hs]
  | cons r rs ih =>
    rw [encodeRunes_cons, List.append_assoc, indexFunc_rune,
      if_neg (by simp [h r List.mem_cons_self]),
      ih fun r' hr' => h r' (List.mem_cons_of_mem r hr'), Option.map_map]
    refine congrArg (Option.map · _) (funext fun n => ?_)
    rw [Function.comp_apply, List.length_append]
    omega

/-! ## The split of one field -/

theorem splitPunct_step (fuel : Nat) {w : GoString} (hw : w ≠ []) :
    splitPunct U (fuel + 1) w =
      w.take (match indexFunc w U.isPunct with | none => w.length | some 0 => 1 | some n => n) ::
        splitPunct U fuel
          (w.drop (match indexFunc w U.isPunct with
            | none => w.length | some 0 => 1 | some n => n)) := by
  cases w with
  | nil => exact absurd rfl hw
  | cons b s => rfl

/-- Without punctuation there is one word. -/
theorem splitPunct_plain (fuel : Nat) {v : List Char} (hv : v ≠ [])
    (h : ∀ r ∈ v, U.isPunct r = false) :
    splitPunct U (fuel + 1) (encodeRunes v) = [encodeRunes v] := by
  have hne : encodeRunes v ≠ [] := by
    cases v with
    | nil => exact absurd rfl hv
    | cons r v =>
      rw [encodeRunes_cons]
      exact List.append_ne_nil_of_left_ne_nil (utf8EncodeChar_ne_nil r) _
  have hnone : indexFunc (encodeRunes v) U.isPunct = none := by
    have hpassed := indexFunc_runes U.isPunct h []
    rwa [List.append_nil] at hpassed
  rw [splitPunct_step U fuel hne, hnone]
  simp only [List.take_length, List.drop_length]
  cases fuel <;> rfl

/-- What is before the first punctuation is a word. -/
theorem splitPunct_before (fuel : Nat) {u rest : List Char} {p : Char} (hu : u ≠ [])
    (h : ∀ r ∈ u, U.isPunct r = false) (hp : U.isPunct p = true) :
    splitPunct U (fuel + 1) (encodeRunes (u ++ p :: rest)) =
      encodeRunes u :: splitPunct U fuel (encodeRunes (p :: rest)) := by
  rw [encodeRunes_append]
  have hlen : 0 < (encodeRunes u).length := by
    cases u with
    | nil => exact absurd rfl hu
    | cons r u =>
      rw [encodeRunes_cons, List.length_append]
      have hpos := List.length_pos_iff.mpr (utf8EncodeChar_ne_nil r)
      omega
  have hne : encodeRunes u ++ encodeRunes (p :: rest) ≠ [] :=
    List.append_ne_nil_of_left_ne_nil (List.length_pos_iff.mp hlen) _
  have hindex : indexFunc (encodeRunes u ++ encodeRunes (p :: rest)) U.isPunct =
      some (encodeRunes u).length := by
    rw [indexFunc_runes U.isPunct h, encodeRunes_cons, indexFunc_rune, if_pos hp, Option.map_some,
      Nat.zero_add]
  rw [splitPunct_step U fuel hne, hindex]
  obtain ⟨n, hn⟩ := Nat.exists_eq_succ_of_ne_zero (Nat.ne_of_gt hlen)
  rw [hn]
  simp only
  rw [← hn, List.take_left, List.drop_left]

/-- Of punctuation at the front, the first byte is a word. -/
theorem splitPunct_front (fuel : Nat) {p : Char} (rest : List Char) (hp : U.isPunct p = true)
    {b : UInt8} {bs : GoString} (hbs : String.utf8EncodeChar p = b :: bs) :
    splitPunct U (fuel + 1) (encodeRunes (p :: rest)) =
      [b] :: splitPunct U fuel (bs ++ encodeRunes rest) := by
  have hindex : indexFunc (encodeRunes (p :: rest)) U.isPunct = some 0 := by
    rw [encodeRunes_cons, indexFunc_rune, if_pos hp]
  have hbytes : encodeRunes (p :: rest) = b :: (bs ++ encodeRunes rest) := by
    rw [encodeRunes_cons, hbs, List.cons_append]
  rw [splitPunct_step U fuel (by rw [hbytes]; exact List.cons_ne_nil b _), hindex, hbytes]
  rfl

/-- Some runes have no punctuation, or there is a first one. -/
theorem first_punct (v : List Char) : (∀ r ∈ v, U.isPunct r = false) ∨
    ∃ u p rest, v = u ++ p :: rest ∧ (∀ r ∈ u, U.isPunct r = false) ∧ U.isPunct p = true := by
  induction v with
  | nil => exact .inl fun r hr => absurd hr List.not_mem_nil
  | cons r v ih =>
    cases hr : U.isPunct r with
    | true => exact .inr ⟨[], r, v, rfl, fun r' hr' => absurd hr' List.not_mem_nil, hr⟩
    | false =>
      rcases ih with hall | ⟨u, p, rest, rfl, hu, hp⟩
      · refine .inl fun r' hr' => ?_
        rcases List.mem_cons.mp hr' with rfl | hr'
        · exact hr
        · exact hall r' hr'
      · refine .inr ⟨r :: u, p, rest, rfl, fun r' hr' => ?_, hp⟩
        rcases List.mem_cons.mp hr' with rfl | hr'
        · exact hr
        · exact hu r' hr'

/-- A word is one punctuation mark or has none. -/
def WordRight (w : List Char) : Prop :=
  w ≠ [] ∧ ((∃ r, U.isPunct r = true ∧ w = [r]) ∨ ∀ r ∈ w, U.isPunct r = false)

/-- With punctuation of one byte each, a field is split rune by rune. -/
theorem splitPunct_right (fuel : Nat) {v : List Char} (hfuel : (encodeRunes v).length ≤ fuel)
    (h : ∀ r ∈ v, U.isPunct r = true → r.utf8Size = 1) :
    ∃ ws : List (List Char), splitPunct U fuel (encodeRunes v) = ws.map encodeRunes ∧
      ws.flatten = v ∧ ∀ w ∈ ws, WordRight U w := by
  induction fuel generalizing v with
  | zero =>
    cases v with
    | nil => exact ⟨[], rfl, rfl, fun w hw => absurd hw List.not_mem_nil⟩
    | cons r v =>
      have hpos := List.length_pos_iff.mpr (utf8EncodeChar_ne_nil r)
      rw [encodeRunes_cons, List.length_append] at hfuel
      omega
  | succ fuel ih =>
    rcases first_punct U v with hplain | ⟨u, p, rest, rfl, hu, hp⟩
    · by_cases hv : v = []
      · subst hv
        exact ⟨[], rfl, rfl, fun w hw => absurd hw List.not_mem_nil⟩
      · refine ⟨[v], splitPunct_plain U fuel hv hplain, List.append_nil v, fun w hw => ?_⟩
        obtain rfl := List.mem_singleton.mp hw
        exact ⟨hv, .inr hplain⟩
    · have hlen := congrArg List.length (encodeRunes_append u (p :: rest))
      rw [List.length_append] at hlen
      by_cases hnil : u = []
      · -- the byte is the whole punctuation mark
        subst hnil
        have hone := h p (List.mem_append_right [] List.mem_cons_self) hp
        rw [← String.length_utf8EncodeChar, List.length_eq_one_iff] at hone
        obtain ⟨b, hb⟩ := hone
        have hshorter : (encodeRunes rest).length ≤ fuel := by
          rw [List.nil_append, encodeRunes_cons, hb, List.length_append,
            List.length_singleton] at hfuel
          omega
        obtain ⟨ws, hws, hflat, hright⟩ := ih hshorter fun r hr =>
          h r (List.mem_cons_of_mem p hr)
        refine ⟨[p] :: ws, ?_, by rw [List.flatten_cons, hflat]; rfl, fun w hw => ?_⟩
        · rw [List.nil_append, splitPunct_front U fuel rest hp hb, List.nil_append, hws,
            List.map_cons, encodeRunes_cons, hb]
          rfl
        · rcases List.mem_cons.mp hw with rfl | hw
          · exact ⟨List.cons_ne_nil p [], .inl ⟨p, hp, rfl⟩⟩
          · exact hright w hw
      · have hpos : 0 < (encodeRunes u).length := by
          cases u with
          | nil => exact absurd rfl hnil
          | cons r u =>
            rw [encodeRunes_cons, List.length_append]
            have hpos := List.length_pos_iff.mpr (utf8EncodeChar_ne_nil r)
            omega
        obtain ⟨ws, hws, hflat, hright⟩ := ih (v := p :: rest) (by omega) fun r hr =>
          h r (List.mem_append_right u hr)
        refine ⟨u :: ws, ?_, by rw [List.flatten_cons, hflat], fun w hw => ?_⟩
        · rw [splitPunct_before U fuel hnil hu hp, hws, List.map_cons]
        · rcases List.mem_cons.mp hw with rfl | hw
          · exact ⟨hnil, .inr hu⟩
          · exact hright w hw

/-- The first byte of several is no valid string. -/
theorem not_valid_first {p : Char} {b : UInt8} {bs : GoString}
    (hbs : String.utf8EncodeChar p = b :: bs) (hsize : p.utf8Size ≠ 1) : ¬ValidUtf8 [b] := by
  rintro ⟨cs, hcs⟩
  cases cs with
  | nil => cases hcs
  | cons c cs =>
    have hc := decodeRune_encode_append c (encodeRunes cs ++ bs)
    rw [← List.append_assoc, ← encodeRunes_cons, ← hcs, List.singleton_append, ← hbs] at hc
    have hp := decodeRune_encode_append p []
    rw [List.append_nil, hc] at hp
    obtain rfl := Option.some.inj hp
    have hlen := congrArg List.length hcs
    rw [encodeRunes_cons, List.length_append, List.length_singleton,
      String.length_utf8EncodeChar] at hlen
    have hpos := Char.utf8Size_pos c
    omega

/-- Punctuation of several bytes gives a word that is not valid. -/
theorem splitPunct_wrong (fuel : Nat) {v : List Char} (hfuel : (encodeRunes v).length ≤ fuel)
    (h : ∃ r ∈ v, U.isPunct r = true ∧ r.utf8Size ≠ 1) :
    ∃ w ∈ splitPunct U fuel (encodeRunes v), ¬ValidUtf8 w := by
  induction fuel generalizing v with
  | zero =>
    obtain ⟨r, hr, -⟩ := h
    have hwithin := List.length_eq_zero_iff.mp (Nat.le_zero.mp hfuel)
    cases v with
    | nil => cases hr
    | cons c v =>
      rw [encodeRunes_cons] at hwithin
      exact absurd (List.append_eq_nil_iff.mp hwithin).1 (utf8EncodeChar_ne_nil c)
  | succ fuel ih =>
    obtain ⟨r, hr, hpunct, hsize⟩ := h
    rcases first_punct U v with hplain | ⟨u, p, rest, rfl, hu, hp⟩
    · rw [hplain r hr] at hpunct
      cases hpunct
    · have hlen := congrArg List.length (encodeRunes_append u (p :: rest))
      rw [List.length_append] at hlen
      have hbehind : r ∈ p :: rest := by
        rcases List.mem_append.mp hr with hr | hr
        · rw [hu r hr] at hpunct
          cases hpunct
        · exact hr
      by_cases hnil : u = []
      · subst hnil
        rw [List.nil_append] at hfuel ⊢
        cases hbs : String.utf8EncodeChar p with
        | nil => exact absurd hbs (utf8EncodeChar_ne_nil p)
        | cons b bs =>
          rw [splitPunct_front U fuel rest hp hbs]
          by_cases hone : p.utf8Size = 1
          · -- then the mark of several bytes is further on
            have hbs' : bs = [] := by
              have hlen := String.length_utf8EncodeChar p
              rw [hbs, hone, List.length_cons] at hlen
              exact List.length_eq_zero_iff.mp (by omega)
            have hshorter : (encodeRunes rest).length ≤ fuel := by
              rw [encodeRunes_cons, hbs, List.length_append, List.length_cons] at hfuel
              omega
            have hrest : r ∈ rest := by
              rcases List.mem_cons.mp hbehind with rfl | hrest
              · exact absurd hone hsize
              · exact hrest
            obtain ⟨w, hw, hbad⟩ := ih hshorter ⟨r, hrest, hpunct, hsize⟩
            rw [hbs', List.nil_append]
            exact ⟨w, List.mem_cons_of_mem _ hw, hbad⟩
          · exact ⟨[b], List.mem_cons_self, not_valid_first hbs hone⟩
      · have hpos : 0 < (encodeRunes u).length := by
          cases u with
          | nil => exact absurd rfl hnil
          | cons c u =>
            rw [encodeRunes_cons, List.length_append]
            have hpos := List.length_pos_iff.mpr (utf8EncodeChar_ne_nil c)
            omega
        obtain ⟨w, hw, hbad⟩ := ih (v := p :: rest) (by omega) ⟨r, hbehind, hpunct, hsize⟩
        rw [splitPunct_before U fuel hnil hu hp]
        exact ⟨w, List.mem_cons_of_mem _ hw, hbad⟩

/-! ## The words -/

theorem fields_right (rs : List Char) :
    (∀ w ∈ fieldsFunc isSpace [] (spaced rs), FieldRight w) ∧
      (fieldsFunc isSpace [] (spaced rs)).flatten = rs.filter fun r => !isSpace r :=
  fields_spaced rs fun _ hr => absurd hr List.not_mem_nil

/-- With punctuation of one byte each, the fields are split rune by rune. -/
theorem words_runes {rs : List Char} (h : ∀ r ∈ rs, U.isPunct r = true → r.utf8Size = 1) :
    ∃ ws : List (List Char), words U (encodeRunes rs) = ws.map encodeRunes ∧
      ws.flatten = (rs.filter fun r => !isSpace r) ∧
      ∀ w ∈ ws, WordRight U w ∧ ∃ field, FieldRight field ∧ w <:+: field := by
  obtain ⟨hfields, hflat⟩ := fields_right rs
  have hone : ∀ field ∈ fieldsFunc isSpace [] (spaced rs), ∀ r ∈ field,
      U.isPunct r = true → r.utf8Size = 1 := by
    intro field hfield r hr
    have hmem : r ∈ rs.filter fun r => !isSpace r := by
      rw [← hflat]
      exact List.mem_flatten.mpr ⟨field, hfield, hr⟩
    exact h r (List.mem_filter.mp hmem).1
  rw [← hflat, words, decodeRunes_encodeRunes]
  clear hflat h
  generalize fieldsFunc isSpace [] (spaced rs) = fields at hfields hone ⊢
  induction fields with
  | nil => exact ⟨[], rfl, rfl, fun w hw => absurd hw List.not_mem_nil⟩
  | cons field fields ih =>
    obtain ⟨ws, hws, hflat, hright⟩ := splitPunct_right U _ le_rfl (hone field List.mem_cons_self)
    obtain ⟨ws', hws', hflat', hright'⟩ := ih
      (fun w hw => hfields w (List.mem_cons_of_mem field hw))
      fun w hw => hone w (List.mem_cons_of_mem field hw)
    refine ⟨ws ++ ws', ?_, ?_, fun w hw => ?_⟩
    · rw [List.flatMap_cons, hws, hws', List.map_append]
    · rw [List.flatten_append, hflat, hflat', List.flatten_cons]
    · rcases List.mem_append.mp hw with hw | hw
      · refine ⟨hright w hw, field, hfields field List.mem_cons_self, ?_⟩
        rw [← hflat]
        exact List.infix_of_mem_flatten hw
      · exact hright' w hw

variable {U} in
/-- Punctuation of several bytes is in a field, and gives a word that is not valid. -/
theorem WordsRight.one_byte {rs : List Char} (h : WordsRight U rs) {r : Char} (hr : r ∈ rs)
    (hpunct : U.isPunct r = true) : r.utf8Size = 1 := by
  by_contra hsize
  obtain ⟨-, hflat⟩ := fields_right rs
  have hspace : isSpace r = false := by
    cases hs : isSpace r with
    | false => rfl
    | true =>
      rw [U.isPunct_space r hs] at hpunct
      cases hpunct
  have hmem : r ∈ rs.filter fun r => !isSpace r := List.mem_filter.mpr ⟨hr, by simp [hspace]⟩
  rw [← hflat] at hmem
  obtain ⟨field, hfield, hin⟩ := List.mem_flatten.mp hmem
  obtain ⟨w, hw, hbad⟩ := splitPunct_wrong U _ le_rfl ⟨r, hin, hpunct, hsize⟩
  refine hbad (h.valid w ?_).2
  rw [words, decodeRunes_encodeRunes]
  exact List.mem_flatMap.mpr ⟨field, hfield, hw⟩

theorem words_right {rs : List Char} (h : ∀ r ∈ rs, U.isPunct r = true → r.utf8Size = 1) :
    WordsRight U rs := by
  obtain ⟨ws, hws, hflat, hright⟩ := words_runes U h
  have hword : ∀ {w}, w ∈ words U (encodeRunes rs) → ∃ v ∈ ws, w = encodeRunes v := by
    intro w hw
    rw [hws] at hw
    obtain ⟨v, hv, rfl⟩ := List.mem_map.mp hw
    exact ⟨v, hv, rfl⟩
  -- a word with an ideograph is all of its field
  have halone : ∀ v ∈ ws, ∀ r ∈ v, isIdeograph r = true → v = [r] := by
    intro v hv r hr hideo
    obtain ⟨⟨hne, -⟩, field, hfield, hwithin⟩ := hright v hv
    have hone := hfield.alone r (hwithin.subset hr) hideo
    have hsub := hwithin.sublist
    rw [hone] at hsub
    exact (List.sublist_singleton.mp hsub).resolve_left hne
  refine ⟨fun w hw => ?_, fun w hw r hr => ?_, fun w hw => ?_, fun w hw r hr hideo => ?_,
    fun r hr hideo => ?_, ?_⟩
  · obtain ⟨v, hv, rfl⟩ := hword hw
    refine ⟨fun hnil => (hright v hv).1.1 ?_, validUtf8_encodeRunes v⟩
    rw [← decodeRunes_encodeRunes v, hnil]
    rfl
  · obtain ⟨v, hv, rfl⟩ := hword hw
    rw [decodeRunes_encodeRunes] at hr
    obtain ⟨-, field, hfield, hwithin⟩ := hright v hv
    exact hfield.noSpace r (hwithin.subset hr)
  · obtain ⟨v, hv, rfl⟩ := hword hw
    rw [decodeRunes_encodeRunes]
    exact (hright v hv).1.2.imp_left fun ⟨r, hr, hv⟩ => ⟨r, hr, by rw [hv]⟩
  · obtain ⟨v, hv, rfl⟩ := hword hw
    rw [decodeRunes_encodeRunes] at hr
    rw [halone v hv r hr hideo]
  · have hmem : r ∈ rs.filter fun r => !isSpace r :=
      List.mem_filter.mpr ⟨hr, by simp [isSpace_ideograph hideo]⟩
    rw [← hflat] at hmem
    obtain ⟨v, hv, hin⟩ := List.mem_flatten.mp hmem
    rw [hws, ← halone v hv r hin hideo]
    exact List.mem_map_of_mem hv
  · rw [hws, ← encodeRunes_flatten, hflat]

/-- The words of a text are right exactly when all its punctuation is of one byte. -/
theorem words_right_iff (rs : List Char) :
    WordsRight U rs ↔ ∀ r ∈ rs, U.isPunct r = true → r.utf8Size = 1 :=
  ⟨fun h _ hr hpunct => h.one_byte hr hpunct, words_right U⟩

/-- An ellipsis comes apart. -/
theorem words_not_right : ¬∃ U : Punctuation, WordsRight U ['\u2026'] := by
  rintro ⟨U, h⟩
  have hsize := h.one_byte List.mem_cons_self U.isPunct_ellipsis
  exact absurd hsize (by decide)

end WordPiece

end Prismalama.Tokenizer
