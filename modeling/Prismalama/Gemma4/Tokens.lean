import Prismalama.Gemma4.ToolCall

/-!
# Tool calls as tokens

The text of a tree is a list of tokens (`toks`), of which only some stand next to each other
(`fits_toks`). The first pass of the parser puts a placeholder for each string
(`replaceQuoted_toks`).
-/

namespace Prismalama.Gemma4

open Prismalama.Lib

variable {N : Type}

/-! ## Tokens -/

inductive Tok
  | punct (c : Char)
  | lit (s : List Char)
  | key (k : List Char)
  | str (s : List Char)

section

variable (numbers : Numbers N)

mutual

def toks : Value N → List Tok
  | .null => [.lit "<nil>".toList]
  | .bool b => [.lit (if b then "true".toList else "false".toList)]
  | .num n => [.lit (numbers.print n)]
  | .str s => [.str s]
  | .arr vs => .punct '[' :: itemToks true vs ++ [.punct ']']
  | .obj fs => .punct '{' :: entryToks true fs ++ [.punct '}']

def itemToks (first : Bool) : Values N → List Tok
  | .nil => []
  | .cons v vs => (if first then [] else [.punct ',']) ++ toks v ++ itemToks false vs

def entryToks (first : Bool) : Fields N → List Tok
  | .nil => []
  | .cons k v fs => (if first then [] else [.punct ',']) ++ .key k :: toks v ++ entryToks false fs

end

end

/-- The runes of a token as the renderer writes it. -/
def Tok.text : Tok → List Char
  | .punct c => [c]
  | .lit s => s
  | .key k => k ++ [':']
  | .str s => delimiter ++ s ++ delimiter

def render (ts : List Tok) : List Char := ts.flatMap Tok.text

/-- The tokens with `str i` for the `i`-th string. -/
def spell (key : List Char → List Char) (str : Nat → List Char) : Nat → List Tok → List Char
  | _, [] => []
  | i, .punct c :: ts => c :: spell key str i ts
  | i, .lit s :: ts => s ++ spell key str i ts
  | i, .key k :: ts => key k ++ ':' :: spell key str i ts
  | i, .str _ :: ts => str i ++ spell key str (i + 1) ts

def Tok.string : Tok → Option (List Char)
  | .str s => some s
  | _ => none

def strings (ts : List Tok) : List (List Char) := ts.filterMap Tok.string

@[simp]
theorem strings_nil : strings [] = [] := rfl

@[simp]
theorem strings_append (ts ts' : List Tok) : strings (ts ++ ts') = strings ts ++ strings ts' :=
  List.filterMap_append ..

@[simp]
theorem strings_punct (c : Char) (ts : List Tok) : strings (.punct c :: ts) = strings ts := rfl

@[simp]
theorem strings_lit (s : List Char) (ts : List Tok) : strings (.lit s :: ts) = strings ts := rfl

@[simp]
theorem strings_key (k : List Char) (ts : List Tok) : strings (.key k :: ts) = strings ts := rfl

@[simp]
theorem strings_str (s : List Char) (ts : List Tok) : strings (.str s :: ts) = s :: strings ts := rfl

theorem spell_append (key : List Char → List Char) (str : Nat → List Char) (i : Nat)
    (ts ts' : List Tok) :
    spell key str i (ts ++ ts') = spell key str i ts ++ spell key str (i + (strings ts).length) ts' := by
  induction ts generalizing i with
  | nil => rfl
  | cons t ts ih =>
    cases t with
    | punct c => rw [List.cons_append, spell, spell, ih, strings_punct, List.cons_append]
    | lit s => rw [List.cons_append, spell, spell, ih, strings_lit, List.append_assoc]
    | key k => rw [List.cons_append, spell, spell, ih, strings_key, List.append_assoc, List.cons_append]
    | str s =>
      have hcount : i + ((strings ts).length + 1) = i + 1 + (strings ts).length := by omega
      rw [List.cons_append, spell, spell, ih, strings_str, List.length_cons, List.append_assoc,
        hcount]

section

variable (numbers : Numbers N)

mutual

theorem render_toks : ∀ v : Value N, render (toks numbers v) = formatArgValue numbers v
  | .null => by simp [toks, render, formatArgValue, Tok.text]
  | .bool b => by simp [toks, render, formatArgValue, Tok.text]
  | .num n => by simp [toks, render, formatArgValue, Tok.text]
  | .str s => by simp [toks, render, formatArgValue, Tok.text]
  | .arr vs => by
    have hvs := render_itemToks true vs
    rw [render] at hvs
    simp [toks, render, formatArgValue, Tok.text, hvs]
  | .obj fs => by
    have hfs := render_entryToks true fs
    rw [render] at hfs
    simp [toks, render, formatArgValue, Tok.text, hfs]

theorem render_itemToks (first : Bool) :
    ∀ vs : Values N, render (itemToks numbers first vs) = formatItems numbers first vs
  | .nil => rfl
  | .cons v vs => by
    have hv := render_toks v
    have hvs := render_itemToks false vs
    rw [render] at hv hvs
    cases first <;> simp [itemToks, render, formatItems, Tok.text, hv, hvs]

theorem render_entryToks (first : Bool) :
    ∀ fs : Fields N, render (entryToks numbers first fs) = formatEntries numbers first fs
  | .nil => rfl
  | .cons k v fs => by
    have hv := render_toks v
    have hfs := render_entryToks false fs
    rw [render] at hv hfs
    cases first <;> simp [entryToks, render, formatEntries, Tok.text, hv, hfs]

end

end

/-! ## Which tokens follow each other -/

/-- A rune of a number, of a boolean or of null. -/
def isLitRune (c : Char) : Bool :=
  isNumChar c || c ∈ ['t', 'r', 'u', 'e', 'f', 'a', 'l', 's', 'n', 'i', '<', '>']

/-- The runes of a token are of its kind. -/
def Tok.Lexical (letters : Letters) : Tok → Prop
  | .punct c => c ∈ ['{', '}', '[', ']', ',']
  | .lit s => s ≠ [] ∧ ∀ c ∈ s, isLitRune c = true
  | .key k => k ≠ [] ∧ ∀ c ∈ k, letters.isKeyRune c = true
  | .str s => ¬delimiter <:+: s

def Tok.startsValue : Tok → Bool
  | .punct c => c == '[' || c == '{'
  | .lit _ => true
  | .key _ => false
  | .str _ => true

def Tok.endsValue : Tok → Bool
  | .punct c => c == ']' || c == '}'
  | .lit _ => true
  | .key _ => false
  | .str _ => true

/-- A comma or the end of an array or object. -/
def Tok.isEnd : Tok → Bool
  | .punct c => c == ',' || c == ']' || c == '}'
  | _ => false

def Tok.isKey : Tok → Bool
  | .key _ => true
  | _ => false

/-- What may stand next to each other. -/
def Tok.Next : Tok → Tok → Prop
  | .punct c, t =>
    if c = ']' ∨ c = '}' then t.isEnd = true
    else t ≠ .punct ',' ∧ (c = '[' → t.isKey = false)
  | .key _, t => t.startsValue = true
  | _, t => t.isEnd = true

/-- Tokens of a text. -/
structure Fits (letters : Letters) (ts : List Tok) : Prop where
  lexical : ∀ t ∈ ts, t.Lexical letters
  next : ts.IsChain Tok.Next

theorem Fits.nil {letters : Letters} : Fits letters [] :=
  ⟨fun _ h => absurd h List.not_mem_nil, .nil⟩

theorem fits_cons {letters : Letters} {t : Tok} {ts : List Tok} : Fits letters (t :: ts) ↔
    t.Lexical letters ∧ (∀ t', ts.head? = some t' → t.Next t') ∧ Fits letters ts := by
  constructor
  · intro h
    obtain ⟨hnext, hchain⟩ := List.isChain_cons.mp h.next
    exact ⟨h.lexical t (List.mem_cons_self ..), hnext,
      ⟨fun t' ht' => h.lexical t' (List.mem_cons_of_mem t ht'), hchain⟩⟩
  · rintro ⟨hlexical, hnext, hrest⟩
    exact ⟨List.forall_mem_cons.mpr ⟨hlexical, hrest.lexical⟩,
      List.isChain_cons.mpr ⟨hnext, hrest.next⟩⟩

theorem Fits.right {letters : Letters} {ts ts' : List Tok} (h : Fits letters (ts ++ ts')) :
    Fits letters ts' :=
  ⟨fun t ht => h.lexical t (List.mem_append_right ts ht), h.next.right_of_append⟩

/-! ## Trees -/

mutual

/-- There is no null, keys are identifiers and stand in their order, and strings do not contain the
delimiter. -/
def WellFormed (letters : Letters) : Value N → Prop
  | .null => False
  | .bool _ => True
  | .num _ => True
  | .str s => ¬delimiter <:+: s
  | .arr vs => WellFormedItems letters vs
  | .obj fs => WellFormedEntries letters fs

def WellFormedItems (letters : Letters) : Values N → Prop
  | .nil => True
  | .cons v vs => WellFormed letters v ∧ WellFormedItems letters vs

def WellFormedEntries (letters : Letters) : Fields N → Prop
  | .nil => True
  | .cons k v fs =>
    (k ≠ [] ∧ ∀ c ∈ k, letters.isKeyRune c = true) ∧ (∀ k' ∈ fs.keys, k < k') ∧
      WellFormed letters v ∧ WellFormedEntries letters fs

end

section

variable {numbers : Numbers N} {letters : Letters}

theorem head_toks (v : Value N) : ∃ t ts, toks numbers v = t :: ts ∧ t.startsValue = true := by
  cases v with
  | null => exact ⟨_, _, rfl, rfl⟩
  | bool b => exact ⟨_, _, rfl, rfl⟩
  | num n => exact ⟨_, _, rfl, rfl⟩
  | str s => exact ⟨_, _, rfl, rfl⟩
  | arr vs => exact ⟨_, _, rfl, rfl⟩
  | obj fs => exact ⟨_, _, rfl, rfl⟩

theorem Tok.ne_comma {t : Tok} (h : t.startsValue = true) : t ≠ .punct ',' := by
  rintro rfl
  cases h

theorem Tok.isKey_of_startsValue {t : Tok} (h : t.startsValue = true) : t.isKey = false := by
  cases t with
  | key k => cases h
  | punct c => rfl
  | lit s => rfl
  | str s => rfl

theorem Tok.isKey_of_isEnd {t : Tok} (h : t.isEnd = true) : t.isKey = false := by
  cases t with
  | key k => cases h
  | punct c => rfl
  | lit s => rfl
  | str s => rfl

/-- The end of a value, or nothing. -/
def Ends (ts : List Tok) : Prop := ∀ t, ts.head? = some t → t.isEnd = true

theorem ends_itemToks (vs : Values N) {rest : List Tok} (hrest : Ends rest) :
    Ends (itemToks numbers false vs ++ rest) := by
  cases vs with
  | nil => exact hrest
  | cons v vs =>
    intro t ht
    obtain rfl := Option.some.inj ht
    rfl

theorem ends_entryToks (fs : Fields N) {rest : List Tok} (hrest : Ends rest) :
    Ends (entryToks numbers false fs ++ rest) := by
  cases fs with
  | nil => exact hrest
  | cons k v fs =>
    intro t ht
    obtain rfl := Option.some.inj ht
    rfl

theorem fits_close {c : Char} (hc : c = ']' ∨ c = '}') {rest : List Tok}
    (h : Fits letters rest) (hrest : Ends rest) : Fits letters (.punct c :: rest) := by
  refine fits_cons.mpr ⟨?_, fun t ht => ?_, h⟩
  · rcases hc with rfl | rfl <;> simp [Tok.Lexical]
  · rw [Tok.Next, if_pos hc]
    exact hrest t ht

theorem fits_lit {s : List Char} (hne : s ≠ []) (hs : ∀ c ∈ s, isLitRune c = true)
    {rest : List Tok} (h : Fits letters rest) (hrest : Ends rest) :
    Fits letters (.lit s :: rest) := fits_cons.mpr ⟨⟨hne, hs⟩, hrest, h⟩

theorem isLitRune_word {s : String} (h : s.toList.all isLitRune = true) :
    ∀ c ∈ s.toList, isLitRune c = true := List.all_eq_true.mp h

mutual

theorem fits_toks (v : Value N) (hv : WellFormed letters v) {rest : List Tok}
    (h : Fits letters rest) (hrest : Ends rest) : Fits letters (toks numbers v ++ rest) := by
  match v with
  | .null => exact absurd hv id
  | .bool true => exact fits_lit (by decide) (isLitRune_word (by decide)) h hrest
  | .bool false => exact fits_lit (by decide) (isLitRune_word (by decide)) h hrest
  | .num n =>
    obtain ⟨hne, hchars⟩ := isNumChar_of_isNumber (numbers.isNumber_print n)
    exact fits_lit hne (fun c hc => by simp [isLitRune, hchars c hc]) h hrest
  | .str s => exact fits_cons.mpr ⟨hv, hrest, h⟩
  | .arr vs =>
    rw [toks, List.cons_append, List.cons_append, List.append_assoc]
    refine fits_cons.mpr ⟨by simp [Tok.Lexical], fun t ht => ?_,
      fits_itemToks vs hv true (fits_close (Or.inl rfl) h hrest) fun t ht => ?_⟩
    · rw [Tok.Next, if_neg (by decide)]
      cases vs with
      | nil =>
        obtain rfl := Option.some.inj ht
        exact ⟨by simp, fun _ => rfl⟩
      | cons v vs =>
        obtain ⟨t', ts, hhead, hstart⟩ := @head_toks N numbers v
        rw [itemToks, if_pos rfl, List.nil_append, hhead] at ht
        obtain rfl := Option.some.inj ht
        exact ⟨Tok.ne_comma hstart, fun _ => Tok.isKey_of_startsValue hstart⟩
    · obtain rfl := Option.some.inj ht
      rfl
  | .obj fs =>
    rw [toks, List.cons_append, List.cons_append, List.append_assoc]
    refine fits_cons.mpr ⟨by simp [Tok.Lexical], fun t ht => ?_,
      fits_entryToks fs hv true (fits_close (Or.inr rfl) h hrest) fun t ht => ?_⟩
    · rw [Tok.Next, if_neg (by decide)]
      cases fs with
      | nil =>
        obtain rfl := Option.some.inj ht
        exact ⟨by simp, fun h => absurd h (by decide)⟩
      | cons k v fs =>
        obtain rfl := Option.some.inj ht
        exact ⟨by simp, fun h => absurd h (by decide)⟩
    · obtain rfl := Option.some.inj ht
      rfl

theorem fits_itemToks (vs : Values N) (hvs : WellFormedItems letters vs) (first : Bool)
    {rest : List Tok} (h : Fits letters rest) (hrest : Ends rest) :
    Fits letters (itemToks numbers first vs ++ rest) := by
  match vs with
  | .nil => exact h
  | .cons v vs =>
    have hitems := fits_toks v hvs.1 (fits_itemToks vs hvs.2 false h hrest)
      (ends_itemToks vs hrest)
    rw [itemToks, List.append_assoc, List.append_assoc]
    cases first with
    | true => exact hitems
    | false =>
      refine fits_cons.mpr ⟨by simp [Tok.Lexical], fun t ht => ?_, hitems⟩
      obtain ⟨t', ts, hhead, hstart⟩ := @head_toks N numbers v
      rw [hhead] at ht
      obtain rfl := Option.some.inj ht
      rw [Tok.Next, if_neg (by decide)]
      exact ⟨Tok.ne_comma hstart, fun h => absurd h (by decide)⟩

theorem fits_entryToks (fs : Fields N) (hfs : WellFormedEntries letters fs) (first : Bool)
    {rest : List Tok} (h : Fits letters rest) (hrest : Ends rest) :
    Fits letters (entryToks numbers first fs ++ rest) := by
  match fs with
  | .nil => exact h
  | .cons k v fs =>
    obtain ⟨hk, -, hv, hfs⟩ := hfs
    have hvalue := fits_toks v hv (fits_entryToks fs hfs false h hrest) (ends_entryToks fs hrest)
    have hentry : Fits letters (.key k :: (toks numbers v ++ (entryToks numbers false fs ++ rest))) := by
      refine fits_cons.mpr ⟨hk, fun t ht => ?_, hvalue⟩
      obtain ⟨t', ts, hhead, hstart⟩ := @head_toks N numbers v
      rw [hhead] at ht
      obtain rfl := Option.some.inj ht
      exact hstart
    rw [entryToks, List.append_assoc, List.append_assoc]
    cases first with
    | true => exact hentry
    | false =>
      refine fits_cons.mpr ⟨by simp [Tok.Lexical], fun t ht => ?_, hentry⟩
      obtain rfl := Option.some.inj ht
      rw [Tok.Next, if_neg (by decide)]
      exact ⟨by simp, fun h => absurd h (by decide)⟩

end

end

/-! ## Strings become placeholders -/

/-- A delimiter does not start in a text without bars. -/
theorem cut_delimiter {p s : List Char} (hp : '|' ∉ p) (hs : s.head? ≠ some '|') :
    cut delimiter (p ++ s) = (cut delimiter s).map fun q => (p ++ q.1, q.2) := by
  induction p with
  | nil =>
    cases hcut : cut delimiter s with
    | none => rw [List.nil_append, hcut]; rfl
    | some q => rw [List.nil_append, hcut]; rfl
  | cons c p ih =>
    obtain ⟨-, hp⟩ := not_or.mp (mt List.mem_cons.mpr hp)
    have hnot : ¬delimiter <+: c :: (p ++ s) := by
      rintro ⟨t, ht⟩
      have hbar := (List.cons.inj ht).2
      cases p with
      | nil => exact hs (by rw [← List.nil_append s, ← hbar]; rfl)
      | cons d p => exact hp ((List.cons.inj hbar).1 ▸ List.mem_cons_self ..)
    rw [List.cons_append, cut, if_neg hnot, ih hp]
    cases cut delimiter s <;> rfl

/-- Up to the delimiter behind a string without one. -/
theorem cut_string {v : List Char} (hv : ¬delimiter <:+: v) (s : List Char) :
    cut delimiter (v ++ (delimiter ++ s)) = some (v, s) := by
  induction v with
  | nil =>
    rw [List.nil_append, cut_of_starts (List.prefix_append ..), List.drop_left' rfl]
  | cons c v ih =>
    have hrest : ¬delimiter <:+: v := fun h => hv (h.trans (List.suffix_cons c v).isInfix)
    have hnot : ¬delimiter <+: c :: (v ++ (delimiter ++ s)) := by
      intro h
      -- a delimiter that ends in the next one would begin as it ends
      rcases v with _ | ⟨a, _ | ⟨b, _ | ⟨d, _ | ⟨e, v⟩⟩⟩⟩
      · simp [delimiter] at h
      · simp [delimiter] at h
      · simp [delimiter] at h
      · simp [delimiter] at h
      · refine hv (List.IsPrefix.isInfix ?_)
        exact List.prefix_of_prefix_length_le h
          (List.prefix_append (c :: a :: b :: d :: e :: v) (delimiter ++ s)) (by simp [delimiter])
    rw [List.cons_append, cut, if_neg hnot, ih hrest]
    rfl

theorem replaceQuoted_none {s : List Char} (h : cut delimiter s = none) (i : Nat) :
    replaceQuoted i s = (s, []) := by
  rw [replaceQuoted]
  split
  · rfl
  · rename_i hcut
    rw [h] at hcut
    cases hcut

theorem replaceQuoted_open {s a b : List Char} (h : cut delimiter s = some (a, b))
    (hb : cut delimiter b = none) (i : Nat) : replaceQuoted i s = (s, []) := by
  rw [replaceQuoted]
  split
  · rfl
  · rename_i hcut
    obtain ⟨rfl, rfl⟩ := Prod.mk.inj (Option.some.inj (h.symm.trans hcut))
    split
    · rfl
    · rename_i hcut'
      rw [hb] at hcut'
      cases hcut'

theorem replaceQuoted_some {s a b v r : List Char} (h : cut delimiter s = some (a, b))
    (hb : cut delimiter b = some (v, r)) (i : Nat) :
    replaceQuoted i s = (a ++ placeholder i ++ (replaceQuoted (i + 1) r).1,
      v :: (replaceQuoted (i + 1) r).2) := by
  rw [replaceQuoted]
  split
  · rename_i hcut
    rw [h] at hcut
    cases hcut
  · rename_i hcut
    obtain ⟨rfl, rfl⟩ := Prod.mk.inj (Option.some.inj (h.symm.trans hcut))
    split
    · rename_i hcut'
      rw [hb] at hcut'
      cases hcut'
    · rename_i hcut'
      obtain ⟨rfl, rfl⟩ := Prod.mk.inj (Option.some.inj (hb.symm.trans hcut'))
      rfl

theorem replaceQuoted_plain {p s : List Char} (hp : '|' ∉ p) (hs : s.head? ≠ some '|') (i : Nat) :
    replaceQuoted i (p ++ s) = (p ++ (replaceQuoted i s).1, (replaceQuoted i s).2) := by
  have hcut := cut_delimiter hp hs
  cases hopen : cut delimiter s with
  | none =>
    rw [hopen] at hcut
    rw [replaceQuoted_none hopen, replaceQuoted_none hcut]
  | some q =>
    obtain ⟨a, b⟩ := q
    rw [hopen] at hcut
    cases hclose : cut delimiter b with
    | none => rw [replaceQuoted_open hopen hclose, replaceQuoted_open hcut hclose]
    | some q =>
      obtain ⟨v, r⟩ := q
      rw [replaceQuoted_some hopen hclose, replaceQuoted_some hcut hclose]
      simp

theorem replaceQuoted_string {v : List Char} (hv : ¬delimiter <:+: v) (i : Nat) (s : List Char) :
    replaceQuoted i (delimiter ++ v ++ delimiter ++ s) =
      (placeholder i ++ (replaceQuoted (i + 1) s).1, v :: (replaceQuoted (i + 1) s).2) := by
  have hopen : cut delimiter (delimiter ++ v ++ delimiter ++ s) =
      some ([], v ++ (delimiter ++ s)) := by
    rw [List.append_assoc, List.append_assoc, cut_of_starts (List.prefix_append ..),
      List.drop_left' rfl]
  rw [replaceQuoted_some hopen (cut_string hv s), List.nil_append]

/-! ## The runes of the tokens -/

theorem isKeyRune_ascii {letters : Letters} {k : List Char} (hk : ∀ c ∈ k, letters.isKeyRune c = true)
    {c : Char} (hascii : c.toNat < 128)
    (hc : (c == '_' || ('a' ≤ c && c ≤ 'z') || ('A' ≤ c && c ≤ 'Z') || isDigit c) = false) :
    c ∉ k := by
  intro hmem
  have h := hk c hmem
  rw [letters.ascii c hascii, hc] at h
  cases h

theorem not_isLitRune {s : List Char} (hs : ∀ c ∈ s, isLitRune c = true) {c : Char}
    (hc : isLitRune c = false) : c ∉ s := by
  intro hmem
  rw [hs c hmem] at hc
  cases hc

/-- The first rune of a token. -/
theorem head_text {letters : Letters} {t : Tok} (h : t.Lexical letters) :
    ∃ c s, t.text = c :: s ∧ c ≠ '|' := by
  cases t with
  | punct c =>
    refine ⟨c, [], rfl, ?_⟩
    rintro rfl
    revert h
    simp [Tok.Lexical]
  | lit s =>
    obtain ⟨hne, hs⟩ := h
    obtain ⟨c, s, rfl⟩ := List.exists_cons_of_ne_nil hne
    refine ⟨c, s, rfl, ?_⟩
    rintro rfl
    exact not_isLitRune hs (by decide) (List.mem_cons_self ..)
  | key k =>
    obtain ⟨hne, hk⟩ := h
    obtain ⟨c, k, rfl⟩ := List.exists_cons_of_ne_nil hne
    refine ⟨c, k ++ [':'], rfl, ?_⟩
    rintro rfl
    exact isKeyRune_ascii hk (by decide) (by decide) (List.mem_cons_self ..)
  | str s => exact ⟨_, _, rfl, by decide⟩

theorem head_render {letters : Letters} {ts : List Tok} (h : Fits letters ts) :
    (render ts).head? ≠ some '|' := by
  cases ts with
  | nil => simp [render]
  | cons t ts =>
    obtain ⟨c, s, htext, hc⟩ := head_text (fits_cons.mp h).1
    rw [render, List.flatMap_cons, htext]
    simpa using hc

theorem render_cons (t : Tok) (ts : List Tok) : render (t :: ts) = t.text ++ render ts := rfl

/-- The strings are taken out of the text in their order. -/
theorem replaceQuoted_toks {letters : Letters} {ts : List Tok} (h : Fits letters ts) (i : Nat) :
    replaceQuoted i (render ts) = (spell id placeholder i ts, strings ts) := by
  induction ts generalizing i with
  | nil => exact replaceQuoted_none (by decide) i
  | cons t ts ih =>
    obtain ⟨hlexical, -, hrest⟩ := fits_cons.mp h
    have hhead := head_render hrest
    rw [render_cons]
    cases t with
    | punct c =>
      have hc : '|' ∉ [c] := by
        rw [List.mem_singleton]
        rintro rfl
        revert hlexical
        simp [Tok.Lexical]
      rw [Tok.text, replaceQuoted_plain hc hhead, ih hrest]
      rfl
    | lit s =>
      rw [Tok.text, replaceQuoted_plain (not_isLitRune hlexical.2 (by decide)) hhead, ih hrest]
      rfl
    | key k =>
      have hk : '|' ∉ k ++ [':'] := by
        have hmem := isKeyRune_ascii hlexical.2 (c := '|') (by decide) (by decide)
        simpa using hmem
      rw [Tok.text, replaceQuoted_plain hk hhead, ih hrest]
      simp [spell]
    | str s =>
      rw [Tok.text, replaceQuoted_string hlexical, ih hrest]
      rfl

end Prismalama.Gemma4
