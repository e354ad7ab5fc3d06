import Prismalama.Gemma4.Tokens

/-!
# Round trip of tool calls

The other passes of the parser rewrite the tokens in place: keys get quotes (`quote_toks`) and
placeholders become JSON strings (`putBack_toks`). The last text is decoded as the tree
(`parseValue_toks`), so that a call comes back from what the renderer writes for it
(`parseGemma4ToolCall_callText`).

The placeholder of the 45th string has a comma in it. Where two later strings stand side by side
in an array, the comma between them is taken for it.
-/

namespace Prismalama.Gemma4

open Prismalama.Lib

variable {N : Type} {letters : Letters}

/-! ## The runes of a text without strings -/

theorem not_isKeyRune {c : Char} (hascii : c.toNat < 128)
    (hc : (c == '_' || ('a' ≤ c && c ≤ 'z') || ('A' ≤ c && c ≤ 'Z') || isDigit c) = false) :
    letters.isKeyRune c = false := (letters.ascii c hascii).trans hc

theorem mem_punct {c d : Char} (h : c ∈ ['{', '}', '[', ']', ','])
    (hd : d ∉ ['{', '}', '[', ']', ',']) : c ≠ d := by
  rintro rfl
  exact hd h

theorem toNat_runeOf {i : Nat} (h : i.isValidChar) : (runeOf i).toNat = i := by
  rw [runeOf, if_pos h, Char.ofNat, dif_pos h]
  rfl

/-- A rune that no placeholder has but its own. -/
theorem runeOf_eq {i : Nat} {c : Char} (h : runeOf i = c) (hc : c ≠ '\uFFFD') : i = c.toNat := by
  by_cases hvalid : i.isValidChar
  · rw [← h, toNat_runeOf hvalid]
  · rw [runeOf, if_neg hvalid] at h
    exact absurd h.symm hc

theorem mem_placeholder {i : Nat} {c : Char} (h : c ∈ placeholder i) :
    c = '\x00' ∨ c = runeOf i := by
  simp only [placeholder, List.mem_cons, List.not_mem_nil, or_false] at h
  tauto

/-- Behind the 35th placeholder there are no quotes. -/
theorem quote_not_mem_spell {ts : List Tok} (h : Fits letters ts) {i : Nat} (hi : 34 < i) :
    '"' ∉ spell id placeholder i ts := by
  induction ts generalizing i with
  | nil => exact List.not_mem_nil
  | cons t ts ih =>
    obtain ⟨hlexical, -, hrest⟩ := fits_cons.mp h
    have htail := ih hrest hi
    cases t with
    | punct c =>
      have hc : '"' ≠ c := (mem_punct hlexical (by decide)).symm
      simpa [spell, hc] using htail
    | lit s =>
      have hs : '"' ∉ s := not_isLitRune hlexical.2 (by decide)
      simpa [spell, hs] using htail
    | key k =>
      have hk : '"' ∉ k := isKeyRune_ascii hlexical.2 (by decide) (by decide)
      simpa [spell, hk] using htail
    | str s =>
      have hplace : '"' ∉ placeholder i := by
        intro hmem
        rcases mem_placeholder hmem with hzero | hrune
        · exact absurd hzero (by decide)
        · have hi' : i = 34 := runeOf_eq hrune.symm (by decide)
          omega
      have htail := @ih hrest (i + 1) (by omega)
      simp only [spell, List.mem_append, not_or]
      exact ⟨hplace, htail⟩

/-! ## Keys get quotes -/

def quoted (k : List Char) : List Char := '"' :: k ++ ['"']

theorem quotedEnd_none {s : List Char} (hs : '"' ∉ s) (escaped : Bool) :
    quotedEnd '"' escaped s = none := by
  induction s generalizing escaped with
  | nil => rfl
  | cons c s ih =>
    obtain ⟨hc, hs⟩ := not_or.mp (mt List.mem_cons.mpr hs)
    have hne : c ≠ '"' := fun heq => hc heq.symm
    rw [quotedEnd, if_neg (fun h => hne h.1), ih hs]
    rfl

/-- What stands here is not a key and a colon. -/
structure NoKey (letters : Letters) (s : List Char) : Prop where
  trimLeft_eq : trimLeft s = s
  not_key : s.takeWhile letters.isKeyRune = [] ∨
    (s.dropWhile letters.isKeyRune).head? ≠ some ':'

theorem leading_eq_nil {s : List Char} (h : trimLeft s = s) : leading s = [] := by
  have hboth := leading_append_trimLeft s
  rw [h] at hboth
  exact List.append_left_eq_self.mp hboth

theorem quote_plain {c : Char} (hquote : c ≠ '"') (hbrace : c ≠ '{') (hcomma : c ≠ ',')
    (s : List Char) : quoteGemma4BareKeys letters (c :: s) = c :: quoteGemma4BareKeys letters s := by
  rw [quoteGemma4BareKeys, if_neg hquote, if_pos ⟨hbrace, hcomma⟩]

theorem quote_quote {s : List Char} (hs : '"' ∉ s) :
    quoteGemma4BareKeys letters ('"' :: s) = '"' :: quoteGemma4BareKeys letters s := by
  rw [quoteGemma4BareKeys, if_pos rfl]
  split
  · rename_i hend
    rw [quotedEnd_none hs] at hend
    cases hend
  · rfl

theorem quote_noKey {c : Char} (hc : c = '{' ∨ c = ',') {s : List Char} (hs : NoKey letters s) :
    quoteGemma4BareKeys letters (c :: s) = c :: quoteGemma4BareKeys letters s := by
  have hquote : c ≠ '"' := by
    rcases hc with rfl | rfl
    · decide
    · decide
  have hboth : ¬(c ≠ '{' ∧ c ≠ ',') := by
    rintro ⟨hbrace, hcomma⟩
    exact hc.elim hbrace hcomma
  have hkey : ¬(s.takeWhile letters.isKeyRune ≠ [] ∧
      (s.dropWhile letters.isKeyRune).head? = some ':') := by
    rintro ⟨hne, hcolon⟩
    exact hs.not_key.elim hne fun h => h hcolon
  rw [quoteGemma4BareKeys, if_neg hquote, if_neg hboth]
  simp only [hs.trimLeft_eq, leading_eq_nil hs.trimLeft_eq]
  rw [if_neg hkey]
  rfl

theorem quote_key {c : Char} (hc : c = '{' ∨ c = ',') {k : List Char} (hne : k ≠ [])
    (hk : ∀ d ∈ k, letters.isKeyRune d = true) (s : List Char) :
    quoteGemma4BareKeys letters (c :: (k ++ ':' :: s)) =
      c :: (quoted k ++ ':' :: quoteGemma4BareKeys letters s) := by
  have hquote : c ≠ '"' := by
    rcases hc with rfl | rfl
    · decide
    · decide
  have hboth : ¬(c ≠ '{' ∧ c ≠ ',') := by
    rintro ⟨hbrace, hcomma⟩
    exact hc.elim hbrace hcomma
  have hcolon : letters.isKeyRune ':' = false := not_isKeyRune (by decide) (by decide)
  have htrim : trimLeft (k ++ ':' :: s) = k ++ ':' :: s := by
    obtain ⟨d, k, rfl⟩ := List.exists_cons_of_ne_nil hne
    have hspace := letters.not_space d (hk d List.mem_cons_self)
    rw [trimLeft, List.cons_append, List.dropWhile_cons_of_neg (by rw [hspace]; decide)]
  have htake : (k ++ ':' :: s).takeWhile letters.isKeyRune = k := by
    rw [List.takeWhile_append_of_pos hk, List.takeWhile_cons_of_neg (by rw [hcolon]; decide),
      List.append_nil]
  have hdrop : (k ++ ':' :: s).dropWhile letters.isKeyRune = ':' :: s := by
    rw [List.dropWhile_append_of_pos hk, List.dropWhile_cons_of_neg (by rw [hcolon]; decide)]
  rw [quoteGemma4BareKeys, if_neg hquote, if_neg hboth]
  simp only [htrim, leading_eq_nil htrim, htake, hdrop]
  rw [if_pos ⟨hne, rfl⟩]
  simp [quoted]

theorem noKey_cons {c : Char} (hspace : isSpace c = false) (hkey : letters.isKeyRune c = false)
    (s : List Char) : NoKey letters (c :: s) := by
  refine ⟨?_, .inl ?_⟩
  · rw [trimLeft, List.dropWhile_cons_of_neg (by rw [hspace]; decide)]
  · rw [List.takeWhile_cons_of_neg (by rw [hkey]; decide)]

/-- A placeholder stays as it is. -/
theorem quote_placeholder {i : Nat} {s : List Char} (hs : i = 34 → '"' ∉ s) :
    quoteGemma4BareKeys letters (placeholder i ++ s) =
      placeholder i ++ quoteGemma4BareKeys letters s := by
  have hclose : quoteGemma4BareKeys letters ('\x00' :: s) =
      '\x00' :: quoteGemma4BareKeys letters s :=
    quote_plain (by decide) (by decide) (by decide) s
  show quoteGemma4BareKeys letters ('\x00' :: runeOf i :: '\x00' :: s) =
    '\x00' :: runeOf i :: '\x00' :: quoteGemma4BareKeys letters s
  rw [quote_plain (by decide) (by decide) (by decide), ← hclose]
  refine congrArg _ ?_
  by_cases hquote : runeOf i = '"'
  · rw [hquote]
    refine quote_quote fun hmem => ?_
    rcases List.mem_cons.mp hmem with hzero | hmem
    · exact absurd hzero (by decide)
    · exact hs (runeOf_eq hquote (by decide)) hmem
  · by_cases hsep : runeOf i = '{' ∨ runeOf i = ','
    · exact quote_noKey hsep (noKey_cons (by decide) (not_isKeyRune (by decide) (by decide)) s)
    · obtain ⟨hbrace, hcomma⟩ := not_or.mp hsep
      exact quote_plain hquote hbrace hcomma _

theorem isLitRune_cases {c : Char} (h : isLitRune c = true) : 32 < c.toNat ∧ c.toNat < 128 := by
  simp only [isLitRune, isNumChar, Bool.or_eq_true, decide_eq_true_eq, List.mem_cons,
    List.not_mem_nil, or_false, beq_iff_eq] at h
  by_cases hdigit : isDigit c = true
  · simp only [isDigit, Bool.and_eq_true, decide_eq_true_eq] at hdigit
    have hlow : '0'.toNat ≤ c.toNat := hdigit.1
    have hhigh : c.toNat ≤ '9'.toNat := hdigit.2
    have hzero : '0'.toNat = 48 := by decide
    have hnine : '9'.toNat = 57 := by decide
    omega
  · simp only [hdigit, Bool.false_eq_true, false_or] at h
    rcases h with h | h
    · rcases h with (((rfl | rfl) | rfl) | rfl) | rfl <;> decide
    · rcases h with rfl | rfl | rfl | rfl | rfl | rfl | rfl | rfl | rfl | rfl | rfl | rfl <;> decide

theorem isSpace_lit {c : Char} (h : isLitRune c = true) : isSpace c = false := by
  obtain ⟨hlow, hhigh⟩ := isLitRune_cases h
  simp only [isSpace, Bool.or_eq_false_iff, Bool.and_eq_false_iff, decide_eq_false_iff_not,
    beq_eq_false_iff_ne]
  omega

theorem noKey_punct {c : Char} (h : c ∈ ['{', '}', '[', ']', ',']) (s : List Char) :
    NoKey letters (c :: s) := by
  have hascii : c.toNat < 128 ∧ isSpace c = false ∧
      (c == '_' || ('a' ≤ c && c ≤ 'z') || ('A' ≤ c && c ≤ 'Z') || isDigit c) = false := by
    simp only [List.mem_cons, List.not_mem_nil, or_false] at h
    rcases h with rfl | rfl | rfl | rfl | rfl <;> decide
  exact noKey_cons hascii.2.1 (not_isKeyRune hascii.1 hascii.2.2) s

/-- What stands behind a value is not a key. -/
theorem head_spell_of_isEnd {ts : List Tok} (h : Ends ts) (hts : Fits letters ts) (i : Nat) (c : Char)
    (hc : (spell id placeholder i ts).head? = some c) : c ∈ [',', ']', '}'] := by
  cases ts with
  | nil => cases hc
  | cons t ts =>
    have hend := h t rfl
    cases t with
    | punct d =>
      obtain rfl := Option.some.inj hc
      simp only [Tok.isEnd, Bool.or_eq_true, beq_iff_eq] at hend
      simp only [List.mem_cons, List.not_mem_nil, or_false]
      tauto
    | lit s => cases hend
    | key k => cases hend
    | str s => cases hend

theorem noKey_lit {s r : List Char} (hne : s ≠ []) (hs : ∀ c ∈ s, isLitRune c = true)
    (hr : ∀ c, r.head? = some c → c ∈ [',', ']', '}']) : NoKey letters (s ++ r) := by
  refine ⟨?_, .inr ?_⟩
  · obtain ⟨c, s, rfl⟩ := List.exists_cons_of_ne_nil hne
    have hspace := isSpace_lit (hs c List.mem_cons_self)
    rw [trimLeft, List.cons_append, List.dropWhile_cons_of_neg (by rw [hspace]; decide)]
  · rw [List.dropWhile_append]
    split
    · cases r with
      | nil => simp
      | cons c r =>
        have hc := hr c rfl
        have hkey : letters.isKeyRune c = false ∧ c ≠ ':' := by
          simp only [List.mem_cons, List.not_mem_nil, or_false] at hc
          rcases hc with rfl | rfl | rfl <;>
            exact ⟨not_isKeyRune (by decide) (by decide), by decide⟩
        rw [List.dropWhile_cons_of_neg (by rw [hkey.1]; decide)]
        exact fun heq => hkey.2 (Option.some.inj heq)
    · rename_i hrest
      intro hcolon
      have hmem : ':' ∈ s := by
        refine (List.dropWhile_suffix letters.isKeyRune).subset (List.mem_of_head? ?_)
        obtain ⟨d, t, hd⟩ := List.exists_cons_of_ne_nil (mt List.isEmpty_iff.mpr hrest)
        rw [hd] at hcolon ⊢
        exact hcolon
      exact not_isLitRune hs (by decide) hmem

theorem noKey_spell {ts : List Tok} (h : Fits letters ts)
    (hkey : ∀ t, ts.head? = some t → t.isKey = false) (i : Nat) :
    NoKey letters (spell id placeholder i ts) := by
  cases ts with
  | nil => exact ⟨rfl, .inl rfl⟩
  | cons t ts =>
    obtain ⟨hlexical, hnext, hrest⟩ := fits_cons.mp h
    cases t with
    | punct c => exact noKey_punct hlexical _
    | lit s =>
      exact noKey_lit hlexical.1 hlexical.2 (head_spell_of_isEnd hnext hrest i)
    | key k => exact absurd (hkey _ rfl) (by simp [Tok.isKey])
    | str s => exact noKey_cons (by decide) (not_isKeyRune (by decide) (by decide)) _

theorem quote_lit {s : List Char} (hs : ∀ c ∈ s, isLitRune c = true) (r : List Char) :
    quoteGemma4BareKeys letters (s ++ r) = s ++ quoteGemma4BareKeys letters r := by
  induction s with
  | nil => rfl
  | cons c s ih =>
    have hc := hs c List.mem_cons_self
    have hne : ∀ d, isLitRune d = false → c ≠ d := by
      rintro d hd rfl
      rw [hd] at hc
      cases hc
    rw [List.cons_append, quote_plain (hne '"' (by decide)) (hne '{' (by decide))
      (hne ',' (by decide)), ih fun d hd => hs d (List.mem_cons_of_mem c hd), List.cons_append]

theorem quote_punct {c : Char} (hc : c ∈ ['{', '}', '[', ']', ',']) {s : List Char}
    (hs : NoKey letters s) :
    quoteGemma4BareKeys letters (c :: s) = c :: quoteGemma4BareKeys letters s := by
  by_cases hsep : c = '{' ∨ c = ','
  · exact quote_noKey hsep hs
  · obtain ⟨hbrace, hcomma⟩ := not_or.mp hsep
    exact quote_plain (mem_punct hc (by decide)) hbrace hcomma s

theorem exists_key {ts : List Tok} (h : ¬∀ t, ts.head? = some t → t.isKey = false) :
    ∃ k rest, ts = .key k :: rest := by
  cases ts with
  | nil => exact absurd (fun t ht => by cases ht) h
  | cons t ts =>
    cases t with
    | key k => exact ⟨k, ts, rfl⟩
    | punct c =>
      refine absurd (fun t ht => ?_) h
      obtain rfl := Option.some.inj ht
      rfl
    | lit s =>
      refine absurd (fun t ht => ?_) h
      obtain rfl := Option.some.inj ht
      rfl
    | str s =>
      refine absurd (fun t ht => ?_) h
      obtain rfl := Option.some.inj ht
      rfl

/-- The keys get their quotes and nothing else changes. -/
theorem quote_toks (n : Nat) {ts : List Tok} (hn : ts.length ≤ n) (h : Fits letters ts)
    (hkey : ∀ t, ts.head? = some t → t.isKey = false) (i : Nat) :
    quoteGemma4BareKeys letters (spell id placeholder i ts) = spell quoted placeholder i ts := by
  -- a brace or a comma is read together with the key behind it
  induction n generalizing ts i with
  | zero =>
    obtain rfl := List.length_eq_zero_iff.mp (Nat.le_zero.mp hn)
    show quoteGemma4BareKeys letters [] = []
    rw [quoteGemma4BareKeys]
  | succ n ih =>
    cases ts with
    | nil =>
      show quoteGemma4BareKeys letters [] = []
      rw [quoteGemma4BareKeys]
    | cons t ts =>
      obtain ⟨hlexical, hnext, hrest⟩ := fits_cons.mp h
      have hlen : ts.length ≤ n := by simpa using hn
      cases t with
      | punct c =>
        by_cases hplain : ∀ t, ts.head? = some t → t.isKey = false
        · show quoteGemma4BareKeys letters (c :: spell id placeholder i ts) = _
          rw [quote_punct hlexical (noKey_spell hrest hplain i), ih hlen hrest hplain i]
          rfl
        · obtain ⟨k, ts, rfl⟩ := exists_key hplain
          obtain ⟨hk, hvalue, hrest⟩ := fits_cons.mp hrest
          have hc : c = '{' ∨ c = ',' := by
            have hafter := hnext _ rfl
            rw [Tok.Next] at hafter
            split at hafter
            · cases hafter
            · have hbracket : c ≠ '[' := fun heq => by cases hafter.2 heq
              simp only [Tok.Lexical, List.mem_cons, List.not_mem_nil, or_false] at hlexical
              tauto
          have hlen : ts.length ≤ n := by
            rw [List.length_cons] at hlen
            omega
          have hbehind := ih hlen hrest (fun t ht => Tok.isKey_of_startsValue (hvalue t ht)) i
          show quoteGemma4BareKeys letters (c :: (k ++ ':' :: spell id placeholder i ts)) = _
          rw [quote_key hc hk.1 hk.2, hbehind]
          rfl
      | lit s =>
        have hbehind := ih hlen hrest (fun t ht => Tok.isKey_of_isEnd (hnext t ht)) i
        show quoteGemma4BareKeys letters (s ++ spell id placeholder i ts) = _
        rw [quote_lit hlexical.2, hbehind]
        rfl
      | key k => cases hkey _ rfl
      | str s =>
        have hbehind := ih hlen hrest (fun t ht => Tok.isKey_of_isEnd (hnext t ht)) (i + 1)
        show quoteGemma4BareKeys letters (placeholder i ++ spell id placeholder (i + 1) ts) = _
        rw [quote_placeholder fun hi => quote_not_mem_spell hrest (by omega), hbehind]
        rfl

/-! ## Placeholders become strings -/

/-- No two strings of an array stand side by side behind the 45th one, of which the first counts
as the `i`-th from 0 on. -/
def Apart : Nat → List Tok → Prop
  | _, [] => True
  | i, .str _ :: ts => (45 ≤ i → ∀ s rest, ts ≠ .punct ',' :: .str s :: rest) ∧ Apart (i + 1) ts
  | i, _ :: ts => Apart i ts

theorem Apart.of_length {ts : List Tok} {i : Nat} (h : i + (strings ts).length ≤ 46) :
    Apart i ts := by
  induction ts generalizing i with
  | nil => trivial
  | cons t ts ih =>
    cases t with
    | punct c => exact ih h
    | lit s => exact ih h
    | key k => exact ih h
    | str s =>
      rw [strings_str, List.length_cons] at h
      refine ⟨fun hi s' rest hts => ?_, ih (by omega)⟩
      rw [hts, strings_punct, strings_str, List.length_cons] at h
      omega

section

variable {k : Nat} {new : List Char}

theorem replaceAll_plain {p : List Char} (hp : '\x00' ∉ p) (s : List Char) :
    replaceAll (p ++ s) (placeholder k) new = p ++ replaceAll s (placeholder k) new := by
  induction p with
  | nil => rfl
  | cons c p ih =>
    obtain ⟨hc, hp⟩ := not_or.mp (mt List.mem_cons.mpr hp)
    have hnot : ¬placeholder k <+: c :: (p ++ s) := fun h => hc (List.cons_prefix_cons.mp h).1
    have hstep : replaceAll (c :: (p ++ s)) (placeholder k) new =
        c :: replaceAll (p ++ s) (placeholder k) new := by
      rw [replaceAll, replaceAllFrom, if_neg hnot]
      rfl
    rw [List.cons_append, hstep, ih hp, List.cons_append]

theorem replaceAll_hit (s : List Char) :
    replaceAll (placeholder k ++ s) (placeholder k) new = new ++ replaceAll s (placeholder k) new := by
  have hstarts : placeholder k <+: '\x00' :: runeOf k :: '\x00' :: s := List.prefix_append ..
  show replaceAllFrom (placeholder k) new 0 ('\x00' :: runeOf k :: '\x00' :: s) = _
  rw [replaceAllFrom, if_pos hstarts]
  rfl

/-- The placeholder of another string, behind which the one that is looked for does not end. -/
theorem replaceAll_miss {j : Nat} (hrune : runeOf j ≠ runeOf k) (hzero : runeOf j ≠ '\x00')
    {s : List Char} (hs : ¬[runeOf k, '\x00'] <+: s) :
    replaceAll (placeholder j ++ s) (placeholder k) new =
      placeholder j ++ replaceAll s (placeholder k) new := by
  have hopen : ¬placeholder k <+: '\x00' :: runeOf j :: '\x00' :: s := by
    intro h
    obtain ⟨-, h⟩ := List.cons_prefix_cons.mp h
    exact hrune (List.cons_prefix_cons.mp h).1.symm
  have hmiddle : ¬placeholder k <+: runeOf j :: '\x00' :: s :=
    fun h => hzero (List.cons_prefix_cons.mp h).1.symm
  have hclose : ¬placeholder k <+: '\x00' :: s := fun h => hs (List.cons_prefix_cons.mp h).2
  show replaceAllFrom (placeholder k) new 0 ('\x00' :: runeOf j :: '\x00' :: s) = _
  rw [replaceAllFrom, if_neg hopen, replaceAllFrom, if_neg hmiddle, replaceAllFrom, if_neg hclose]
  rfl

end

theorem digitChar_ne_zero : ∀ n < 16, '\x00' ≠ Nat.digitChar n := by decide

theorem zero_not_mem_hex {c : Char} (h : c.toNat < 128) :
    '\x00' ∉ ['\\', 'u', '0', '0', Nat.digitChar (c.toNat / 16), Nat.digitChar (c.toNat % 16)] := by
  have hhigh := digitChar_ne_zero (c.toNat / 16) (by omega)
  have hlow := digitChar_ne_zero (c.toNat % 16) (by omega)
  simp [hhigh, hlow]

theorem jsonRune_ne_zero (c : Char) : '\x00' ∉ jsonRune c := by
  refine @jsonRune_cases (fun _ s => '\x00' ∉ s) c ?_ ?_ ?_ ?_
  · intro e r _ hr
    have he : '\x00' ≠ e := by
      rintro rfl
      exact absurd hr (by simp [escapeOf])
    simp [he]
  · intro hsmall
    exact zero_not_mem_hex hsmall
  · intro d _ _ hd
    simp [hd.symm]
  · intro _ _ hlow hmem
    obtain rfl := List.mem_singleton.mp hmem
    exact absurd hlow (by decide)

theorem zero_not_mem_jsonString (s : List Char) : '\x00' ∉ jsonString s := by
  intro h
  rw [jsonString, List.mem_append, List.mem_cons, List.mem_flatMap] at h
  rcases h with (h | ⟨c, -, h⟩) | h
  · exact absurd h (by decide)
  · exact jsonRune_ne_zero c h
  · exact absurd h (by decide)

theorem runeOf_inj {j k : Nat} (hj : j < 0xD800) (hk : k < 0xD800) (h : runeOf j = runeOf k) :
    j = k := by
  have hnat := congrArg Char.toNat h
  rw [toNat_runeOf (.inl hj), toNat_runeOf (.inl hk)] at hnat
  exact hnat

/-- The texts in the place of the strings, of which those before the `k`-th are put back. -/
def stage (all : List (List Char)) (k i : Nat) : List Char :=
  if i < k then jsonString (all.getD i []) else placeholder i

theorem not_starts_spell {all : List (List Char)} {k i : Nat} (hki : k < i) {ts : List Tok}
    (h : Fits letters ts) (hend : Ends ts)
    (hapart : 45 ≤ i → ∀ s rest, ts ≠ .punct ',' :: .str s :: rest) :
    ¬[runeOf k, '\x00'] <+: spell quoted (stage all k) (i + 1) ts := by
  intro hstarts
  cases ts with
  | nil => cases List.prefix_nil.mp hstarts
  | cons t ts =>
    obtain ⟨hlexical, hnext, hrest⟩ := fits_cons.mp h
    have hisEnd := hend t rfl
    cases t with
    | lit s => cases hisEnd
    | key k' => cases hisEnd
    | str s => cases hisEnd
    | punct c =>
      obtain ⟨hc, hzero⟩ := List.cons_prefix_cons.mp hstarts
      cases ts with
      | nil => cases List.prefix_nil.mp hzero
      | cons t' ts =>
        have hlexical' := (fits_cons.mp hrest).1
        cases t' with
        | punct d =>
          have hd := (List.cons_prefix_cons.mp hzero).1
          exact mem_punct hlexical' (by decide) hd.symm
        | lit s =>
          obtain ⟨hne, hs⟩ := hlexical'
          obtain ⟨d, s, rfl⟩ := List.exists_cons_of_ne_nil hne
          have hd := (List.cons_prefix_cons.mp hzero).1
          rw [← hd] at hs
          exact not_isLitRune hs (by decide) List.mem_cons_self
        | key k' => exact absurd (List.cons_prefix_cons.mp hzero).1 (by decide)
        | str s =>
          have hafter := hnext _ rfl
          rw [Tok.Next] at hafter
          split at hafter
          · cases hafter
          · rename_i hclose
            have hcomma : c = ',' := by
              simp only [Tok.isEnd, Bool.or_eq_true, beq_iff_eq] at hisEnd
              tauto
            subst hcomma
            have hk : k = 44 := runeOf_eq hc (by decide)
            exact hapart (by omega) s ts rfl

theorem replaceAll_toks {all : List (List Char)} {k : Nat} {ts : List Tok} (h : Fits letters ts)
    {i : Nat} (hlen : i + (strings ts).length ≤ 0xD800) (hapart : Apart i ts) :
    replaceAll (spell quoted (stage all k) i ts) (placeholder k) (jsonString (all.getD k [])) =
      spell quoted (stage all (k + 1)) i ts := by
  induction ts generalizing i with
  | nil => rfl
  | cons t ts ih =>
    obtain ⟨hlexical, hnext, hrest⟩ := fits_cons.mp h
    cases t with
    | punct c =>
      have hc : '\x00' ∉ [c] := by
        rw [List.mem_singleton]
        exact (mem_punct hlexical (by decide)).symm
      exact (replaceAll_plain hc _).trans (congrArg ([c] ++ ·) (ih hrest hlen hapart))
    | lit s =>
      have hs : '\x00' ∉ s := not_isLitRune hlexical.2 (by decide)
      exact (replaceAll_plain hs _).trans (congrArg (s ++ ·) (ih hrest hlen hapart))
    | key k' =>
      have hk : '\x00' ∉ quoted k' ++ [':'] := by
        have hmem : '\x00' ∉ k' := isKeyRune_ascii hlexical.2 (by decide) (by decide)
        simp [quoted, hmem]
      have hstep := (replaceAll_plain hk _).trans
        (congrArg (quoted k' ++ [':'] ++ ·) (ih hrest hlen hapart))
      rw [List.append_assoc, List.append_assoc] at hstep
      exact hstep
    | str s =>
      rw [strings_str, List.length_cons] at hlen
      obtain ⟨hside, hapart⟩ := hapart
      have hbehind := @ih hrest (i + 1) (by omega) hapart
      show replaceAll (stage all k i ++ spell quoted (stage all k) (i + 1) ts) _ _ =
        stage all (k + 1) i ++ spell quoted (stage all (k + 1)) (i + 1) ts
      rcases lt_trichotomy i k with hlt | rfl | hgt
      · rw [stage, if_pos hlt, stage, if_pos (by omega),
          replaceAll_plain (zero_not_mem_jsonString _), hbehind]
      · rw [stage, if_neg (lt_irrefl i), stage, if_pos (by omega), replaceAll_hit, hbehind]
      · have hrune : runeOf i ≠ runeOf k := fun heq => by
          have := runeOf_inj (by omega) (by omega) heq
          omega
        have hzero : runeOf i ≠ '\x00' := fun heq => by
          have hi : i = 0 := runeOf_eq heq (by decide)
          omega
        rw [stage, if_neg (by omega), stage, if_neg (by omega),
          replaceAll_miss hrune hzero (not_starts_spell hgt hrest hnext hside), hbehind]

theorem putBack_toks {all : List (List Char)} {ts : List Tok} (h : Fits letters ts)
    (hlen : (strings ts).length ≤ 0xD800) (hapart : Apart 0 ts) {values : List (List Char)} {k : Nat}
    (hvalues : all.drop k = values) (hk : k ≤ all.length) :
    putBack (spell quoted (stage all k) 0 ts) k values =
      spell quoted (stage all all.length) 0 ts := by
  induction values generalizing k with
  | nil =>
    have hend : k = all.length := le_antisymm hk (List.drop_eq_nil_iff.mp hvalues)
    rw [putBack, hend]
  | cons value values ih =>
    have hlt : k < all.length := by
      by_contra hge
      rw [List.drop_eq_nil_iff.mpr (by omega)] at hvalues
      cases hvalues
    rw [List.drop_eq_getElem_cons hlt] at hvalues
    obtain ⟨hvalue, hvalues⟩ := List.cons.inj hvalues
    have hget : all.getD k [] = value := by
      rw [List.getD_eq_getElem?_getD, List.getElem?_eq_getElem hlt, hvalue]
      rfl
    have hstep := @replaceAll_toks letters all k ts h 0 (by omega) hapart
    rw [hget] at hstep
    rw [putBack, hstep, ih hvalues hlt]

/-- A token as JSON. -/
def Tok.json : Tok → List Char
  | .punct c => [c]
  | .lit s => s
  | .key k => quoted k ++ [':']
  | .str s => jsonString s

def json (ts : List Tok) : List Char := ts.flatMap Tok.json

theorem spell_stage {all : List (List Char)} {ts : List Tok} {i : Nat}
    (hall : all.drop i = strings ts) : spell quoted (stage all all.length) i ts = json ts := by
  induction ts generalizing i with
  | nil => rfl
  | cons t ts ih =>
    cases t with
    | punct c => exact congrArg (c :: ·) (ih hall)
    | lit s => exact congrArg (s ++ ·) (ih hall)
    | key k =>
      show quoted k ++ ':' :: spell _ _ i ts = (quoted k ++ [':']) ++ json ts
      rw [ih hall, List.append_assoc]
      rfl
    | str s =>
      have hlt : i < all.length := by
        by_contra hge
        rw [List.drop_eq_nil_iff.mpr (by omega)] at hall
        cases hall
      rw [List.drop_eq_getElem_cons hlt] at hall
      obtain ⟨hs, hrest⟩ := List.cons.inj hall
      have hget : all.getD i [] = s := by
        rw [List.getD_eq_getElem?_getD, List.getElem?_eq_getElem hlt, hs]
        rfl
      show stage all all.length i ++ spell _ _ (i + 1) ts = jsonString s ++ json ts
      rw [stage, if_pos hlt, hget, ih hrest]

/-- The three passes together. -/
theorem gemma4ArgsToJSON_render {ts : List Tok} (h : Fits letters ts)
    (hkey : ∀ t, ts.head? = some t → t.isKey = false) (hlen : (strings ts).length ≤ 0xD800)
    (hapart : Apart 0 ts) : gemma4ArgsToJSON letters (render ts) = json ts := by
  have hstart : stage (strings ts) 0 = placeholder := by
    funext i
    rw [stage, if_neg (Nat.not_lt_zero i)]
  have hback := @putBack_toks letters (strings ts) ts h hlen hapart (strings ts) 0 rfl
    (Nat.zero_le _)
  rw [hstart] at hback
  rw [gemma4ArgsToJSON, replaceQuoted_toks h 0]
  show putBack (quoteGemma4BareKeys letters (spell id placeholder 0 ts)) 0 (strings ts) = json ts
  rw [quote_toks ts.length le_rfl h hkey 0, hback]
  exact spell_stage rfl

/-! ## The JSON is decoded -/

mutual

/-- How deep arrays and objects are nested. -/
def nesting : Value N → Nat
  | .arr vs => itemsNesting vs + 1
  | .obj fs => entriesNesting fs + 1
  | _ => 0

def itemsNesting : Values N → Nat
  | .nil => 0
  | .cons v vs => max (nesting v) (itemsNesting vs)

def entriesNesting : Fields N → Nat
  | .nil => 0
  | .cons _ v fs => max (nesting v) (entriesNesting fs)

end

theorem json_cons (t : Tok) (ts : List Tok) : json (t :: ts) = t.json ++ json ts := rfl

theorem json_append (ts ts' : List Tok) : json (ts ++ ts') = json ts ++ json ts' :=
  List.flatMap_append

section

variable {numbers : Numbers N}

theorem isNumChar_ne {c d : Char} (hc : isNumChar c = true) (hd : isNumChar d = false) : c ≠ d := by
  rintro rfl
  rw [hc] at hd
  cases hd

theorem notNum_cons {c : Char} (hc : isNumChar c = false) (s : List Char) :
    ∀ d, (c :: s).head? = some d → isNumChar d = false := by
  intro d hd
  rw [← Option.some.inj hd]
  exact hc

/-- The first rune of a value. -/
theorem head_json (v : Value N) : ∃ c s, json (toks numbers v) = c :: s ∧
    isJsonSpace c = false ∧ c ≠ ']' := by
  cases v with
  | null => exact ⟨_, _, rfl, by decide, by decide⟩
  | bool b => cases b <;> exact ⟨_, _, rfl, by decide, by decide⟩
  | num n =>
    obtain ⟨hne, hchars⟩ := isNumChar_of_isNumber (numbers.isNumber_print n)
    obtain ⟨c, s, heq⟩ := List.exists_cons_of_ne_nil hne
    have hc := hchars c (heq ▸ List.mem_cons_self)
    refine ⟨c, s ++ [], ?_, ?_, isNumChar_ne hc (by decide)⟩
    · show numbers.print n ++ [] = _
      rw [heq]
      rfl
    · simp [isJsonSpace, isNumChar_ne hc (show isNumChar ' ' = false by decide),
        isNumChar_ne hc (show isNumChar '\t' = false by decide),
        isNumChar_ne hc (show isNumChar '\r' = false by decide),
        isNumChar_ne hc (show isNumChar '\n' = false by decide)]
  | str s => exact ⟨_, _, rfl, by decide, by decide⟩
  | arr vs => exact ⟨_, _, rfl, by decide, by decide⟩
  | obj fs => exact ⟨_, _, rfl, by decide, by decide⟩

theorem json_itemToks (vs : Values N) (v : Value N) :
    json (itemToks numbers false (.cons v vs)) = ',' :: json (itemToks numbers true (.cons v vs)) :=
  rfl

theorem json_entryToks (k : List Char) (v : Value N) (fs : Fields N) :
    json (entryToks numbers false (.cons k v fs)) =
      ',' :: json (entryToks numbers true (.cons k v fs)) := rfl

theorem keys_sorted {fs : Fields N} (h : WellFormedEntries letters fs) :
    fs.keys.Pairwise (· < ·) := by
  cases fs with
  | nil => exact .nil
  | cons k v fs => exact List.pairwise_cons.mpr ⟨h.2.1, keys_sorted h.2.2.2⟩

theorem plain_key {k : List Char} (hk : ∀ c ∈ k, letters.isKeyRune c = true) :
    ∀ c ∈ k, c ≠ '"' ∧ c ≠ '\\' ∧ 32 ≤ c.toNat := by
  intro c hc
  refine ⟨?_, ?_, ?_⟩
  · rintro rfl
    exact isKeyRune_ascii hk (by decide) (by decide) hc
  · rintro rfl
    exact isKeyRune_ascii hk (by decide) (by decide) hc
  · by_contra hlow
    have hascii : c.toNat < 128 := by omega
    have hall : ∀ n < 32, (Char.ofNat n == '_' || ('a' ≤ Char.ofNat n && Char.ofNat n ≤ 'z') ||
        ('A' ≤ Char.ofNat n && Char.ofNat n ≤ 'Z') || isDigit (Char.ofNat n)) = false := by decide
    have hc' := hall c.toNat (by omega)
    rw [Char.ofNat_toNat] at hc'
    exact isKeyRune_ascii hk hascii hc' hc

mutual

theorem parseValue_toks (v : Value N) (hv : WellFormed letters v) {d : Nat} (hd : nesting v ≤ d)
    {fuel : Nat} (hfuel : 2 * (json (toks numbers v)).length ≤ fuel) {rest : List Char}
    (hrest : ∀ c, rest.head? = some c → isNumChar c = false) :
    parseValue numbers.read fuel d (json (toks numbers v) ++ rest) = some (v, rest) := by
  obtain ⟨c, s, hhead, -, -⟩ := @head_json N numbers v
  obtain ⟨fuel, rfl⟩ : ∃ n, fuel = n + 1 := by
    refine ⟨fuel - 1, ?_⟩
    rw [hhead, List.length_cons] at hfuel
    omega
  match v with
  | .null => exact absurd hv id
  | .bool true => exact parseValue_true fuel d rest
  | .bool false => exact parseValue_false fuel d rest
  | .num n =>
    have hjson : json (toks numbers (.num n)) = numbers.print n := List.append_nil _
    rw [hjson]
    exact parseValue_num (numbers.isNumber_print n) (numbers.read_print n) fuel d hrest
  | .str s =>
    have hjson : json (toks numbers (.str s)) = jsonString s := List.append_nil _
    rw [hjson]
    exact parseValue_str fuel d s rest
  | .arr .nil =>
    have hdepth : d ≠ 0 := by
      rintro rfl
      exact absurd hd (Nat.not_succ_le_zero _)
    show parseValue numbers.read (fuel + 1) d ('[' :: ']' :: rest) = _
    rw [parseValue_arr fuel d (by decide), if_neg hdepth, if_pos rfl]
  | .arr (.cons v vs) =>
    obtain ⟨d, rfl⟩ : ∃ n, d = n + 1 := ⟨d - 1, by
      rw [nesting] at hd
      omega⟩
    have hjson : json (toks numbers (.arr (.cons v vs))) =
        '[' :: (json (itemToks numbers true (.cons v vs)) ++ [']']) := by
      rw [toks, List.cons_append, json_cons, json_append]
      rfl
    obtain ⟨c, t, hitems, hspace, hclose⟩ : ∃ c t, json (itemToks numbers true (.cons v vs)) =
        c :: t ∧ isJsonSpace c = false ∧ c ≠ ']' := by
      obtain ⟨c, t, hv, hc⟩ := @head_json N numbers v
      refine ⟨c, t ++ json (itemToks numbers false vs), ?_, hc⟩
      rw [itemToks, if_pos rfl, List.nil_append, json_append, hv, List.cons_append]
    have hvs := parseValues_toks (.cons v vs) hv (fun h => nomatch h)
      (Nat.le_of_succ_le_succ hd) (show _ ≤ fuel by
        rw [hjson, List.length_cons, List.length_append] at hfuel
        simp only [List.length_cons, List.length_nil] at hfuel
        omega) rest
    rw [hitems] at hvs
    rw [hjson, hitems, List.cons_append, List.append_assoc, List.cons_append,
      parseValue_arr fuel (d + 1) hspace, if_neg (Nat.succ_ne_zero d), if_neg hclose]
    show (parseValues numbers.read fuel d (c :: (t ++ ']' :: rest))).map _ = _
    rw [← List.cons_append, hvs]
    rfl
  | .obj .nil =>
    have hdepth : d ≠ 0 := by
      rintro rfl
      exact absurd hd (Nat.not_succ_le_zero _)
    show parseValue numbers.read (fuel + 1) d ('{' :: '}' :: rest) = _
    rw [parseValue_obj fuel d (by decide), if_neg hdepth, if_pos rfl]
  | .obj (.cons k v fs) =>
    obtain ⟨d, rfl⟩ : ∃ n, d = n + 1 := ⟨d - 1, by
      rw [nesting] at hd
      omega⟩
    have hjson : json (toks numbers (.obj (.cons k v fs))) =
        '{' :: (json (entryToks numbers true (.cons k v fs)) ++ ['}']) := by
      rw [toks, List.cons_append, json_cons, json_append]
      rfl
    obtain ⟨t, hentries⟩ : ∃ t, json (entryToks numbers true (.cons k v fs)) = '"' :: t :=
      ⟨_, rfl⟩
    have hfs := parseFields_toks (.cons k v fs) hv (fun h => nomatch h)
      (Nat.le_of_succ_le_succ hd) (show _ ≤ fuel by
        rw [hjson, List.length_cons, List.length_append] at hfuel
        simp only [List.length_cons, List.length_nil] at hfuel
        omega) rest
    rw [hentries] at hfs
    rw [hjson, hentries, List.cons_append, List.append_assoc, List.cons_append,
      parseValue_obj fuel (d + 1) (by decide), if_neg (Nat.succ_ne_zero d), if_neg (by decide)]
    show (parseFields numbers.read fuel d ('"' :: (t ++ '}' :: rest))).map _ = _
    rw [← List.cons_append, hfs]
    exact congrArg (fun fs => some (Value.obj fs, rest)) (Fields.canon_of_sorted (keys_sorted hv))

theorem parseValues_toks (vs : Values N) (hvs : WellFormedItems letters vs) (hne : vs ≠ .nil)
    {d fuel : Nat} (hd : itemsNesting vs ≤ d)
    (hfuel : 2 * (json (itemToks numbers true vs)).length + 1 ≤ fuel) (rest : List Char) :
    parseValues numbers.read fuel d (json (itemToks numbers true vs) ++ ']' :: rest) =
      some (vs, rest) := by
  obtain ⟨fuel, rfl⟩ : ∃ n, fuel = n + 1 := ⟨fuel - 1, by omega⟩
  match vs with
  | .cons v .nil =>
    have hjson : json (itemToks numbers true (.cons v .nil)) = json (toks numbers v) := by
      rw [itemToks, if_pos rfl, List.nil_append, itemToks, List.append_nil]
    rw [hjson] at hfuel ⊢
    have hv := parseValue_toks v hvs.1 (le_trans (le_max_left _ _) hd) (show _ ≤ fuel by omega)
      (notNum_cons (show isNumChar ']' = false by decide) rest)
    rw [parseValues_of_value (by decide) hv, if_pos rfl]
  | .cons v (.cons v' vs) =>
    have hjson : json (itemToks numbers true (.cons v (.cons v' vs))) =
        json (toks numbers v) ++ ',' :: json (itemToks numbers true (.cons v' vs)) := by
      rw [itemToks, if_pos rfl, List.nil_append, json_append, json_itemToks]
    rw [hjson, List.length_append, List.length_cons] at hfuel
    have hv := parseValue_toks v hvs.1 (le_trans (le_max_left _ _) hd) (show _ ≤ fuel by omega)
      (notNum_cons (show isNumChar ',' = false by decide)
        (json (itemToks numbers true (.cons v' vs)) ++ ']' :: rest))
    have hrest := parseValues_toks (.cons v' vs) hvs.2 (fun h => nomatch h)
      (le_trans (le_max_right _ _) hd) (show _ ≤ fuel by omega) rest
    rw [hjson, List.append_assoc, List.cons_append, parseValues_of_value (by decide) hv,
      if_neg (by decide), if_pos rfl, hrest]
    rfl

theorem parseFields_toks (fs : Fields N) (hfs : WellFormedEntries letters fs) (hne : fs ≠ .nil)
    {d fuel : Nat} (hd : entriesNesting fs ≤ d)
    (hfuel : 2 * (json (entryToks numbers true fs)).length + 1 ≤ fuel) (rest : List Char) :
    parseFields numbers.read fuel d (json (entryToks numbers true fs) ++ '}' :: rest) =
      some (fs, rest) := by
  obtain ⟨fuel, rfl⟩ : ∃ n, fuel = n + 1 := ⟨fuel - 1, by omega⟩
  match fs with
  | .cons k v .nil =>
    obtain ⟨⟨-, hk⟩, -, hv, -⟩ := hfs
    have hjson : json (entryToks numbers true (.cons k v .nil)) =
        '"' :: k ++ '"' :: ':' :: json (toks numbers v) := by
      rw [entryToks, if_pos rfl, List.nil_append, entryToks, List.append_nil, json_cons]
      simp [Tok.json, quoted]
    rw [hjson] at hfuel ⊢
    simp only [List.length_append, List.length_cons] at hfuel
    have hvalue := parseValue_toks v hv (le_trans (le_max_left _ _) hd) (show _ ≤ fuel by omega)
      (notNum_cons (show isNumChar '}' = false by decide) rest)
    have hentry := @parseFields_key N numbers.read k (plain_key hk) fuel d
      (json (toks numbers v) ++ '}' :: rest)
    rw [hvalue, Option.bind_some] at hentry
    rw [List.append_assoc]
    refine Eq.trans hentry ?_
    rw [skipSpace_cons (by decide)]
    rfl
  | .cons k v (.cons k' v' fs) =>
    obtain ⟨⟨-, hk⟩, -, hv, hrest⟩ := hfs
    have hjson : json (entryToks numbers true (.cons k v (.cons k' v' fs))) =
        '"' :: k ++ '"' :: ':' :: (json (toks numbers v) ++
          ',' :: json (entryToks numbers true (.cons k' v' fs))) := by
      rw [entryToks, if_pos rfl, List.nil_append, List.cons_append, json_cons, json_append,
        json_entryToks]
      simp [Tok.json, quoted]
    rw [hjson] at hfuel
    simp only [List.length_append, List.length_cons] at hfuel
    have hvalue := parseValue_toks v hv (le_trans (le_max_left _ _) hd) (show _ ≤ fuel by omega)
      (notNum_cons (show isNumChar ',' = false by decide)
        (json (entryToks numbers true (.cons k' v' fs)) ++ '}' :: rest))
    have hbehind := parseFields_toks (.cons k' v' fs) hrest (fun h => nomatch h)
      (le_trans (le_max_right _ _) hd) (show _ ≤ fuel by omega) rest
    have hentry := @parseFields_key N numbers.read k (plain_key hk) fuel d
      (json (toks numbers v) ++
        ',' :: (json (entryToks numbers true (.cons k' v' fs)) ++ '}' :: rest))
    rw [hvalue, Option.bind_some] at hentry
    rw [hjson]
    simp only [List.append_assoc, List.cons_append]
    simp only [List.cons_append] at hentry
    refine Eq.trans hentry ?_
    rw [skipSpace_cons (by decide)]
    simp only [hbehind]
    rfl

end

end

/-! ## A call -/

theorem render_entries (numbers : Numbers N) (args : Fields N) :
    render (toks numbers (.obj args)) = formatArgs numbers args :=
  render_toks numbers (.obj args)

theorem cut_brace {name : List Char} (h : '{' ∉ name) (s : List Char) :
    cut ['{'] (name ++ '{' :: s) = some (name, s) := by
  induction name with
  | nil => exact cut_of_starts (List.prefix_append ['{'] s)
  | cons c name ih =>
    obtain ⟨hc, hname⟩ := not_or.mp (mt List.mem_cons.mpr h)
    have hnot : ¬['{'] <+: c :: (name ++ '{' :: s) := fun h => hc (List.cons_prefix_cons.mp h).1
    rw [List.cons_append, cut, if_neg hnot, ih hname]
    rfl

theorem callText_eq (numbers : Numbers N) (name : List Char) (args : Fields N) :
    callText numbers name args = "call:".toList ++ (name ++ formatArgs numbers args) :=
  List.append_assoc ..

/-- What the renderer writes for a call is read as this call. -/
theorem parseGemma4ToolCall_callText (numbers : Numbers N) (letters : Letters) (tools : List Tool)
    {name : List Char} {args : Fields N} (hbrace : '{' ∉ name) (htrim : trimSpace name = name)
    (hargs : WellFormedEntries letters args) (hnesting : entriesNesting args < maxNestingDepth)
    (hstrings : (strings (toks numbers (.obj args))).length ≤ 0xD800)
    (hapart : Apart 0 (toks numbers (.obj args))) :
    parseGemma4ToolCall letters numbers.read (callText numbers name args) tools =
      .ok (name, args) := by
  have hfits : Fits letters (toks numbers (.obj args)) := by
    have h := @fits_toks N numbers letters (.obj args) hargs [] .nil fun t ht => by cases ht
    rwa [List.append_nil] at h
  have hkey : ∀ t, (toks numbers (.obj args)).head? = some t → t.isKey = false := by
    intro t ht
    obtain rfl := Option.some.inj ht
    rfl
  have hjson := gemma4ArgsToJSON_render hfits hkey hstrings hapart
  rw [render_entries] at hjson
  have hread : unmarshalArgs numbers.read (json (toks numbers (.obj args))) = some args := by
    have hvalue := @parseValue_toks N letters numbers (.obj args) hargs maxNestingDepth hnesting
      (2 * (json (toks numbers (.obj args))).length + 2) (by omega) [] fun c hc => by cases hc
    rw [List.append_nil] at hvalue
    rw [unmarshalArgs, unmarshal, hvalue]
    rfl
  have hcall : "call:".toList <+: callText numbers name args := by
    rw [callText_eq]
    exact List.prefix_append ..
  have hdrop : (callText numbers name args).drop 5 =
      name ++ '{' :: (formatEntries numbers true args ++ ['}']) := by
    rw [callText_eq]
    rfl
  rw [parseGemma4ToolCall, if_neg (not_not.mpr hcall), hdrop, cut_brace hbrace]
  have hbraces : '{' :: (formatEntries numbers true args ++ ['}']) = formatArgs numbers args := rfl
  simp only [hbraces, hjson, hread, htrim]

theorem le_of_char_le {a c : Char} (h : a ≤ c) : a.toNat ≤ c.toNat := h

theorem isSpace_letter {c : Char} (h : (c == '_' || ('a' ≤ c && c ≤ 'z') || ('A' ≤ c && c ≤ 'Z') ||
    isDigit c) = true) : isSpace c = false := by
  have hrange : 48 ≤ c.toNat ∧ c.toNat ≤ 122 := by
    simp only [isDigit, Bool.or_eq_true, Bool.and_eq_true, decide_eq_true_eq, beq_iff_eq] at h
    rcases h with ((rfl | ⟨hlow, hhigh⟩) | ⟨hlow, hhigh⟩) | ⟨hlow, hhigh⟩
    · decide
    · exact ⟨le_trans (by decide) (le_of_char_le hlow), le_of_char_le hhigh⟩
    · exact ⟨le_trans (by decide) (le_of_char_le hlow),
        le_trans (le_of_char_le hhigh) (by decide)⟩
    · exact ⟨le_of_char_le hlow, le_trans (le_of_char_le hhigh) (by decide)⟩
  simp only [isSpace, Bool.or_eq_false_iff, Bool.and_eq_false_iff, decide_eq_false_iff_not,
    beq_eq_false_iff_ne]
  omega

/-- Digits, ASCII letters and the underscore. -/
def asciiLetters : Letters where
  isKeyRune c := c == '_' || ('a' ≤ c && c ≤ 'z') || ('A' ≤ c && c ≤ 'Z') || isDigit c
  ascii _ _ := rfl
  not_space _ h := isSpace_letter h

/-- Numbers of one digit. -/
def digits : Numbers (Fin 10) where
  print n := [Nat.digitChar n]
  read s := (List.finRange 10).find? fun n => s = [Nat.digitChar n]
  isNumber_print := by decide
  read_print := by decide

theorem isKeyRune_singleton {d : Char} (h : asciiLetters.isKeyRune d = true) :
    ∀ c ∈ [d], asciiLetters.isKeyRune c = true := by
  intro c hc
  rwa [List.mem_singleton.mp hc]

/-- `set_lights{a:["x","y"],b:1,c:true}` -/
theorem parseGemma4ToolCall_lights :
    parseGemma4ToolCall asciiLetters digits.read (callText digits "set_lights".toList
      (.cons ['a'] (.arr (.cons (.str ['x']) (.cons (.str ['y']) .nil)))
        (.cons ['b'] (.num 1) (.cons ['c'] (.bool true) .nil)))) [] =
      .ok ("set_lights".toList, .cons ['a'] (.arr (.cons (.str ['x']) (.cons (.str ['y']) .nil)))
        (.cons ['b'] (.num 1) (.cons ['c'] (.bool true) .nil))) :=
  parseGemma4ToolCall_callText digits asciiLetters [] (by decide) (by decide)
    ⟨⟨by simp, isKeyRune_singleton (by simp [asciiLetters])⟩, by decide,
      ⟨(by decide : ¬delimiter <:+: ['x']), (by decide : ¬delimiter <:+: ['y']), trivial⟩,
      ⟨by simp, isKeyRune_singleton (by simp [asciiLetters])⟩, by decide, trivial,
      ⟨by simp, isKeyRune_singleton (by simp [asciiLetters])⟩, by decide, trivial, trivial⟩
    (by decide) (by decide) (Apart.of_length (by decide))

end Prismalama.Gemma4
