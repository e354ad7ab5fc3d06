import Mathlib.Data.List.DropRight
import Mathlib.Tactic

/-!
# Tags in a stream

A text that arrives in chunks is cut at a tag. While no tag has been seen, what may be the
start of one is held back: the longest end of the text that is a beginning of the tag. Then
what is cut and what is held back do not depend on the chunks (`cut_held`, `held_append`).
A parser whose output for two chunks is the output for both together may be run on any
chunks (`runChunks_eq`).
-/

namespace Prismalama.Lib

variable {α : Type} [DecidableEq α]

/-! ## The first tag -/

/-- What is before the first tag and behind it. -/
def cut (tag : List α) : List α → Option (List α × List α)
  | [] => if tag = [] then some ([], []) else none
  | c :: s =>
    if tag <+: c :: s then some ([], (c :: s).drop tag.length)
    else (cut tag s).map fun p => (c :: p.1, p.2)

theorem eq_of_cut {tag s a b : List α} (h : cut tag s = some (a, b)) : s = a ++ tag ++ b := by
  induction s generalizing a b with
  | nil =>
    rw [cut] at h
    split at h
    · obtain ⟨rfl, rfl⟩ := Prod.mk.inj (Option.some.inj h)
      simp [*]
    · cases h
  | cons c s ih =>
    rw [cut] at h
    split at h
    · rename_i hprefix
      obtain ⟨rfl, rfl⟩ := Prod.mk.inj (Option.some.inj h)
      obtain ⟨rest, hrest⟩ := hprefix
      rw [← hrest, List.drop_left, List.nil_append]
    · obtain ⟨⟨a', b'⟩, hcut, hp⟩ := Option.map_eq_some_iff.mp h
      obtain ⟨rfl, rfl⟩ := Prod.mk.inj hp
      rw [ih hcut]
      rfl

theorem cut_eq_none_iff {tag s : List α} : cut tag s = none ↔ ¬tag <:+: s := by
  induction s with
  | nil =>
    rw [cut, List.infix_nil]
    split
    · simp [*]
    · simp [*]
  | cons c s ih =>
    rw [cut, List.infix_cons_iff]
    split
    · simp [*]
    · simp [*]

theorem cut_of_starts {tag s : List α} (h : tag <+: s) : cut tag s = some ([], s.drop tag.length) := by
  cases s with
  | nil =>
    obtain rfl := List.prefix_nil.mp h
    rfl
  | cons c s => rw [cut, if_pos h]

/-- More text behind a tag. -/
theorem cut_append {tag s a b : List α} (h : cut tag s = some (a, b)) (t : List α) :
    cut tag (s ++ t) = some (a, b ++ t) := by
  induction s generalizing a b with
  | nil =>
    rw [cut] at h
    split at h
    · obtain ⟨rfl, rfl⟩ := Prod.mk.inj (Option.some.inj h)
      rename_i htag
      subst htag
      exact cut_of_starts (List.nil_prefix)
    · cases h
  | cons c s ih =>
    rw [cut] at h
    split at h
    · rename_i hprefix
      obtain ⟨rfl, rfl⟩ := Prod.mk.inj (Option.some.inj h)
      rw [cut_of_starts <| hprefix.trans (List.prefix_append _ t),
        List.drop_append_of_le_length hprefix.length_le]
    · rename_i hprefix
      obtain ⟨⟨a', b'⟩, hcut, hp⟩ := Option.map_eq_some_iff.mp h
      obtain ⟨rfl, rfl⟩ := Prod.mk.inj hp
      have hlong : tag.length ≤ (c :: s).length := by
        have hlen := congrArg List.length (eq_of_cut hcut)
        simp only [List.length_append, List.length_cons] at hlen ⊢
        omega
      have hnot : ¬tag <+: c :: (s ++ t) := fun hprefix' =>
        hprefix (List.prefix_of_prefix_length_le hprefix' (List.prefix_append (c :: s) t) hlong)
      rw [List.cons_append, cut, if_neg hnot, ih hcut]
      rfl

/-- The text behind a tag is shorter. -/
theorem length_of_cut {tag s a b : List α} (htag : tag ≠ []) (h : cut tag s = some (a, b)) :
    b.length < s.length := by
  have hpos := List.length_pos_of_ne_nil htag
  rw [eq_of_cut h, List.length_append, List.length_append]
  omega

/-! ## What is held back -/

/-- `overlap`, from `i` downwards -/
def overlapFrom (s tag : List α) : Nat → Nat
  | 0 => 0
  | i + 1 => if tag.take (i + 1) <:+ s then i + 1 else overlapFrom s tag i

/-- The longest end of `s` that is a beginning of the tag. -/
def overlap (s tag : List α) : Nat := overlapFrom s tag (min tag.length s.length)

theorem overlapFrom_le (s tag : List α) (i : Nat) : overlapFrom s tag i ≤ i := by
  induction i with
  | zero => exact le_rfl
  | succ i ih =>
    rw [overlapFrom]
    split
    · exact le_rfl
    · exact ih.trans (Nat.le_succ i)

theorem overlapFrom_suffix (s tag : List α) (i : Nat) : tag.take (overlapFrom s tag i) <:+ s := by
  induction i with
  | zero => exact List.nil_suffix
  | succ i ih =>
    rw [overlapFrom]
    split
    · assumption
    · exact ih

theorem le_overlapFrom {s tag : List α} {i k : Nat} (hk : k ≤ i) (h : tag.take k <:+ s) :
    k ≤ overlapFrom s tag i := by
  induction i with
  | zero => exact hk
  | succ i ih =>
    rw [overlapFrom]
    split
    · exact hk
    · rename_i hnot
      refine ih (Nat.lt_succ_iff.mp (lt_of_le_of_ne hk ?_))
      rintro rfl
      exact hnot h

theorem overlap_le_length (s tag : List α) : overlap s tag ≤ s.length :=
  (overlapFrom_le s tag _).trans (min_le_right _ _)

theorem overlap_le_tag (s tag : List α) : overlap s tag ≤ tag.length :=
  (overlapFrom_le s tag _).trans (min_le_left _ _)

/-- What is sent, and what is held back. -/
def sent (tag s : List α) : List α := s.take (s.length - overlap s tag)

def held (tag s : List α) : List α := s.drop (s.length - overlap s tag)

theorem sent_append_held (tag s : List α) : sent tag s ++ held tag s = s := List.take_append_drop _ s

theorem length_held (tag s : List α) : (held tag s).length = overlap s tag := by
  have hle := overlap_le_length s tag
  rw [held, List.length_drop]
  omega

theorem held_suffix (tag s : List α) : held tag s <:+ s := List.drop_suffix _ s

/-- What is held back is a beginning of the tag. -/
theorem held_eq_take (tag s : List α) : held tag s = tag.take (overlap s tag) := by
  have hlen : (held tag s).length = (tag.take (overlap s tag)).length := by
    rw [length_held, List.length_take, min_eq_left (overlap_le_tag s tag)]
  exact (List.suffix_of_suffix_length_le (held_suffix tag s) (overlapFrom_suffix s tag _)
    hlen.le).eq_of_length hlen

/-- No longer end is a beginning of the tag. -/
theorem length_le_held {tag s e : List α} (hs : e <:+ s) (htag : e <+: tag) :
    e.length ≤ (held tag s).length := by
  rw [length_held]
  refine le_overlapFrom (le_min htag.length_le hs.length_le) ?_
  rw [← List.prefix_iff_eq_take.mp htag]
  exact hs

/-- A beginning of the tag that ends in `t` starts in what was held back. -/
theorem eq_nil_of_prefix {tag s e t : List α} (hs : e ++ held tag s <:+ s)
    (htag : e ++ (held tag s ++ t) <+: tag) : e = [] := by
  rw [← List.append_assoc] at htag
  have hle := length_le_held hs ((List.prefix_append _ t).trans htag)
  rw [List.length_append] at hle
  exact List.length_eq_zero_iff.mp (by omega)

theorem cut_held_of_suffix {tag s e t : List α} (hcut : cut tag s = none)
    (hs : e ++ held tag s <:+ s) : cut tag (e ++ held tag s ++ t) =
      (cut tag (held tag s ++ t)).map fun p => (e ++ p.1, p.2) := by
  induction e with
  | nil =>
    rw [List.nil_append]
    cases cut tag (held tag s ++ t) <;> rfl
  | cons c e ih =>
    have hnot : ¬tag <+: c :: (e ++ held tag s ++ t) := by
      intro hprefix
      by_cases hlong : tag.length ≤ (c :: e ++ held tag s).length
      · -- the tag is in `s`
        have hin := List.prefix_of_prefix_length_le hprefix
          (List.prefix_append (c :: (e ++ held tag s)) t) hlong
        exact cut_eq_none_iff.mp hcut (hin.isInfix.trans hs.isInfix)
      · -- the tag starts before what was held back
        have hin : c :: e ++ (held tag s ++ []) <+: tag := by
          rw [List.append_nil]
          exact List.prefix_of_prefix_length_le (List.prefix_append (c :: (e ++ held tag s)) t)
            hprefix (not_le.mp hlong).le
        cases eq_nil_of_prefix hs hin
    rw [List.cons_append, List.cons_append, cut, if_neg hnot,
      ih ((List.suffix_cons c _).trans hs), Option.map_map]
    rfl

/-- A tag is found in what was held back and what follows. -/
theorem cut_held {tag s : List α} (hcut : cut tag s = none) (t : List α) :
    cut tag (s ++ t) = (cut tag (held tag s ++ t)).map fun p => (sent tag s ++ p.1, p.2) := by
  have h := @cut_held_of_suffix α _ tag s (sent tag s) t hcut
    (by rw [sent_append_held])
  rwa [sent_append_held] at h

/-- What is held back does not depend on where the text was cut. -/
theorem held_append (tag s t : List α) : held tag (s ++ t) = held tag (held tag s ++ t) := by
  have hs : s ++ t = sent tag s ++ (held tag s ++ t) := by
    rw [← List.append_assoc, sent_append_held]
  have hlast : held tag s ++ t <:+ s ++ t := hs ▸ List.suffix_append _ _
  have htake : ∀ s, held tag s <+: tag := fun s => held_eq_take tag s ▸ List.take_prefix _ tag
  have hshort : held tag (s ++ t) <:+ held tag s ++ t := by
    rcases List.suffix_or_suffix_of_suffix (held_suffix tag (s ++ t)) hlast with h | ⟨e, he⟩
    · exact h
    · -- more is held back than there is
      have hs' : e ++ held tag s <:+ s := by
        obtain ⟨front, hfront⟩ := held_suffix tag (s ++ t)
        rw [← he, ← List.append_assoc, ← List.append_assoc] at hfront
        exact ⟨front, by rw [← List.append_assoc, List.append_cancel_right hfront]⟩
      have hnil := eq_nil_of_prefix hs' (he ▸ htake (s ++ t))
      rw [← he, hnil]
      exact List.suffix_rfl
  have hle := length_le_held hshort (htake _)
  have hge := length_le_held ((held_suffix tag (held tag s ++ t)).trans hlast) (htake _)
  exact (List.suffix_of_suffix_length_le hshort (held_suffix tag _) hle).eq_of_length
    (le_antisymm hle hge)

theorem sent_append (tag s t : List α) :
    sent tag (s ++ t) = sent tag s ++ sent tag (held tag s ++ t) := by
  have hall := sent_append_held tag (s ++ t)
  have hrest := sent_append_held tag (held tag s ++ t)
  rw [held_append] at hall
  refine List.append_cancel_right (hall.trans ?_)
  rw [List.append_assoc, hrest, ← List.append_assoc, sent_append_held]

/-- An end with all that is held back has the same held back. -/
theorem held_of_suffix {tag s e : List α} (hs : e ++ held tag s <:+ s) :
    held tag (e ++ held tag s) = held tag s := by
  have htake : ∀ s, held tag s <+: tag := fun s => held_eq_take tag s ▸ List.take_prefix _ tag
  have hshort := (held_suffix tag (e ++ held tag s)).trans hs
  have hle := length_le_held hshort (htake _)
  have hge := length_le_held (List.suffix_append e (held tag s)) (htake s)
  exact (List.suffix_of_suffix_length_le hshort (held_suffix tag s) hle).eq_of_length
    (le_antisymm hle hge)

/-! ## Blanks -/

/-- `unicode.IsSpace` -/
def isSpace (c : Char) : Bool :=
  let n := c.toNat
  (0x9 ≤ n && n ≤ 0xD) || n == 0x20 || n == 0x85 || n == 0xA0 || n == 0x1680 ||
    (0x2000 ≤ n && n ≤ 0x200A) || n == 0x2028 || n == 0x2029 || n == 0x202F || n == 0x205F ||
    n == 0x3000

/-- `TrimLeftFunc` with `unicode.IsSpace` -/
def trimLeft (s : List Char) : List Char := s.dropWhile isSpace

/-- `TrimRightFunc` with `unicode.IsSpace` -/
def trimRight (s : List Char) : List Char := s.rdropWhile isSpace

section

omit [DecidableEq α]

variable {blank : α → Bool}

theorem dropWhile_append_of_ne {s : List α} (h : s.dropWhile blank ≠ []) (t : List α) :
    (s ++ t).dropWhile blank = s.dropWhile blank ++ t := by
  rw [List.dropWhile_append, if_neg]
  rwa [List.isEmpty_iff]

theorem dropWhile_append_of_eq {s : List α} (h : s.dropWhile blank = []) (t : List α) :
    (s ++ t).dropWhile blank = t.dropWhile blank := by
  rw [List.dropWhile_append, if_pos]
  rwa [List.isEmpty_iff]

end

/-- `strings.TrimSpace` -/
def trimSpace (s : List Char) : List Char := trimRight (trimLeft s)

theorem trimLeft_trimLeft (s : List Char) : trimLeft (trimLeft s) = trimLeft s :=
  List.dropWhile_idempotent _ s

/-- Blanks in front may be trimmed before more text comes. -/
theorem trimLeft_append (s t : List Char) : trimLeft (s ++ t) = trimLeft (trimLeft s ++ t) := by
  by_cases h : trimLeft s = []
  · rw [h, List.nil_append]
    exact dropWhile_append_of_eq h t
  · have h' : trimLeft (trimLeft s) ≠ [] := by rwa [trimLeft_trimLeft]
    have hs : trimLeft (s ++ t) = trimLeft s ++ t := dropWhile_append_of_ne h t
    have hs' : trimLeft (trimLeft s ++ t) = trimLeft (trimLeft s) ++ t := dropWhile_append_of_ne h' t
    rw [hs, hs', trimLeft_trimLeft]

theorem trimLeft_append_of_ne {s : List Char} (h : trimLeft s ≠ []) (t : List Char) :
    trimLeft (s ++ t) = trimLeft s ++ t := dropWhile_append_of_ne h t

theorem trimRight_append (s t : List Char) :
    trimRight (s ++ t) = if trimRight t = [] then trimRight s else s ++ trimRight t := by
  have hboth : trimRight (s ++ t) = (((t.reverse ++ s.reverse).dropWhile isSpace)).reverse := by
    rw [← List.reverse_append]
    rfl
  have hnil : trimRight t = [] ↔ t.reverse.dropWhile isSpace = [] := List.reverse_eq_nil_iff
  rw [hboth, List.dropWhile_append]
  by_cases h : t.reverse.dropWhile isSpace = []
  · rw [if_pos (hnil.mpr h), if_pos (List.isEmpty_iff.mpr h)]
    rfl
  · rw [if_neg (hnil.not.mpr h), if_neg (List.isEmpty_iff.not.mpr h), List.reverse_append,
      List.reverse_reverse]
    rfl

theorem trimRight_trimRight (s : List Char) : trimRight (trimRight s) = trimRight s :=
  List.rdropWhile_idempotent _ s

/-- Blanks at the end may be trimmed when more text comes, but not those before it. -/
theorem trimRight_trimRight_append (s t : List Char) :
    trimRight (trimRight s ++ t) = trimRight s ++ trimRight t := by
  rw [trimRight_append]
  split
  · rename_i hnil
    rw [hnil, List.append_nil, trimRight_trimRight]
  · rfl

theorem trimRight_starts (s : List Char) : trimRight s <+: s := List.rdropWhile_prefix _ s

/-- Only blanks. -/
def Blank (s : List Char) : Prop := ∀ c ∈ s, isSpace c = true

theorem blank_nil : Blank [] := fun _ h => absurd h List.not_mem_nil

theorem Blank.append {s t : List Char} (h : Blank s) (h' : Blank t) : Blank (s ++ t) :=
  fun c hc => (List.mem_append.mp hc).elim (h c) (h' c)

theorem trimLeft_eq_nil {s : List Char} : trimLeft s = [] ↔ Blank s := List.dropWhile_eq_nil_iff

theorem trimRight_eq_nil {s : List Char} : trimRight s = [] ↔ Blank s :=
  List.rdropWhile_eq_nil_iff

/-- The blanks in front. -/
def leading (s : List Char) : List Char := s.takeWhile isSpace

theorem leading_append_trimLeft (s : List Char) : leading s ++ trimLeft s = s :=
  List.takeWhile_append_dropWhile

theorem blank_leading (s : List Char) : Blank (leading s) := fun _ h => List.mem_takeWhile_imp h

section

variable {tag v : List Char}

/-- A tag without blanks does not start in one. -/
theorem not_prefix_blank (htag : ∀ c ∈ tag, isSpace c = false) (hne : tag ≠ []) {c : Char}
    (hc : isSpace c = true) (s : List Char) : ¬tag <+: c :: s := by
  intro hprefix
  cases tag with
  | nil => exact hne rfl
  | cons d tag =>
    obtain ⟨rfl, -⟩ := List.cons_prefix_cons.mp hprefix
    rw [htag d (List.mem_cons_self ..)] at hc
    cases hc

theorem cut_blank (htag : ∀ c ∈ tag, isSpace c = false) (hne : tag ≠ []) (hv : Blank v)
    (s : List Char) : cut tag (v ++ s) = (cut tag s).map fun p => (v ++ p.1, p.2) := by
  induction v with
  | nil =>
    rw [List.nil_append]
    cases cut tag s <;> rfl
  | cons c v ih =>
    rw [List.cons_append, cut,
      if_neg (not_prefix_blank htag hne (hv c (List.mem_cons_self ..)) _),
      ih fun d hd => hv d (List.mem_cons_of_mem c hd), Option.map_map]
    rfl

theorem held_blank (htag : ∀ c ∈ tag, isSpace c = false) (hv : Blank v) (s : List Char) :
    held tag (v ++ s) = held tag s := by
  induction v with
  | nil => rfl
  | cons c v ih =>
    have hrest := ih fun d hd => hv d (List.mem_cons_of_mem c hd)
    rw [List.cons_append, ← hrest]
    rcases List.suffix_cons_iff.mp (held_suffix tag (c :: (v ++ s))) with hall | hsuffix
    · -- the blank would be in the tag
      have hmem : c ∈ tag := by
        refine (List.take_prefix (overlap (c :: (v ++ s)) tag) tag).subset ?_
        rw [← held_eq_take, hall]
        exact List.mem_cons_self ..
      have hblank := hv c (List.mem_cons_self ..)
      rw [htag c hmem] at hblank
      cases hblank
    · obtain ⟨e, he⟩ := hsuffix
      have htake : ∀ s, held tag s <+: tag := fun s => held_eq_take tag s ▸ List.take_prefix _ tag
      have hle := length_le_held ⟨e, he⟩ (htake _)
      have hge := length_le_held ((held_suffix tag (v ++ s)).trans (List.suffix_cons c _)) (htake _)
      exact (List.suffix_of_suffix_length_le ⟨e, he⟩ (held_suffix tag (v ++ s)) hle).eq_of_length
        (le_antisymm hle hge)

end

/-! ## Chunks -/

section

omit [DecidableEq α]

variable {σ β : Type}

/-- A parser, run on chunks; `op` puts two outputs together. -/
def runChunks (op : β → β → β) (empty : β) (add : σ → List α → σ × β) :
    σ → List (List α) → σ × β
  | s, [] => (s, empty)
  | s, c :: cs =>
    let rest := runChunks op empty add (add s c).1 cs
    (rest.1, op (add s c).2 rest.2)

/-- A parser that does the same with two chunks as with both in one. -/
theorem runChunks_eq {op : β → β → β} {empty : β} {add : σ → List α → σ × β}
    (hempty : ∀ o, op o empty = o)
    (happend : ∀ s x y, add s (x ++ y) =
      ((add (add s x).1 y).1, op (add s x).2 (add (add s x).1 y).2))
    (s : σ) {cs : List (List α)} (hcs : cs ≠ []) :
    runChunks op empty add s cs = add s cs.flatten := by
  induction cs generalizing s with
  | nil => exact absurd rfl hcs
  | cons c cs ih =>
    rw [runChunks, List.flatten_cons]
    by_cases hrest : cs = []
    · subst hrest
      simp only [runChunks, hempty, List.flatten_nil, List.append_nil]
    · rw [ih _ hrest, happend]

end

end Prismalama.Lib
