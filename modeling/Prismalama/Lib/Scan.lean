import Mathlib.Data.List.TakeWhile
import Mathlib.Tactic

/-!
# Replacing all matches

The leftmost matches of a pattern are replaced, one after the other. A pattern is a function that
looks at what is left of a text: it gives what stands in the place of a match, and how long the match
is. Where no match begins, the elements are replaced one by one.
-/

namespace Prismalama.Lib.Scan

variable {α β : Type} (found : List α → Option (List β × Nat)) (other : α → List β)

/-- The replacement after `skip` elements. -/
def replaceFrom : Nat → List α → List β
  | _, [] => []
  | skip + 1, _ :: s => replaceFrom skip s
  | 0, c :: s =>
    match found (c :: s) with
    | some (out, n) => out ++ replaceFrom (n - 1) s
    | none => other c ++ replaceFrom 0 s

def replaceAll (s : List α) : List β := replaceFrom found other 0 s

/-- No match begins in the first text when the second one follows. -/
def Free (a y : List α) : Prop := ∀ b : List α, b <:+ a → b ≠ [] → found (b ++ y) = none

variable {found other}

theorem replaceFrom_eq (skip : Nat) (s : List α) :
    replaceFrom found other skip s = replaceAll found other (s.drop skip) := by
  induction s generalizing skip with
  | nil => rw [List.drop_nil, replaceAll, replaceFrom, replaceFrom]
  | cons c s ih =>
    cases skip with
    | zero => rfl
    | succ skip => rw [replaceFrom, ih, List.drop_succ_cons]

@[simp] theorem replaceAll_nil : replaceAll found other [] = [] := rfl

theorem replaceAll_found {s : List α} {out : List β} {n : Nat} (h : found s = some (out, n))
    (hs : s ≠ []) (hn : 0 < n) :
    replaceAll found other s = out ++ replaceAll found other (s.drop n) := by
  cases s with
  | nil => exact absurd rfl hs
  | cons c s =>
    rw [replaceAll, replaceFrom, h]
    simp only
    obtain ⟨k, rfl⟩ := Nat.exists_eq_succ_of_ne_zero hn.ne'
    rw [replaceFrom_eq, Nat.succ_sub_one, List.drop_succ_cons]

theorem replaceAll_other {c : α} {s : List α} (h : found (c :: s) = none) :
    replaceAll found other (c :: s) = other c ++ replaceAll found other s := by
  rw [replaceAll, replaceFrom, h]
  rfl

theorem free_nil (y : List α) : Free found [] y := fun _ hb hne =>
  absurd (List.suffix_nil.mp hb) hne

theorem free_cons {c : α} {a y : List α} :
    Free found (c :: a) y ↔ found (c :: (a ++ y)) = none ∧ Free found a y := by
  constructor
  · exact fun h => ⟨h (c :: a) (List.suffix_refl _) (List.cons_ne_nil c a), fun b hb =>
      h b (hb.trans (List.suffix_cons c a))⟩
  · rintro ⟨hc, ha⟩ b hb hne
    rcases List.suffix_cons_iff.mp hb with rfl | hb
    · exact hc
    · exact ha b hb hne

/-- The first match that begins in a text. -/
theorem exists_of_not_free {a y : List α} (h : ¬Free found a y) :
    ∃ a' b r, a = a' ++ b ∧ b ≠ [] ∧ Free found a' (b ++ y) ∧ found (b ++ y) = some r := by
  induction a with
  | nil => exact absurd (free_nil y) h
  | cons c a ih =>
    cases hfound : found (c :: (a ++ y)) with
    | some r => exact ⟨[], c :: a, r, rfl, List.cons_ne_nil c a, free_nil _, hfound⟩
    | none =>
      obtain ⟨a', b, r, ha, hb, hfree, hr⟩ := ih fun ha => h (free_cons.mpr ⟨hfound, ha⟩)
      refine ⟨c :: a', b, r, by rw [ha, List.cons_append], hb, free_cons.mpr ⟨?_, hfree⟩, hr⟩
      rw [← List.append_assoc, ← ha]
      exact hfound

theorem free_congr {a y y' : List α} (h : ∀ b, b <:+ a → b ≠ [] →
    (found (b ++ y) = none ↔ found (b ++ y') = none)) : Free found a y ↔ Free found a y' :=
  forall₃_congr fun b hb hne => h b hb hne

/-- A text in which no match begins goes through. -/
theorem replaceAll_free {a y : List α} (h : Free found a y) :
    replaceAll found other (a ++ y) = a.flatMap other ++ replaceAll found other y := by
  induction a with
  | nil => rfl
  | cons c a ih =>
    obtain ⟨hc, ha⟩ := free_cons.mp h
    rw [List.cons_append, replaceAll_other hc, ih ha, List.flatMap_cons, List.append_assoc]

/-- The text before the first match. -/
theorem exists_first (s : List α) :
    ∃ a y, s = a ++ y ∧ Free found a y ∧ (y = [] ∨ ∃ r, found y = some r) := by
  induction s with
  | nil => exact ⟨[], [], rfl, free_nil [], .inl rfl⟩
  | cons c s ih =>
    cases hfound : found (c :: s) with
    | some r => exact ⟨[], c :: s, rfl, free_nil _, .inr ⟨r, hfound⟩⟩
    | none =>
      obtain ⟨a, y, hs, hfree, hy⟩ := ih
      refine ⟨c :: a, y, by rw [hs, List.cons_append], free_cons.mpr ⟨?_, hfree⟩, hy⟩
      rw [← hs]
      exact hfound

/-! ## The front of a text -/

/-- An element that ends the front part is found before what follows. -/
theorem mem_dropWhile {p : α → Bool} {s : List α} {c : α} (hc : c ∈ s) (hp : p c = false) :
    c ∈ s.dropWhile p := by
  rw [← List.takeWhile_append_dropWhile (p := p) (l := s)] at hc
  rcases List.mem_append.mp hc with hc | hc
  · exact absurd (List.mem_takeWhile_imp hc) (by rw [hp]; exact Bool.false_ne_true)
  · exact hc

theorem dropWhile_append_of_mem {p : α → Bool} {s : List α} {c : α} (hc : c ∈ s)
    (hp : p c = false) (y : List α) : (s ++ y).dropWhile p = s.dropWhile p ++ y := by
  have hne : ¬(s.dropWhile p).isEmpty = true := fun h =>
    List.not_mem_nil (List.isEmpty_iff.mp h ▸ mem_dropWhile hc hp)
  rw [List.dropWhile_append, if_neg hne]

theorem takeWhile_append_of_mem {p : α → Bool} {s : List α} {c : α} (hc : c ∈ s)
    (hp : p c = false) (y : List α) : (s ++ y).takeWhile p = s.takeWhile p := by
  have hsplit := List.takeWhile_append_dropWhile (p := p) (l := s ++ y)
  rw [dropWhile_append_of_mem hc hp, ← List.append_assoc] at hsplit
  have hs := List.append_cancel_right hsplit
  conv_rhs at hs => rw [← List.takeWhile_append_dropWhile (p := p) (l := s)]
  exact List.append_cancel_right hs

variable [DecidableEq α]

/-- What follows the text `p` at the front. -/
def strip (p s : List α) : Option (List α) :=
  if p.isPrefixOf s = true then some (s.drop p.length) else none

theorem strip_append (p s : List α) : strip p (p ++ s) = some s := by
  rw [strip, if_pos (List.isPrefixOf_iff_prefix.mpr (List.prefix_append p s)), List.drop_left]

theorem eq_of_strip {p s r : List α} (h : strip p s = some r) : s = p ++ r := by
  rw [strip] at h
  split at h
  · rename_i hprefix
    obtain ⟨t, rfl⟩ := List.isPrefixOf_iff_prefix.mp hprefix
    rw [List.drop_left] at h
    rw [Option.some.inj h]
  · exact absurd h nofun

theorem length_le_of_strip {p s r : List α} (h : strip p s = some r) : r.length ≤ s.length := by
  rw [eq_of_strip h, List.length_append]
  exact Nat.le_add_left _ _

theorem strip_eq_none {p s : List α} : strip p s = none ↔ ¬p <+: s := by
  rw [strip, ← List.isPrefixOf_iff_prefix]
  split
  · rename_i h
    exact iff_of_false nofun (not_not.mpr h)
  · rename_i h
    exact iff_of_true rfl h

/-- A text with an element that is not in `p` settles whether `p` is in front. -/
theorem strip_append_of_mem {p s : List α} {c : α} (hc : c ∈ s) (hp : c ∉ p) (y : List α) :
    strip p (s ++ y) = (strip p s).map (· ++ y) := by
  cases h : strip p s with
  | some r =>
    rw [eq_of_strip h, List.append_assoc, strip_append]
    rfl
  | none =>
    rw [strip_eq_none] at h
    rw [Option.map_none, strip_eq_none]
    intro hprefix
    rcases Nat.le_total p.length s.length with hle | hle
    · exact h (List.prefix_of_prefix_length_le hprefix (List.prefix_append s y) hle)
    · obtain ⟨d, rfl⟩ := List.prefix_of_prefix_length_le (List.prefix_append s y) hprefix hle
      exact hp (List.mem_append_left d hc)

end Prismalama.Lib.Scan
