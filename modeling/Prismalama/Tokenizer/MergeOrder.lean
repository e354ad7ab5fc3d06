import Prismalama.Lib.GreedyMerge
import Prismalama.Tokenizer.Merges

/-!
# The merge loop is greedy merging

The entries that are not empty are the segments of a text. A candidate whose entries are both not
empty and that passes the check of the encoder is one of two neighbours as they are now: entries
grow at their ends, and only the neighbours of a new segment are new. So the loop merges as
`Merging.Step` does with the order of the heap, and every such merging is a run of the loop with
some heap.
-/

namespace Prismalama.Tokenizer

open Prismalama.Lib

variable {κ : Type*}

/-- What the check of a candidate tells: its segments are those it was made for. -/
structure MergeRules.Exact (R : MergeRules κ) : Prop where
  same : ∀ {l r left right : List Char} {k : κ}, R.key l r = some k → l <+: left → r <+: right →
    R.joins k left right = true → left = l ∧ right = r

/-- The segments of the reference procedure. -/
def MergeRules.merging {ω : Type*} (R : MergeRules κ) (weight : κ → ω) (leftmost : Bool) :
    Merging Char κ ω where
  cand l r := (R.key l r).filter fun k => R.joins k l r
  weight := weight
  leftmost := leftmost

def segments (merges : List Merge) : List (List Char) := (pieces merges).filter (· ≠ [])

def Live (merges : List Merge) (i : Nat) : Prop := i < merges.length ∧ (entry merges i).runes ≠ []

/-- Two segments with nothing between them. -/
structure Neighbours (merges : List Merge) (i j : Nat) : Prop where
  lt : i < j
  left : Live merges i
  right : Live merges j
  gap : Gap (pieces merges) i j

/-- How many segments there are before an entry. -/
def position (merges : List Merge) (i : Nat) : Nat :=
  (((pieces merges).take i).filter (· ≠ [])).length

/-! ## Entries and segments -/

theorem gap_iff {merges : List Merge} {i j : Nat} (hj : j ≤ merges.length) :
    Gap (pieces merges) i j ↔ ∀ k, i < k → k < j → (entry merges k).runes = [] := by
  unfold Gap
  refine forall_congr' fun k => forall_congr' fun _ => ⟨fun h hk => ?_, fun h hk => ?_⟩
  · have hpiece := h hk
    rw [getElem?_pieces (hk.trans_le hj)] at hpiece
    exact Option.some.inj hpiece
  · rw [getElem?_pieces (hk.trans_le hj), h hk]

/-- The entries around two neighbours. -/
theorem Neighbours.split {merges : List Merge} {a b : Nat} (h : Neighbours merges a b) :
    ∃ before gap after, pieces merges = before ++ (entry merges a).runes ::
        (gap ++ (entry merges b).runes :: after) ∧
      before.length = a ∧ before.length + 1 + gap.length = b ∧ ∀ g ∈ gap, g = [] := by
  obtain ⟨hab, ⟨ha, -⟩, ⟨hb, -⟩, hgap⟩ := h
  have hlen := length_pieces merges
  have hla := getElem?_pieces ha
  have hlb := getElem?_pieces hb
  obtain ⟨ha', hla⟩ := List.getElem?_eq_some_iff.mp hla
  obtain ⟨hb', hlb⟩ := List.getElem?_eq_some_iff.mp hlb
  refine ⟨(pieces merges).take a, ((pieces merges).take b).drop (a + 1),
    (pieces merges).drop (b + 1), ?_, ?_, ?_, ?_⟩
  · rw [← hla, ← hlb]
    have hdrop : (pieces merges).drop b = (pieces merges)[b] :: (pieces merges).drop (b + 1) :=
      List.drop_eq_getElem_cons hb'
    have hmid : ((pieces merges).take b).drop (a + 1) ++ (pieces merges).drop b =
        (pieces merges).drop (a + 1) := by
      rw [← List.drop_append_of_le_length (by rw [List.length_take]; omega),
        List.take_append_drop]
    rw [← hdrop, hmid, ← List.drop_eq_getElem_cons ha', List.take_append_drop]
  · rw [List.length_take]
    omega
  · rw [List.length_take, List.length_drop, List.length_take]
    omega
  · intro g hg
    obtain ⟨k, hk, rfl⟩ := List.getElem_of_mem hg
    rw [List.length_drop, List.length_take] at hk
    rw [List.getElem_drop, List.getElem_take]
    have hempty := hgap (a + 1 + k) (by omega) (by omega)
    rw [List.getElem?_eq_getElem (by omega)] at hempty
    exact Option.some.inj hempty

theorem filter_gap {gap : List (List Char)} (h : ∀ g ∈ gap, g = []) :
    gap.filter (· ≠ []) = [] := by
  rw [List.filter_eq_nil_iff]
  intro g hg
  simp [h g hg]

/-- Two neighbours in the list of the segments. -/
theorem Neighbours.segments {merges : List Merge} {a b : Nat} (h : Neighbours merges a b) :
    ∃ before after, segments merges =
        before ++ (entry merges a).runes :: (entry merges b).runes :: after ∧
      before.length = position merges a ∧ segments (join merges a b) =
        before ++ ((entry merges a).runes ++ (entry merges b).runes) :: after := by
  obtain ⟨before, gap, after, hsplit, hbefore, hgaplen, hgap⟩ := h.split
  have hleft := h.left.2
  have hright := h.right.2
  refine ⟨before.filter (· ≠ []), after.filter (· ≠ []), ?_, ?_, ?_⟩
  · rw [Tokenizer.segments, hsplit, List.filter_append, List.filter_cons_of_pos (by simpa using hleft),
      List.filter_append, filter_gap hgap, List.filter_cons_of_pos (by simpa using hright),
      List.nil_append]
  · rw [position, hsplit, ← hbefore, List.take_left]
  · have hset : pieces (join merges a b) =
        before ++ ((entry merges a).runes ++ (entry merges b).runes) :: (gap ++ [] :: after) := by
      rw [pieces_join, hsplit, List.set_append_right _ _ (by omega), ← hbefore, Nat.sub_self,
        List.set_cons_zero, List.set_append_right _ _ (by omega), ← hgaplen]
      have hsub : before.length + 1 + gap.length - before.length = gap.length + 1 := by omega
      rw [hsub, List.set_cons_succ, List.set_append_right _ _ (le_refl _), Nat.sub_self,
        List.set_cons_zero]
    rw [Tokenizer.segments, hset, List.filter_append, List.filter_cons_of_pos (by simp [hleft]),
      List.filter_append, filter_gap hgap, List.filter_cons_of_neg (by simp), List.nil_append]

/-- Two segments side by side are neighbours among the entries. -/
theorem exists_neighbours {merges : List Merge} {before : List (List Char)} {l r : List Char}
    {after : List (List Char)} (h : segments merges = before ++ l :: r :: after) :
    ∃ a b, Neighbours merges a b ∧ (entry merges a).runes = l ∧ (entry merges b).runes = r ∧
      position merges a = before.length := by
  obtain ⟨front, back, hsplit, rfl, hback⟩ := List.filter_eq_append_iff.mp h
  obtain ⟨gap₁, back, rfl, hgap₁, hl, hback⟩ := List.filter_eq_cons_iff.mp hback
  obtain ⟨gap₂, rest, rfl, hgap₂, hr, -⟩ := List.filter_eq_cons_iff.mp hback
  have hlen := length_pieces merges
  rw [hsplit] at hlen
  simp only [List.length_append, List.length_cons] at hlen
  have hla : (entry merges (front ++ gap₁).length).runes = l := by
    have hpiece := @getElem?_pieces merges (front ++ gap₁).length
      (by rw [List.length_append]; omega)
    rw [hsplit, ← List.append_assoc, List.getElem?_append_right (le_refl _), Nat.sub_self] at hpiece
    exact (Option.some.inj hpiece).symm
  have hlb : (entry merges ((front ++ gap₁).length + 1 + gap₂.length)).runes = r := by
    have hpiece := @getElem?_pieces merges
      ((front ++ gap₁).length + 1 + gap₂.length) (by rw [List.length_append]; omega)
    have hsub : (front ++ gap₁).length + 1 + gap₂.length - (front ++ gap₁).length =
        gap₂.length + 1 := by omega
    rw [hsplit, ← List.append_assoc, List.getElem?_append_right (by omega), hsub,
      List.getElem?_cons_succ, List.getElem?_append_right (le_refl _), Nat.sub_self] at hpiece
    exact (Option.some.inj hpiece).symm
  have hlne : l ≠ [] := by simpa using hl
  have hrne : r ≠ [] := by simpa using hr
  refine ⟨(front ++ gap₁).length, (front ++ gap₁).length + 1 + gap₂.length,
    ⟨by omega, ⟨by rw [List.length_append]; omega, hla ▸ hlne⟩,
      ⟨by rw [List.length_append]; omega, hlb ▸ hrne⟩, fun k hk hk' => ?_⟩, hla, hlb, ?_⟩
  · obtain ⟨m, rfl⟩ : ∃ m, k = (front ++ gap₁).length + (m + 1) := ⟨k - (front ++ gap₁).length - 1,
      by omega⟩
    have hm : m < gap₂.length := by omega
    rw [hsplit, ← List.append_assoc, List.getElem?_append_right (by omega), Nat.add_sub_cancel_left,
      List.getElem?_cons_succ, List.getElem?_append_left hm, List.getElem?_eq_getElem hm]
    have hempty := hgap₂ _ (List.getElem_mem hm)
    simpa using hempty
  · have hfront : (front ++ gap₁).filter (· ≠ []) = front.filter (· ≠ []) := by
      have hgap : ∀ g ∈ gap₁, g = [] := fun g hg => by simpa using hgap₁ g hg
      rw [List.filter_append, filter_gap hgap, List.append_nil]
    rw [position, hsplit, ← List.append_assoc, List.take_left, hfront]

theorem position_mono (merges : List Merge) {i j : Nat} (h : i ≤ j) :
    position merges i ≤ position merges j :=
  ((List.take_prefix_take_left h).sublist.filter _).length_le

/-- A segment counts. -/
theorem position_lt {merges : List Merge} {i j : Nat} (hi : Live merges i) (h : i < j) :
    position merges i < position merges j := by
  obtain ⟨hlt, hne⟩ := hi
  refine Nat.lt_of_lt_of_le ?_ (position_mono merges h)
  have hlen : i < (pieces merges).length := by rw [length_pieces]; exact hlt
  have hpiece := getElem?_pieces hlt
  rw [List.getElem?_eq_getElem hlen] at hpiece
  unfold position
  rw [List.take_succ_eq_append_getElem hlen, List.filter_append, List.length_append,
    Option.some.inj hpiece, List.filter_cons_of_pos (by simpa using hne)]
  exact Nat.lt_succ_self _

/-! ## One join, entry by entry -/

theorem entry_join {merges : List Merge} {a b : Nat} (hab : a < b) (hb : b < merges.length)
    {i : Nat} (hi : i < merges.length) (hbn : b < (entry merges b).n) :
    entry (join merges a b) i =
      ⟨if i = (entry merges b).n then (a : Int) else (entry merges i).p,
        if i = a then (entry merges b).n else (entry merges i).n,
        if i = a then (entry merges a).runes ++ (entry merges b).runes
          else if i = b then [] else (entry merges i).runes⟩ := by
  have hset : ∀ i < merges.length, ((merges.set a ⟨(entry merges a).p, (entry merges b).n,
      (entry merges a).runes ++ (entry merges b).runes⟩).set b
      ⟨(entry merges b).p, (entry merges b).n, []⟩)[i]? =
      some ⟨(entry merges i).p, if i = a then (entry merges b).n else (entry merges i).n,
        if i = a then (entry merges a).runes ++ (entry merges b).runes
          else if i = b then [] else (entry merges i).runes⟩ := by
    intro i hi
    by_cases hib : i = b
    · subst hib
      rw [List.getElem?_set_self (by rw [List.length_set]; exact hb)]
      simp [Nat.ne_of_gt hab]
    · rw [List.getElem?_set_ne (Ne.symm hib)]
      by_cases hia : i = a
      · subst hia
        rw [List.getElem?_set_self hi]
        simp
      · rw [List.getElem?_set_ne (Ne.symm hia), exists_entry hi]
        simp [hia, hib]
  have hjoin : (join merges a b)[i]? = some ⟨if i = (entry merges b).n then (a : Int)
      else (entry merges i).p, if i = a then (entry merges b).n else (entry merges i).n,
      if i = a then (entry merges a).runes ++ (entry merges b).runes
        else if i = b then [] else (entry merges i).runes⟩ := by
    simp only [join]
    split
    · rw [List.getElem?_modify, hset i hi]
      by_cases hin : (entry merges b).n = i
      · simp [hin]
      · simp [hin, Ne.symm hin]
    · next hlen =>
      have hin : ¬i = (entry merges b).n := by omega
      rw [hset i hi, if_neg hin]
  rw [exists_entry (by rw [length_join]; exact hi)] at hjoin
  exact Option.some.inj hjoin

section Join

variable {merges : List Merge} {a b : Nat}

/-- What is not empty after a join was not empty before, and has grown at its end. -/
theorem runes_join (hl : Linked merges) (hab : Neighbours merges a b) {i : Nat}
    (hi : i < merges.length) : ((entry (join merges a b) i).runes ≠ [] ↔
      (entry merges i).runes ≠ [] ∧ i ≠ b) ∧ (i ≠ b →
        (entry merges i).runes <+: (entry (join merges a b) i).runes) ∧
      (i ≠ a → i ≠ b → (entry (join merges a b) i).runes = (entry merges i).runes) := by
  have hbn := (hl.next b _ (exists_entry hab.right.1)).1
  have hne := hab.left.2
  have hlt := hab.lt
  rw [entry_join hab.lt hab.right.1 hi hbn]
  dsimp only
  by_cases hia : i = a
  · subst hia
    have hib : i ≠ b := Nat.ne_of_lt hlt
    simp [hne, hib]
  · by_cases hib : i = b
    · subst hib
      simp [hia]
    · simp [hia, hib]

theorem live_join (hl : Linked merges) (hab : Neighbours merges a b) (i : Nat) :
    Live (join merges a b) i ↔ Live merges i ∧ i ≠ b := by
  unfold Live
  rw [length_join]
  constructor
  · rintro ⟨hi, hne⟩
    obtain ⟨hne, hib⟩ := (runes_join hl hab hi).1.mp hne
    exact ⟨⟨hi, hne⟩, hib⟩
  · rintro ⟨⟨hi, hne⟩, hib⟩
    exact ⟨hi, (runes_join hl hab hi).1.mpr ⟨hne, hib⟩⟩

/-- The neighbours after a join: those of the new segment, and those there were. -/
theorem neighbours_join (hl : Linked merges) (hab : Neighbours merges a b) {i j : Nat}
    (h : Neighbours (join merges a b) i j) :
    (i = a ∧ Neighbours merges b j) ∨ (j = a ∧ Neighbours merges i a) ∨
      (i ≠ a ∧ i ≠ b ∧ j ≠ a ∧ j ≠ b ∧ Neighbours merges i j) := by
  obtain ⟨hi, hib⟩ := (live_join hl hab i).mp h.left
  obtain ⟨hj, hjb⟩ := (live_join hl hab j).mp h.right
  have hij := h.lt
  have hgap := h.gap
  have hab_gap := (gap_iff hab.right.1.le).mp hab.gap
  -- between the two there is nothing but the entry that was joined
  have hdead : ∀ k, i < k → k < j → k ≠ b → (entry merges k).runes = [] := by
    intro k hk hk' hkb
    have hklen : k < merges.length := hk'.trans hj.1
    have hempty := (gap_iff (by rw [length_join]; exact hj.1.le)).mp hgap k hk hk'
    by_contra hne
    exact (runes_join hl hab hklen).1.mpr ⟨hne, hkb⟩ hempty
  by_cases hia : i = a
  · subst hia
    have hbj : b < j := by
      rcases lt_trichotomy b j with hlt | rfl | hlt
      · exact hlt
      · exact absurd rfl hjb
      · exact absurd (hab_gap j hij hlt) hj.2
    refine .inl ⟨rfl, hbj, hab.right, hj, (gap_iff hj.1.le).mpr fun k hk hk' => ?_⟩
    exact hdead k (hab.lt.trans hk) hk' (Nat.ne_of_gt hk)
  · by_cases hja : j = a
    · subst hja
      refine .inr (.inl ⟨rfl, hij, hi, hj, (gap_iff hj.1.le).mpr fun k hk hk' => ?_⟩)
      exact hdead k hk hk' (Nat.ne_of_lt (hk'.trans hab.lt))
    · refine .inr (.inr ⟨hia, hib, hja, hjb, hij, hi, hj, (gap_iff hj.1.le).mpr fun k hk hk' => ?_⟩)
      by_cases hkb : k = b
      · subst hkb
        exfalso
        rcases lt_trichotomy i a with hlt | rfl | hlt
        · exact hab.left.2 (hdead a hlt (hab.lt.trans hk') (Nat.ne_of_lt hab.lt))
        · exact hia rfl
        · exact hi.2 (hab_gap i hlt hk)
      · exact hdead k hk hk' hkb

end Join

/-! ## The invariant -/

/-- The links lead from a segment to its neighbours, what the heap has was noted for two
segments that may have grown or gone, and every candidate is in the heap. -/
structure LoopInv (R : MergeRules κ) (merges : List Merge) (q : List (Pair κ)) : Prop where
  linked : Linked merges
  pairs : ∀ x ∈ q, x.Ok merges
  next : ∀ i j, Neighbours merges i j → (entry merges i).n = j
  prev : ∀ i j, Neighbours merges i j → (entry merges j).p = i
  noted : ∀ x ∈ q, ∃ l r, R.key l r = some x.key ∧
    ((entry merges x.a).runes ≠ [] → l <+: (entry merges x.a).runes) ∧
    ((entry merges x.b).runes ≠ [] → r <+: (entry merges x.b).runes)
  complete : ∀ i j k, Neighbours merges i j → R.key (entry merges i).runes (entry merges j).runes =
    some k → R.joins k (entry merges i).runes (entry merges j).runes = true → ⟨i, j, k⟩ ∈ q

/-- The loop goes on without the candidate. -/
def Stale (R : MergeRules κ) (merges : List Merge) (x : Pair κ) : Prop :=
  (entry merges x.a).runes = [] ∨ (entry merges x.b).runes = [] ∨
    R.joins x.key (entry merges x.a).runes (entry merges x.b).runes = false

/-- What is in the heap behind a join. -/
def afterJoin (R : MergeRules κ) (merges : List Merge) (x : Pair κ) (q : List (Pair κ)) :
    List (Pair κ) :=
  (pairwise R (join merges x.a x.b) x.a (entry (join merges x.a x.b) x.a).n).toList ++
    ((pairwise R (join merges x.a x.b) (entry (join merges x.a x.b) x.a).p x.a).toList ++ q)

variable {R : MergeRules κ} {merges : List Merge} {x : Pair κ} {q q' : List (Pair κ)}

theorem LoopInv.perm (h : LoopInv R merges q) (hperm : q.Perm q') : LoopInv R merges q' where
  linked := h.linked
  pairs y hy := h.pairs y (hperm.mem_iff.mpr hy)
  next := h.next
  prev := h.prev
  noted y hy := h.noted y (hperm.mem_iff.mpr hy)
  complete i j k hij hkey hjoins := hperm.mem_iff.mp (h.complete i j k hij hkey hjoins)

/-- A candidate that passes the check is the one that would be noted now. -/
theorem LoopInv.fresh (h : LoopInv R merges q) (hR : R.Exact) (hx : x ∈ q)
    (hjoin : ¬Stale R merges x) : Neighbours merges x.a x.b ∧
      R.key (entry merges x.a).runes (entry merges x.b).runes = some x.key ∧
      R.joins x.key (entry merges x.a).runes (entry merges x.b).runes = true := by
  unfold Stale at hjoin
  rw [not_or, not_or, Bool.not_eq_false] at hjoin
  obtain ⟨hleft, hright, hjoins⟩ := hjoin
  obtain ⟨hab, hb, hgap⟩ := h.pairs x hx
  obtain ⟨l, r, hkey, hl, hr⟩ := h.noted x hx
  obtain ⟨hsl, hsr⟩ := hR.same hkey (hl hleft) (hr hright) hjoins
  exact ⟨⟨hab, ⟨hab.trans hb, hleft⟩, ⟨hb, hright⟩, hgap⟩, by rw [hsl, hsr]; exact hkey, hjoins⟩

theorem LoopInv.skip (h : LoopInv R merges (x :: q)) (hstale : Stale R merges x) :
    LoopInv R merges q where
  linked := h.linked
  pairs y hy := h.pairs y (List.mem_cons_of_mem x hy)
  next := h.next
  prev := h.prev
  noted y hy := h.noted y (List.mem_cons_of_mem x hy)
  complete i j k hij hkey hjoins := by
    rcases List.mem_cons.mp (h.complete i j k hij hkey hjoins) with rfl | hmem
    · rcases hstale with hleft | hright | hjoin
      · exact absurd hleft hij.left.2
      · exact absurd hright hij.right.2
      · exact absurd hjoins (Bool.not_eq_true _ ▸ hjoin)
    · exact hmem

theorem mem_pairwise {a b : Nat} (hb : b < merges.length) {k : κ}
    (hkey : R.key (entry merges a).runes (entry merges b).runes = some k) :
    pairwise R merges a b = some ⟨a, b, k⟩ := by
  have hcond : ¬((a : Int) < 0 ∨ merges.length ≤ b) := by omega
  rw [pairwise, if_neg hcond, Int.toNat_natCast, hkey]
  rfl

theorem of_pairwise {a : Int} {b : Nat} (h : pairwise R merges a b = some x) :
    R.key (entry merges x.a).runes (entry merges x.b).runes = some x.key := by
  unfold pairwise at h
  split at h
  · cases h
  · obtain ⟨key, hkey, rfl⟩ := Option.map_eq_some_iff.mp h
    exact hkey

theorem mem_afterJoin {y : Pair κ} (hy : y ∈ afterJoin R merges x q) :
    y ∈ q ∨ pairwise R (join merges x.a x.b) (entry (join merges x.a x.b) x.a).p x.a = some y ∨
      pairwise R (join merges x.a x.b) x.a (entry (join merges x.a x.b) x.a).n = some y := by
  unfold afterJoin at hy
  rcases List.mem_append.mp hy with hy | hy
  · exact .inr (.inr (Option.mem_toList.mp hy))
  · rcases List.mem_append.mp hy with hy | hy
    · exact .inr (.inl (Option.mem_toList.mp hy))
    · exact .inl hy

theorem LoopInv.join (h : LoopInv R merges (x :: q)) (hab : Neighbours merges x.a x.b) :
    LoopInv R (join merges x.a x.b) (afterJoin R merges x q) := by
  have hbn := (h.linked.next x.b _ (exists_entry hab.right.1)).1
  have hlinked := h.linked.join hab.lt hab.right.1 hab.gap hab.left.2
  have hentry := fun {i : Nat} (hi : i < merges.length) =>
    entry_join (a := x.a) (i := i) hab.lt hab.right.1 hi hbn
  have hruns := fun {i : Nat} (hi : i < merges.length) => runes_join (i := i) h.linked hab hi
  have hnext : ∀ i j, Neighbours (Tokenizer.join merges x.a x.b) i j →
      (entry (Tokenizer.join merges x.a x.b) i).n = j := by
    intro i j hij
    have hi := ((live_join h.linked hab i).mp hij.left).1.1
    rw [hentry hi]
    rcases neighbours_join h.linked hab hij with ⟨rfl, hbj⟩ | ⟨rfl, hia⟩ | ⟨hia, -, -, -, hold⟩
    · exact (if_pos rfl).trans (h.next _ _ hbj)
    · exact (if_neg (Nat.ne_of_lt hia.lt)).trans (h.next _ _ hia)
    · exact (if_neg hia).trans (h.next _ _ hold)
  have hprev : ∀ i j, Neighbours (Tokenizer.join merges x.a x.b) i j →
      (entry (Tokenizer.join merges x.a x.b) j).p = i := by
    intro i j hij
    have hj := ((live_join h.linked hab j).mp hij.right).1.1
    rw [hentry hj]
    rcases neighbours_join h.linked hab hij with ⟨rfl, hbj⟩ | ⟨rfl, hia⟩ | ⟨-, hib, -, -, hold⟩
    · exact if_pos (h.next _ _ hbj).symm
    · exact (if_neg (Nat.ne_of_lt (hab.lt.trans hbn))).trans (h.prev _ _ hia)
    · -- what follows the entry that was joined has that as its neighbour
      refine (if_neg fun heq => hib ?_).trans (h.prev _ _ hold)
      subst heq
      have hgap := (h.linked.next x.b _ (exists_entry hab.right.1)).2.2
      have hpb := h.prev _ _ ⟨hbn, hab.right, hold.right, hgap⟩
      rw [h.prev _ _ hold] at hpb
      exact Int.natCast_inj.mp hpb
  refine ⟨hlinked, ?_, hnext, hprev, ?_, ?_⟩
  · intro y hy
    rcases mem_afterJoin hy with hy | hy | hy
    · obtain ⟨hlt, hb, hgap⟩ := h.pairs y (List.mem_cons_of_mem x hy)
      exact ⟨hlt, by rw [length_join]; exact hb, hgap.join hab.lt hab.right.1 hab.left.2⟩
    · exact pairwise_ok hy (hlinked.prev x.a _ (exists_entry (by rw [length_join]; exact hab.left.1)))
    · refine pairwise_ok hy fun j hj => ?_
      obtain rfl := Int.natCast_inj.mp hj
      obtain ⟨hlt, -, hg⟩ := hlinked.next x.a _
        (exists_entry (by rw [length_join]; exact hab.left.1))
      exact ⟨hlt, hg⟩
  · intro y hy
    rcases mem_afterJoin hy with hy | hy | hy
    · obtain ⟨hlt, hb, -⟩ := h.pairs y (List.mem_cons_of_mem x hy)
      obtain ⟨l, r, hkey, hl, hr⟩ := h.noted y (List.mem_cons_of_mem x hy)
      refine ⟨l, r, hkey, fun hne => ?_, fun hne => ?_⟩
      · obtain ⟨hold, hne⟩ := (hruns (hlt.trans hb)).1.mp hne
        exact (hl hold).trans ((hruns (hlt.trans hb)).2.1 hne)
      · obtain ⟨hold, hne⟩ := (hruns hb).1.mp hne
        exact (hr hold).trans ((hruns hb).2.1 hne)
    · exact ⟨_, _, of_pairwise hy, fun _ => List.prefix_rfl, fun _ => List.prefix_rfl⟩
    · exact ⟨_, _, of_pairwise hy, fun _ => List.prefix_rfl, fun _ => List.prefix_rfl⟩
  · intro i j k hij hkey hjoins
    have hilen := hij.left.1
    have hjlen := hij.right.1
    unfold afterJoin
    rcases neighbours_join h.linked hab hij with ⟨rfl, -⟩ | ⟨rfl, -⟩ | ⟨hia, hib, hja, hjb, hold⟩
    · rw [hnext _ _ hij, mem_pairwise hjlen hkey]
      exact List.mem_append_left _ (Option.mem_toList.mpr rfl)
    · rw [hprev _ _ hij, mem_pairwise hjlen hkey]
      exact List.mem_append_right _ (List.mem_append_left _ (Option.mem_toList.mpr rfl))
    · have hi' := (hruns hold.left.1).2.2 hia hib
      have hj' := (hruns hold.right.1).2.2 hja hjb
      rw [hi', hj'] at hkey hjoins
      rcases List.mem_cons.mp (h.complete i j k hold hkey hjoins) with rfl | hmem
      · exact absurd rfl hia
      · exact List.mem_append_right _ (List.mem_append_right _ hmem)

/-! ## Runs of the loop -/

section Runs

variable {ω : Type*} [LinearOrder ω] (R : MergeRules κ) (weight : κ → ω) (leftmost : Bool)

/-- The order of the heap: by weight, and with `leftmost` by the first entry, too. -/
def PopsBefore (y x : Pair κ) : Prop :=
  (R.merging weight leftmost).Before (y.key, y.a) (x.key, x.a)

/-- The runs of the loop, with a heap that gives some least candidate. -/
inductive Runs : List Merge → List (Pair κ) → List Merge → Prop
  | done {merges : List Merge} : Runs merges [] merges
  | skip {merges out : List Merge} {q rest : List (Pair κ)} {x : Pair κ} : q.Perm (x :: rest) →
      (∀ y ∈ rest, ¬PopsBefore R weight leftmost y x) → Stale R merges x → Runs merges rest out →
      Runs merges q out
  | join {merges out : List Merge} {q rest : List (Pair κ)} {x : Pair κ} : q.Perm (x :: rest) →
      (∀ y ∈ rest, ¬PopsBefore R weight leftmost y x) → ¬Stale R merges x →
      Runs (join merges x.a x.b) (afterJoin R merges x rest) out → Runs merges q out

variable {R weight leftmost}

theorem Runs.perm {out : List Merge} (h : Runs R weight leftmost merges q out)
    (hperm : q.Perm q') : Runs R weight leftmost merges q' out := by
  cases h with
  | done =>
    rw [hperm.nil_eq.symm]
    exact .done
  | skip hq hleast hstale hrest => exact .skip (hperm.symm.trans hq) hleast hstale hrest
  | join hq hleast hjoin hrest => exact .join (hperm.symm.trans hq) hleast hjoin hrest

theorem pushPair_perm (heap : Heap (Pair κ)) (q : List (Pair κ)) (o : Option (Pair κ)) :
    (pushPair heap q o).Perm (o.toList ++ q) := by
  cases o with
  | none => exact List.Perm.refl q
  | some x => exact heap.push_perm q x

/-- With a heap that gives a least candidate the loop is such a run. -/
theorem runs_of_mergeLoop {heap : Heap (Pair κ)} (hheap : ∀ q x rest, heap.pop q = some (x, rest) →
    ∀ y ∈ rest, ¬PopsBefore R weight leftmost y x) {fuel : Nat} {out : List Merge}
    (h : mergeLoop R heap fuel merges q = some out) : Runs R weight leftmost merges q out := by
  have hdone : ∀ {q : List (Pair κ)}, heap.pop q = none → q = [] := by
    intro q hpop
    cases q with
    | nil => rfl
    | cons x q =>
      have hsome := heap.pop_isSome x q
      rw [hpop] at hsome
      cases hsome
  induction fuel generalizing merges q with
  | zero =>
    unfold mergeLoop at h
    split at h
    · next hpop =>
      cases h
      rw [hdone (Option.isNone_iff_eq_none.mp hpop)]
      exact .done
    · cases h
  | succ fuel ih =>
    unfold mergeLoop at h
    cases hpop : heap.pop q with
    | none =>
      rw [hpop] at h
      cases h
      rw [hdone hpop]
      exact .done
    | some popped =>
      obtain ⟨x, rest⟩ := popped
      rw [hpop] at h
      dsimp only at h
      have hperm := heap.pop_perm q x rest hpop
      split at h
      · next hstale => exact .skip hperm (hheap q x rest hpop) hstale (ih h)
      · next hjoin =>
        refine .join hperm (hheap q x rest hpop) hjoin ((ih h).perm ?_)
        refine (pushPair_perm heap _ _).trans ?_
        exact (pushPair_perm heap rest _).append_left _

/-- A run merges the segments as the reference procedure with the order of the heap. -/
theorem Runs.merged (hR : R.Exact) (hinv : LoopInv R merges q) {out : List Merge}
    (h : Runs R weight leftmost merges q out) :
    (R.merging weight leftmost).Merges (segments merges) (segments out) := by
  induction h with
  | done =>
    refine .done fun before l r after k hat => ?_
    obtain ⟨hsplit, hcand⟩ := hat
    obtain ⟨a, b, hab, rfl, rfl, -⟩ := exists_neighbours hsplit
    obtain ⟨hkey, hjoins⟩ := Option.filter_eq_some_iff.mp hcand
    exact absurd (hinv.complete a b k hab hkey hjoins) List.not_mem_nil
  | skip hq _ hstale _ ih => exact ih ((hinv.perm hq).skip hstale)
  | @join merges out q rest x hq hleast hjoin _ ih =>
    have hinv' := hinv.perm hq
    obtain ⟨hab, hkey, hjoins⟩ := hinv'.fresh hR List.mem_cons_self hjoin
    obtain ⟨before, after, hsegs, hpos, hjoined⟩ := hab.segments
    refine .step ⟨before, _, _, after, x.key, ⟨hsegs, Option.filter_eq_some_iff.mpr ⟨hkey, hjoins⟩⟩,
      hjoined, ?_⟩ (ih (hinv'.join hab))
    -- any other candidate is in the heap
    intro before' l' r' after' k' hat hbefore
    obtain ⟨hsplit, hcand⟩ := hat
    obtain ⟨i, j, hij, rfl, rfl, hpos'⟩ := exists_neighbours hsplit
    obtain ⟨hkey', hjoins'⟩ := Option.filter_eq_some_iff.mp hcand
    have hpops : PopsBefore R weight leftmost ⟨i, j, k'⟩ x := by
      rcases hbefore with hlt | ⟨heq, hleft, hlt⟩
      · exact .inl hlt
      · refine .inr ⟨heq, hleft, ?_⟩
        dsimp only at hlt
        rw [hpos, ← hpos'] at hlt
        by_contra hle
        exact absurd hlt (not_lt.mpr (position_mono merges (not_lt.mp hle)))
    rcases List.mem_cons.mp (hinv'.complete i j k' hij hkey' hjoins') with rfl | hmem
    · exact Merging.Before.irrefl _ _ hpops
    · exact hleast _ hmem hpops

/-- Every outcome of the reference procedure is one of a run. -/
theorem exists_runs (hR : R.Exact) (hinv : LoopInv R merges q) {segs out : List (List Char)}
    (hsegs : segments merges = segs) (h : (R.merging weight leftmost).Merges segs out) :
    ∃ merges', Runs R weight leftmost merges q merges' ∧ segments merges' = out := by
  classical
  induction h generalizing merges q with
  | @done segs hdone =>
    -- all that is left in the heap is stale
    induction hn : q.length generalizing q with
    | zero =>
      rw [List.length_eq_zero_iff.mp hn]
      exact ⟨merges, .done, hsegs⟩
    | succ n ih =>
      obtain ⟨x, hx, hleast⟩ := Merging.exists_least (R.merging weight leftmost)
        (fun x : Pair κ => (x.key, x.a)) (List.ne_nil_of_length_eq_add_one hn)
      have hperm := List.perm_cons_erase hx
      have hstale : Stale R merges x := by
        by_contra hjoin
        obtain ⟨hab, hkey, hjoins⟩ := hinv.fresh hR hx hjoin
        obtain ⟨before, after, hsplit, -, -⟩ := hab.segments
        exact hdone before _ _ after x.key ⟨hsegs ▸ hsplit,
          Option.filter_eq_some_iff.mpr ⟨hkey, hjoins⟩⟩
      have hlen := hperm.length_eq
      rw [List.length_cons] at hlen
      obtain ⟨merges', hrun, hout⟩ := ih ((hinv.perm hperm).skip hstale) (by omega)
      exact ⟨merges', .skip hperm (fun y hy => hleast y (List.mem_of_mem_erase hy)) hstale hrun, hout⟩
  | @step segs segs' out hstep _ ih =>
    obtain ⟨before, l, r, after, k, ⟨hsplit, hcand⟩, hmerged, hleast⟩ := hstep
    obtain ⟨a, b, hab, rfl, rfl, hpos⟩ := exists_neighbours (hsegs.trans hsplit)
    obtain ⟨hkey, hjoins⟩ := Option.filter_eq_some_iff.mp hcand
    obtain ⟨before₁, after₁, hsplit₁, hpos₁, hjoined⟩ := hab.segments
    have hsegs' : segments (join merges a b) = segs' := by
      have heq := (hsplit₁.symm.trans hsegs).trans hsplit
      obtain ⟨rfl, htail⟩ := List.append_inj heq (hpos₁.trans hpos)
      rw [List.cons.injEq, List.cons.injEq] at htail
      rw [hjoined, hmerged, htail.2.2]
    -- candidates that are taken out before this one are stale
    induction hn : q.length generalizing q with
    | zero =>
      have hmem := hinv.complete a b k hab hkey hjoins
      rw [List.length_eq_zero_iff.mp hn] at hmem
      exact absurd hmem List.not_mem_nil
    | succ n ih' =>
      have hmem := hinv.complete a b k hab hkey hjoins
      by_cases hfirst : ∀ y ∈ q, ¬PopsBefore R weight leftmost y ⟨a, b, k⟩
      · have hperm := List.perm_cons_erase hmem
        have hfresh : ¬Stale R merges ⟨a, b, k⟩ := by
          rintro (hempty | hempty | hnot)
          · exact hab.left.2 hempty
          · exact hab.right.2 hempty
          · rw [hjoins] at hnot
            cases hnot
        obtain ⟨merges', hrun, hout⟩ := ih ((hinv.perm hperm).join hab) hsegs'
        exact ⟨merges', .join hperm (fun y hy => hfirst y (List.mem_of_mem_erase hy)) hfresh hrun,
          hout⟩
      · obtain ⟨y, hy, hbefore⟩ : ∃ y ∈ q, PopsBefore R weight leftmost y ⟨a, b, k⟩ := by
          by_contra hnone
          exact hfirst fun y hy hbefore => hnone ⟨y, hy, hbefore⟩
        obtain ⟨x, hx, hxleast⟩ := Merging.exists_least (R.merging weight leftmost)
          (fun x : Pair κ => (x.key, x.a)) (List.ne_nil_of_mem hy)
        have hxbefore : PopsBefore R weight leftmost x ⟨a, b, k⟩ := by
          have hxy := hxleast y hy
          unfold PopsBefore at hbefore ⊢
          rw [Merging.before_iff] at hxy hbefore ⊢
          exact (not_lt.mp hxy).trans_lt hbefore
        have hperm := List.perm_cons_erase hx
        have hstale : Stale R merges x := by
          by_contra hjoin
          obtain ⟨hxab, hxkey, hxjoins⟩ := hinv.fresh hR hx hjoin
          obtain ⟨before', after', hsplit', hpos', -⟩ := hxab.segments
          refine hleast before' _ _ after' x.key ⟨hsegs ▸ hsplit',
            Option.filter_eq_some_iff.mpr ⟨hxkey, hxjoins⟩⟩ ?_
          rcases hxbefore with hlt | ⟨heq, hleft, hlt⟩
          · exact .inl hlt
          · refine .inr ⟨heq, hleft, ?_⟩
            dsimp only
            rw [hpos', ← hpos]
            exact position_lt hxab.left hlt
        have hlen := hperm.length_eq
        rw [List.length_cons] at hlen
        obtain ⟨merges', hrun, hout⟩ := ih' ((hinv.perm hperm).skip hstale) (by omega)
        exact ⟨merges', .skip hperm (fun y hy => hxleast y (List.mem_of_mem_erase hy)) hstale hrun,
          hout⟩

/-! ## From the runes of a text -/

/-- What is in the heap at the start. -/
def startQueue (R : MergeRules κ) (merges : List Merge) : List (Pair κ) :=
  (List.range (merges.length - 1)).filterMap fun (i : Nat) => pairwise R merges i (i + 1)

theorem startPairs_perm (heap : Heap (Pair κ)) (merges : List Merge) :
    (startPairs R heap merges).Perm (startQueue R merges) := by
  have hloop : ∀ (is : List Nat) (q : List (Pair κ)),
      (is.foldl (fun q (i : Nat) => pushPair heap q (pairwise R merges i (i + 1))) q).Perm
        (is.filterMap (fun (i : Nat) => pairwise R merges i (i + 1)) ++ q) := by
    intro is
    induction is with
    | nil => exact fun q => List.Perm.refl q
    | cons i is ih =>
      intro q
      refine (ih _).trans ?_
      dsimp only [pushPair]
      cases hpair : pairwise R merges i (i + 1) with
      | none =>
        simp only [List.filterMap_cons, hpair]
        exact List.Perm.refl _
      | some x =>
        simp only [List.filterMap_cons, hpair]
        exact ((heap.push_perm q x).append_left _).trans List.perm_middle
  have hperm := hloop (List.range (merges.length - 1)) []
  rw [List.append_nil] at hperm
  exact hperm

theorem segments_startMerges (runes : List Char) :
    segments (startMerges runes) = runes.map fun c => [c] := by
  rw [segments, pieces_startMerges, List.filter_eq_self]
  intro piece hpiece
  obtain ⟨c, -, rfl⟩ := List.mem_map.mp hpiece
  rfl

theorem loopInv_start (runes : List Char) :
    LoopInv R (startMerges runes) (startQueue R (startMerges runes)) := by
  have hlen : (startMerges runes).length = runes.length := by simp [startMerges]
  have hmem : ∀ {x : Pair κ}, x ∈ startQueue R (startMerges runes) →
      ∃ i : Nat, pairwise R (startMerges runes) i (i + 1) = some x := by
    intro x hx
    obtain ⟨i, -, hi⟩ := List.mem_filterMap.mp hx
    exact ⟨i, hi⟩
  -- every entry has a rune
  have hadjacent : ∀ i j, Neighbours (startMerges runes) i j → j = i + 1 := by
    intro i j hij
    by_contra hne
    have hlt := hij.lt
    have hj := hij.right.1
    have hgap := hij.gap (i + 1) (Nat.lt_succ_self i) (by omega)
    rw [pieces_startMerges, List.getElem?_map] at hgap
    obtain ⟨c, -, hc⟩ := Option.map_eq_some_iff.mp hgap
    cases hc
  refine ⟨linked_startMerges runes, fun x hx => ?_, fun i j hij => ?_, fun i j hij => ?_,
    fun x hx => ?_, fun i j k hij hkey hjoins => ?_⟩
  · obtain ⟨i, hi⟩ := hmem hx
    refine pairwise_ok hi fun j hj => ?_
    obtain rfl := Int.natCast_inj.mp hj
    exact ⟨by omega, fun k hk hk' => by omega⟩
  · obtain rfl := hadjacent i j hij
    exact (getElem?_startMerges (exists_entry hij.left.1)).2.1
  · obtain rfl := hadjacent i j hij
    have hp := (getElem?_startMerges (exists_entry hij.right.1)).1
    rw [hp]
    omega
  · obtain ⟨i, hi⟩ := hmem hx
    exact ⟨_, _, of_pairwise hi, fun _ => List.prefix_rfl, fun _ => List.prefix_rfl⟩
  · obtain rfl := hadjacent i j hij
    have hj := hij.right.1
    exact List.mem_filterMap.mpr ⟨i, List.mem_range.mpr (by omega), mem_pairwise hj hkey⟩

/-- The pieces that a run of the loop can leave. -/
def CanLeave (R : MergeRules κ) (weight : κ → ω) (leftmost : Bool) (runes : List Char)
    (ps : List (List Char)) : Prop :=
  ∃ out, Runs R weight leftmost (startMerges runes) (startQueue R (startMerges runes)) out ∧
    segments out = ps

/-- They are the outcomes of the reference procedure. -/
theorem canLeave_iff (hR : R.Exact) (runes : List Char) (ps : List (List Char)) :
    CanLeave R weight leftmost runes ps ↔
      (R.merging weight leftmost).Merges (runes.map fun c => [c]) ps := by
  constructor
  · rintro ⟨out, hrun, rfl⟩
    have hmerges := hrun.merged hR (loopInv_start runes)
    rw [segments_startMerges] at hmerges
    exact hmerges
  · exact exists_runs hR (loopInv_start runes) (segments_startMerges runes)

theorem canLeave_mergeRunes {heap : Heap (Pair κ)} (hheap : ∀ q x rest,
    heap.pop q = some (x, rest) → ∀ y ∈ rest, ¬PopsBefore R weight leftmost y x)
    {runes : List Char} {ps : List (List Char)} (h : mergeRunes R heap runes = some ps) :
    CanLeave R weight leftmost runes ps := by
  obtain ⟨out, hout, rfl⟩ := Option.map_eq_some_iff.mp h
  exact ⟨out, (runs_of_mergeLoop hheap hout).perm (startPairs_perm heap _), rfl⟩

end Runs

/-! ## What a candidate was made for -/

/-- The rules with candidates that carry the segments they were made for. No check looks at
them. -/
def MergeRules.noting (R : MergeRules κ) : MergeRules (κ × List Char × List Char) where
  key l r := (R.key l r).map fun k => (k, l, r)
  joins k l r := R.joins k.1 l r

theorem MergeRules.Exact.noting (hR : R.Exact) : R.noting.Exact where
  same := by
    intro l r left right k hkey hl hr hjoins
    obtain ⟨k₀, hk₀, rfl⟩ := Option.map_eq_some_iff.mp hkey
    exact hR.same hk₀ hl hr hjoins

/-- The states of the loop, whatever the order of the heap. -/
inductive Visits (R : MergeRules κ) (runes : List Char) : List Merge → List (Pair κ) → Prop
  | start : Visits R runes (startMerges runes) (startQueue R (startMerges runes))
  | skip {merges : List Merge} {q rest : List (Pair κ)} {x : Pair κ} : Visits R runes merges q →
      q.Perm (x :: rest) → Stale R merges x → Visits R runes merges rest
  | join {merges : List Merge} {q rest : List (Pair κ)} {x : Pair κ} : Visits R runes merges q →
      q.Perm (x :: rest) → ¬Stale R merges x →
      Visits R runes (join merges x.a x.b) (afterJoin R merges x rest)

theorem Visits.loopInv (hR : R.Exact) {runes : List Char} (h : Visits R runes merges q) :
    LoopInv R merges q := by
  induction h with
  | start => exact loopInv_start runes
  | skip _ hq hstale ih => exact (ih.perm hq).skip hstale
  | join _ hq hjoin ih =>
    exact (ih.perm hq).join ((ih.perm hq).fresh hR List.mem_cons_self hjoin).1

/-- A candidate without the segments it was made for. -/
def Pair.forget (x : Pair (κ × List Char × List Char)) : Pair κ := ⟨x.a, x.b, x.key.1⟩

theorem pairwise_noting (R : MergeRules κ) (merges : List Merge) (a : Int) (b : Nat) :
    (pairwise R.noting merges a b).map Pair.forget = pairwise R merges a b := by
  unfold pairwise
  split
  · rfl
  · dsimp only [MergeRules.noting]
    rw [Option.map_map, Option.map_map]
    rfl

theorem startQueue_noting (R : MergeRules κ) (merges : List Merge) :
    (startQueue R.noting merges).map Pair.forget = startQueue R merges := by
  unfold startQueue
  rw [List.map_filterMap]
  simp only [pairwise_noting]

theorem toList_noting (R : MergeRules κ) (merges : List Merge) (a : Int) (b : Nat) :
    (pairwise R.noting merges a b).toList.map Pair.forget = (pairwise R merges a b).toList := by
  rw [← pairwise_noting R merges a b]
  cases pairwise R.noting merges a b <;> rfl

theorem afterJoin_noting (R : MergeRules κ) (merges : List Merge)
    (x : Pair (κ × List Char × List Char)) (q : List (Pair (κ × List Char × List Char))) :
    (afterJoin R.noting merges x q).map Pair.forget =
      afterJoin R merges x.forget (q.map Pair.forget) := by
  unfold afterJoin
  rw [List.map_append, List.map_append, toList_noting, toList_noting]
  rfl

theorem afterJoin_perm (h : q.Perm q') : (afterJoin R merges x q).Perm (afterJoin R merges x q') :=
  (h.append_left _).append_left _

/-- What is taken out of an image is the image of what is taken out. -/
theorem exists_of_map_perm {α β : Type*} {f : α → β} {l : List α} {y : β} {rest : List β}
    (h : (l.map f).Perm (y :: rest)) :
    ∃ x xs, f x = y ∧ l.Perm (x :: xs) ∧ (xs.map f).Perm rest := by
  obtain ⟨x, hx, rfl⟩ := List.mem_map.mp (h.mem_iff.mpr List.mem_cons_self)
  obtain ⟨before, after, rfl⟩ := List.append_of_mem hx
  refine ⟨x, before ++ after, rfl, List.perm_middle, ?_⟩
  exact ((List.perm_middle.map f).symm.trans h).cons_inv

/-- Every state is one whose candidates have their segments noted. -/
theorem Visits.noting {runes : List Char} (h : Visits R runes merges q) :
    ∃ q', Visits R.noting runes merges q' ∧ (q'.map Pair.forget).Perm q := by
  induction h with
  | start => exact ⟨_, .start, List.Perm.of_eq (startQueue_noting R _)⟩
  | skip _ hq hstale ih =>
    obtain ⟨q₀, hvisits, hperm⟩ := ih
    obtain ⟨x, rest, rfl, htaken, hrest⟩ := exists_of_map_perm (hperm.trans hq)
    exact ⟨rest, hvisits.skip htaken hstale, hrest⟩
  | join _ hq hjoin ih =>
    obtain ⟨q₀, hvisits, hperm⟩ := ih
    obtain ⟨x, rest, rfl, htaken, hrest⟩ := exists_of_map_perm (hperm.trans hq)
    refine ⟨_, hvisits.join htaken hjoin, ?_⟩
    rw [afterJoin_noting]
    exact afterJoin_perm hrest

/-- What the loop has still to do after some rounds starts from such a state. -/
theorem exists_visits_mergeLoop (heap : Heap (Pair κ)) {runes : List Char} {q₀ : List (Pair κ)}
    (h : Visits R runes merges q₀) (hperm : q₀.Perm q) (rounds fuel : Nat) :
    ∃ merges' q₁ q', Visits R runes merges' q₁ ∧ q₁.Perm q' ∧
      mergeLoop R heap (rounds + fuel) merges q = mergeLoop R heap fuel merges' q' := by
  induction rounds generalizing merges q q₀ with
  | zero => exact ⟨merges, q₀, q, h, hperm, by rw [Nat.zero_add]⟩
  | succ rounds ih =>
    rw [Nat.succ_add]
    cases hpop : heap.pop q with
    | none =>
      -- the loop is over, with any fuel
      refine ⟨merges, q₀, q, h, hperm, ?_⟩
      rw [mergeLoop, hpop]
      cases fuel <;> simp [mergeLoop, hpop]
    | some popped =>
      obtain ⟨x, rest⟩ := popped
      have htaken := hperm.trans (heap.pop_perm q x rest hpop)
      rw [mergeLoop, hpop]
      dsimp only
      split
      · next hstale => exact ih (h.skip htaken hstale) (List.Perm.refl rest)
      · next hjoin =>
        refine ih (h.join htaken hjoin) ((pushPair_perm heap _ _).trans ?_).symm
        exact (pushPair_perm heap rest _).append_left _

/-- So of the whole loop: the states are visited, and the candidates in them can be taken with the
segments they were made for. -/
theorem exists_noting_mergeLoop (R : MergeRules κ) (heap : Heap (Pair κ)) (runes : List Char)
    (rounds fuel : Nat) : ∃ merges q q', Visits R.noting runes merges q' ∧
      (q'.map Pair.forget).Perm q ∧
      mergeLoop R heap (rounds + fuel) (startMerges runes) (startPairs R heap (startMerges runes)) =
        mergeLoop R heap fuel merges q := by
  obtain ⟨merges, q₁, q, hvisits, hperm, hloop⟩ := exists_visits_mergeLoop heap
    (Visits.start : Visits R runes _ _) (startPairs_perm heap _).symm rounds fuel
  obtain ⟨q', hnoting, hforget⟩ := hvisits.noting
  exact ⟨merges, q, q', hnoting, hforget.trans hperm, hloop⟩

/-- A candidate that is joined was made for the two segments it joins, which are neighbours; and
the candidate of any two neighbours that may be joined is in the heap. -/
theorem Visits.sound_complete (hR : R.Exact) {runes : List Char} {merges : List Merge}
    {q : List (Pair (κ × List Char × List Char))} (h : Visits R.noting runes merges q) :
    (∀ x ∈ q, ¬Stale R.noting merges x → Neighbours merges x.a x.b ∧
      x.key.2 = ((entry merges x.a).runes, (entry merges x.b).runes)) ∧
    ∀ i j k, Neighbours merges i j →
      R.key (entry merges i).runes (entry merges j).runes = some k →
      R.joins k (entry merges i).runes (entry merges j).runes = true →
      ⟨i, j, k, (entry merges i).runes, (entry merges j).runes⟩ ∈ q := by
  have hinv := h.loopInv hR.noting
  refine ⟨fun x hx hjoin => ?_, fun i j k hij hkey hjoins => ?_⟩
  · obtain ⟨hab, hkey, -⟩ := hinv.fresh hR.noting hx hjoin
    obtain ⟨k, -, hk⟩ := Option.map_eq_some_iff.mp hkey
    exact ⟨hab, by rw [← hk]⟩
  · exact hinv.complete i j _ hij (Option.map_eq_some_iff.mpr ⟨k, hkey, rfl⟩) hjoins

end Prismalama.Tokenizer
