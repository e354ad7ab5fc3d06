import Prismalama.Lib.GoStrings

/-!
# Stops in a text

A text ends before the first of some stops (`cutText`). While it grows at its end, a beginning of
it may be given away once no stop can start there, whatever follows (`Apart`). It can when the
rest holds no stop and does not end in the beginning of one (`Apart.append`).
-/

namespace Prismalama.Lib

section
variable {α : Type} [DecidableEq α] {stops : List (List α)}

/-- The text before the earliest stop; all of it when there is none. -/
def cutText (stops : List (List α)) : List α → List α
  | [] => []
  | c :: text =>
    if stops.any fun stop => stop.isPrefixOf (c :: text) then [] else c :: cutText stops text

theorem starts_iff {text : List α} :
    (stops.any fun stop => stop.isPrefixOf text) = true ↔ ∃ stop ∈ stops, stop <+: text := by
  simp only [List.any_eq_true, List.isPrefixOf_iff_prefix]

theorem cutText_starts (text : List α) : cutText stops text <+: text := by
  induction text with
  | nil => exact List.prefix_refl []
  | cons c text ih =>
    rw [cutText]
    split
    · exact List.nil_prefix
    · exact List.prefix_cons_inj c |>.mpr ih

/-- A text without stops is not cut. -/
theorem cutText_of_free {text : List α} (h : ∀ stop ∈ stops, ¬stop <:+: text) :
    cutText stops text = text := by
  induction text with
  | nil => rfl
  | cons c text ih =>
    have hnone : ¬∃ stop ∈ stops, stop <+: c :: text :=
      fun ⟨stop, hmem, hstarts⟩ => h stop hmem hstarts.isInfix
    rw [cutText, if_neg (starts_iff.not.mpr hnone),
      ih fun stop hmem hin => h stop hmem (List.infix_cons hin)]

/-- The text is cut at the least place where a stop starts. -/
theorem cutText_eq_take {text : List α} {m : Nat} (hm : m ≤ text.length)
    (hstarts : ∃ stop ∈ stops, stop <+: text.drop m)
    (hleast : ∀ j < m, ∀ stop ∈ stops, ¬stop <+: text.drop j) :
    cutText stops text = text.take m := by
  induction text generalizing m with
  | nil => rw [List.take_nil]; rfl
  | cons c text ih =>
    rw [cutText]
    cases m with
    | zero =>
      rw [List.drop_zero] at hstarts
      rw [if_pos (starts_iff.mpr hstarts), List.take_zero]
    | succ m =>
      have hnone : ¬∃ stop ∈ stops, stop <+: c :: text :=
        fun ⟨stop, hmem, h⟩ => hleast 0 m.succ_pos stop hmem h
      rw [if_neg (starts_iff.not.mpr hnone), List.take_succ_cons, ih (Nat.le_of_succ_le_succ hm)]
      · exact hstarts
      · intro j hj stop hmem h
        exact hleast (j + 1) (Nat.succ_lt_succ hj) stop hmem h

/-- What is before the earliest stop holds none. -/
theorem not_infix_cutText (hne : ∀ stop ∈ stops, stop ≠ []) (text : List α) :
    ∀ stop ∈ stops, ¬stop <:+: cutText stops text := by
  intro stop hmem
  induction text with
  | nil => exact fun h => hne stop hmem (List.infix_nil.mp h)
  | cons c text ih =>
    rw [cutText]
    split
    · exact fun h => hne stop hmem (List.infix_nil.mp h)
    · rename_i hnone
      intro h
      rcases List.infix_cons_iff.mp h with h | h
      · have hstarts : c :: cutText stops text <+: c :: text :=
          (List.prefix_cons_inj c).mpr (cutText_starts text)
        exact hnone (starts_iff.mpr ⟨stop, hmem, h.trans hstarts⟩)
      · exact ih h

omit [DecidableEq α] in
/-- A stop starts where some text is before it. -/
theorem infix_iff_starts {stop text : List α} :
    stop <:+: text ↔ ∃ i ≤ text.length, stop <+: text.drop i := by
  constructor
  · rintro ⟨s, t, rfl⟩
    refine ⟨s.length, by simp only [List.length_append]; omega, t, ?_⟩
    rw [List.append_assoc, List.drop_left]
  · rintro ⟨i, -, h⟩
    exact h.isInfix.trans (List.drop_suffix i text).isInfix

/-- The least place where a stop starts. -/
theorem exists_earliest {text : List α} (h : ∃ stop ∈ stops, stop <:+: text) :
    ∃ m ≤ text.length, (∃ stop ∈ stops, stop <+: text.drop m) ∧
      ∀ j < m, ∀ stop ∈ stops, ¬stop <+: text.drop j := by
  obtain ⟨stop, hmem, hin⟩ := h
  obtain ⟨i, hi, hstarts⟩ := infix_iff_starts.mp hin
  have hex : ∃ m, ∃ stop ∈ stops, stop <+: text.drop m := ⟨i, stop, hmem, hstarts⟩
  classical
  refine ⟨Nat.find hex, (Nat.find_le ⟨stop, hmem, hstarts⟩).trans hi, Nat.find_spec hex, ?_⟩
  intro j hj stop' hmem' hstarts'
  exact Nat.find_min hex hj ⟨stop', hmem', hstarts'⟩

/-! ## A beginning in which no stop starts -/

/-- No stop starts in the text, whatever follows it. -/
def Apart (stops : List (List α)) (text : List α) : Prop :=
  ∀ i < text.length, ∀ stop ∈ stops, ¬stop <+: text.drop i ∧ ¬text.drop i <+: stop

omit [DecidableEq α] in
theorem apart_nil : Apart stops ([] : List α) := fun _ hi => absurd hi (Nat.not_lt_zero _)

omit [DecidableEq α] in
/-- A stop starts behind what is apart from it. -/
theorem Apart.le_of_starts {text rest stop : List α} {i : Nat} (h : Apart stops text)
    (hmem : stop ∈ stops) (hstarts : stop <+: (text ++ rest).drop i) : text.length ≤ i := by
  by_contra hlt
  rw [not_le] at hlt
  rw [List.drop_append_of_le_length hlt.le] at hstarts
  rcases List.prefix_or_prefix_of_prefix hstarts (List.prefix_append _ rest) with hpre | hpre
  · exact (h i hlt stop hmem).1 hpre
  · exact (h i hlt stop hmem).2 hpre

omit [DecidableEq α] in
/-- A text that holds no stop and does not end in the beginning of one can be added. -/
theorem Apart.append {text rest : List α} (h : Apart stops text)
    (hfree : ∀ stop ∈ stops, ¬stop <:+: rest)
    (hend : ∀ stop ∈ stops, ∀ t, t ≠ [] → t <:+ rest → ¬t <+: stop) :
    Apart stops (text ++ rest) := by
  intro i hi stop hmem
  rcases Nat.lt_or_ge i text.length with hlt | hge
  · rw [List.drop_append_of_le_length hlt.le]
    refine ⟨fun hstarts => ?_, fun hstarts => ?_⟩
    · rw [← List.drop_append_of_le_length hlt.le] at hstarts
      exact absurd (h.le_of_starts hmem hstarts) (not_le.mpr hlt)
    · exact (h i hlt stop hmem).2 ((List.prefix_append _ rest).trans hstarts)
  · rw [List.drop_append, List.drop_eq_nil_of_le hge, List.nil_append]
    have hne : rest.drop (i - text.length) ≠ [] := by
      intro hnil
      have hlen := List.drop_eq_nil_iff.mp hnil
      rw [List.length_append] at hi
      omega
    exact ⟨fun hstarts => hfree stop hmem (hstarts.isInfix.trans (List.drop_suffix _ rest).isInfix),
      hend stop hmem _ hne (List.drop_suffix _ rest)⟩

end

/-! ## Search -/

/-- The least place where the string starts. -/
theorem index_eq_some_iff {s sep : GoString} {i : Nat} : index s sep = some i ↔
    i ≤ s.length ∧ sep <+: s.drop i ∧ ∀ j < i, ¬sep <+: s.drop j := by
  induction s generalizing i with
  | nil =>
    rw [index]
    split
    · rename_i hpre
      rw [List.isPrefixOf_iff_prefix] at hpre
      constructor
      · rintro ⟨⟩
        exact ⟨le_refl 0, hpre, fun j hj => absurd hj j.not_lt_zero⟩
      · rintro ⟨hi, -, -⟩
        rw [Nat.le_zero.mp hi]
    · rename_i hpre
      rw [List.isPrefixOf_iff_prefix] at hpre
      refine iff_of_false (by simp) fun ⟨hi, hstarts, _⟩ => hpre ?_
      rwa [Nat.le_zero.mp hi] at hstarts
  | cons b s ih =>
    rw [index]
    split
    · rename_i hpre
      rw [List.isPrefixOf_iff_prefix] at hpre
      constructor
      · rintro ⟨⟩
        exact ⟨Nat.zero_le _, hpre, fun j hj => absurd hj j.not_lt_zero⟩
      · rintro ⟨-, -, hleast⟩
        cases i with
        | zero => rfl
        | succ i => exact absurd hpre (hleast 0 i.succ_pos)
    · rename_i hpre
      rw [List.isPrefixOf_iff_prefix] at hpre
      rw [Option.map_eq_some_iff]
      constructor
      · rintro ⟨k, hk, rfl⟩
        obtain ⟨hle, hstarts, hleast⟩ := ih.mp hk
        refine ⟨Nat.succ_le_succ hle, hstarts, fun j hj => ?_⟩
        cases j with
        | zero => exact hpre
        | succ j => exact hleast j (Nat.lt_of_succ_lt_succ hj)
      · rintro ⟨hle, hstarts, hleast⟩
        cases i with
        | zero => exact absurd hstarts hpre
        | succ i =>
          refine ⟨i, ih.mpr ⟨Nat.le_of_succ_le_succ hle, hstarts, fun j hj => ?_⟩, rfl⟩
          exact hleast (j + 1) (Nat.succ_lt_succ hj)

theorem contains_iff_occurs {s sep : GoString} : contains s sep = true ↔ sep <:+: s := by
  rw [contains, Option.isSome_iff_exists]
  constructor
  · rintro ⟨i, hi⟩
    obtain ⟨hle, hstarts, -⟩ := index_eq_some_iff.mp hi
    exact infix_iff_starts.mpr ⟨i, hle, hstarts⟩
  · intro h
    obtain ⟨m, hm, ⟨stop, hmem, hstarts⟩, hleast⟩ :=
      @exists_earliest _ _ [sep] _ ⟨sep, List.mem_singleton_self sep, h⟩
    rw [List.mem_singleton.mp hmem] at hstarts
    exact ⟨m, index_eq_some_iff.mpr
      ⟨hm, hstarts, fun j hj => hleast j hj sep (List.mem_singleton_self sep)⟩⟩

/-- A stop is found behind what is apart from it. -/
theorem Apart.index_append {stops : List GoString} {s t sep : GoString} (h : Apart stops s)
    (hmem : sep ∈ stops) : index (s ++ t) sep = (index t sep).map (s.length + ·) := by
  ext i
  rw [Option.map_eq_some_iff, index_eq_some_iff]
  have hdrop : ∀ k, (s ++ t).drop (s.length + k) = t.drop k := by
    intro k
    rw [List.drop_append, List.drop_eq_nil_of_le (Nat.le_add_right _ _), List.nil_append,
      Nat.add_sub_cancel_left]
  constructor
  · rintro ⟨hi, hstarts, hleast⟩
    obtain ⟨k, rfl⟩ := Nat.exists_eq_add_of_le (h.le_of_starts hmem hstarts)
    rw [hdrop] at hstarts
    refine ⟨k, index_eq_some_iff.mpr ⟨?_, hstarts, fun j hj => ?_⟩, rfl⟩
    · rw [List.length_append] at hi
      omega
    · have := hleast (s.length + j) (by omega)
      rwa [hdrop] at this
  · rintro ⟨k, hk, rfl⟩
    obtain ⟨hle, hstarts, hleast⟩ := index_eq_some_iff.mp hk
    refine ⟨by rw [List.length_append]; omega, by rwa [hdrop], fun j hj hstarts' => ?_⟩
    obtain ⟨j, rfl⟩ := Nat.exists_eq_add_of_le (h.le_of_starts hmem hstarts')
    rw [hdrop] at hstarts'
    exact hleast j (by omega) hstarts'

theorem Apart.infix_append {stops : List GoString} {s t sep : GoString} (h : Apart stops s)
    (hmem : sep ∈ stops) : sep <:+: s ++ t ↔ sep <:+: t := by
  rw [← contains_iff_occurs, ← contains_iff_occurs, contains, contains, h.index_append hmem,
    Option.isSome_map]

end Prismalama.Lib
