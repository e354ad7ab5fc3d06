import Prismalama.Lib.Slice

/-!
# The end of a sequence in a buffer

A buffer with a write position holds the last rows of a sequence: in order up to
that position, and all of the sequence while it is not longer than the window, or
as a ring of the window's size whose oldest row is at the position (`Holds`).
-/

namespace Prismalama.Lib

variable {α : Type*}

/-- In order, up to the position; what is behind it is not in use. -/
structure Straight (window : Nat) (rows : List α) (idx : Nat) (seq : List α) : Prop where
  le : idx ≤ rows.length
  idx_le : idx ≤ seq.length
  content : rows.take idx = seq.drop (seq.length - idx)
  full : min seq.length window ≤ idx
  unused : idx < rows.length → seq.length ≤ window ∧ rows.length ≤ window

/-- A full ring. -/
structure Ring (window : Nat) (rows : List α) (idx : Nat) (seq : List α) : Prop where
  length : rows.length = window
  lt : idx < window
  long : window < seq.length
  content : rows.drop idx ++ rows.take idx = seq.drop (seq.length - window)

def Holds (window : Nat) (rows : List α) (idx : Nat) (seq : List α) : Prop :=
  Straight window rows idx seq ∨ Ring window rows idx seq

theorem holds_nil (window : Nat) : Holds window ([] : List α) 0 [] :=
  .inl ⟨Nat.le_refl 0, Nat.le_refl 0, rfl, Nat.le_of_eq (Nat.zero_min window), nofun⟩

/-- The last rows of a sequence, enough of them for the window. -/
theorem holds_suffix {window n : Nat} {seq : List α} (hfull : min seq.length window ≤ n)
    (hn : n ≤ seq.length) : Holds window (seq.drop (seq.length - n)) n seq := by
  have hlen : (seq.drop (seq.length - n)).length = n := by
    rw [List.length_drop]
    omega
  refine .inl ⟨hlen.ge, hn, ?_, hfull, fun h => ?_⟩
  · exact List.take_of_length_le hlen.le
  · omega

namespace Holds

variable {window : Nat} {rows : List α} {idx : Nat} {seq : List α}

/-- Before the window is full the buffer starts with the sequence. -/
theorem of_short (h : Holds window rows idx seq) (hshort : seq.length ≤ window) :
    idx = seq.length ∧ rows.take idx = seq ∧ rows.length ≤ window ∧ idx ≤ rows.length := by
  rcases h with h | h
  · have hfull := h.full
    have hle := h.le
    have hidx := h.idx_le
    have heq : idx = seq.length := by omega
    refine ⟨heq, ?_, ?_, hle⟩
    · rw [h.content, heq, Nat.sub_self]
      rfl
    · by_cases hlt : idx < rows.length
      · exact (h.unused hlt).2
      · omega
  · exact absurd h.long (by omega)

/-- The sequence is cut back. -/
theorem rewind (h : Holds window rows idx seq) (hshort : seq.length ≤ window) {t : Nat}
    (ht : t ≤ seq.length) : Holds window rows t (seq.take t) := by
  obtain ⟨heq, hrows, hlen, hle⟩ := h.of_short hshort
  have hlt : (seq.take t).length = t := by
    rw [List.length_take]
    omega
  refine .inl ⟨by omega, hlt.ge, ?_, by omega, fun _ => ⟨by omega, hlen⟩⟩
  rw [hlt, Nat.sub_self, List.drop_zero]
  conv_rhs => rw [← hrows]
  rw [List.take_take, Nat.min_eq_left (by omega)]

/-- The rows in use. -/
theorem clone (h : Holds window rows idx seq) :
    Holds window (rows.take (min seq.length rows.length)) idx seq := by
  rcases h with h | h
  · have hle := h.le
    have hidx := h.idx_le
    refine .inl ⟨?_, hidx, ?_, h.full, fun hlt => ?_⟩
    · rw [List.length_take]
      omega
    · rw [List.take_take, Nat.min_eq_left (by omega), h.content]
    · rw [List.length_take] at hlt
      have hshort := (h.unused (by omega)).1
      have hfull := h.full
      omega
  · have hlen := h.length
    have hlong := h.long
    rw [List.take_of_length_le (by omega)]
    exact .inr h

/-- The rows in use, in order. -/
def straighten (window : Nat) (rows : List α) (idx n : Nat) : List α :=
  if idx < rows.length then
    if n ≤ window then rows.take idx else rows.drop idx ++ rows.take idx
  else rows

theorem straighten_eq (h : Holds window rows idx seq) :
    ∃ k, straighten window rows idx seq.length = seq.drop (seq.length - k) ∧
      min seq.length window ≤ k ∧ k ≤ seq.length := by
  rcases h with h | h
  · refine ⟨idx, ?_, h.full, h.idx_le⟩
    rw [straighten]
    split
    · rename_i hlt
      rw [if_pos (h.unused hlt).1]
      exact h.content
    · rename_i hlt
      rw [← h.content, List.take_of_length_le (by omega)]
  · have hlong := h.long
    refine ⟨window, ?_, Nat.min_le_right _ _, by omega⟩
    have hlen := h.length
    have hlt := h.lt
    rw [straighten, if_pos (by omega), if_neg (by omega)]
    exact h.content

/-! ## Writing one row -/

/-- Unused rows are added behind a sequence that fills the buffer. -/
theorem grow (h : Holds window rows idx seq) (hfull : rows.length ≤ seq.length)
    (hlt : rows.length < window) {pad : List α} (hpad : rows.length + pad.length ≤ window) :
    Holds window (rows ++ pad) seq.length seq := by
  rcases h with h | h
  · have hle := h.le
    have hmin := h.full
    have hidx := h.idx_le
    have heq : rows.length = seq.length := by omega
    refine .inl ⟨?_, Nat.le_refl _, ?_, Nat.min_le_left _ _, fun _ => ⟨by omega, ?_⟩⟩
    · rw [List.length_append]
      omega
    · rw [← heq, List.take_left, Nat.sub_self, List.drop_zero]
      have hrows := h.content
      rw [show idx = seq.length by omega, Nat.sub_self, List.drop_zero, ← heq,
        List.take_length] at hrows
      exact hrows
    · rw [List.length_append]
      exact hpad
  · exact absurd h.length (by omega)

/-- Only the last rows of a buffer that is longer than the window are kept. -/
theorem trim (h : Holds window rows idx seq) (hlong : window < rows.length) :
    Holds window (rows.drop (rows.length - window)) window seq := by
  rcases h with h | h
  · have hle := h.le
    have hidx := h.idx_le
    have hnot : ¬ idx < rows.length := fun hlt => absurd (h.unused hlt).2 (by omega)
    have hrows := h.content
    rw [List.take_of_length_le (by omega)] at hrows
    rw [hrows, List.drop_drop, show seq.length - idx +
      ((seq.drop (seq.length - idx)).length - window) = seq.length - window by
        rw [List.length_drop]; omega]
    exact holds_suffix (Nat.min_le_right _ _) (by omega)
  · exact absurd h.length (by omega)

/-- The window moves on by one row. -/
theorem drop_shift {w : Nat} (hw : 0 < w) (hle : w ≤ seq.length) (t : α) :
    (seq.drop (seq.length - w)).drop 1 ++ [t] =
      (seq ++ [t]).drop ((seq ++ [t]).length - w) := by
  rw [List.length_append, List.length_singleton, List.drop_append_of_le_length (by omega),
    List.drop_drop]
  congr 2
  omega

/-- The row goes to the position, or to the front of the buffer behind its end. -/
theorem write (h : Holds window rows idx seq) (hpos : 0 < window) (hle : rows.length ≤ window)
    (hroom : idx < rows.length ∨ rows.length = window) (t : α) :
    Holds window (sliceUpdate rows (if window ≤ idx then 0 else idx) [t])
      ((if window ≤ idx then 0 else idx) + 1) (seq ++ [t]) := by
  have hlen : (seq ++ [t]).length = seq.length + 1 := by
    rw [List.length_append, List.length_singleton]
  rcases h with h | h
  · have hidxle := h.idx_le
    have hfull := h.full
    by_cases hlt : idx < rows.length
    · -- there is an unused row
      have hidx : idx = seq.length := by
        have := (h.unused hlt).1
        omega
      have hrows := h.content
      rw [hidx, Nat.sub_self, List.drop_zero] at hrows
      have htake : (rows.take idx ++ [t]).length = idx + 1 := by
        rw [List.length_append, List.length_take, List.length_singleton]
        omega
      rw [if_neg (by omega)]
      have hlen' : (sliceUpdate rows idx [t]).length = rows.length :=
        length_sliceUpdate (by rw [List.length_singleton]; omega)
      refine .inl ⟨by omega, by omega, ?_, by omega, fun _ => ⟨by omega, by omega⟩⟩
      rw [hlen, show seq.length + 1 - (idx + 1) = 0 by omega, List.drop_zero, sliceUpdate,
        List.take_left' htake, hidx, hrows]
    · -- the buffer is full, and in order
      have hwin : rows.length = window := hroom.resolve_left hlt
      have hidx : idx = window := by
        have := h.le
        omega
      have hrows := h.content
      rw [hidx, ← hwin, List.take_length, hwin] at hrows
      rw [if_pos (by omega)]
      have hnew : sliceUpdate rows 0 [t] = [t] ++ rows.drop 1 := by
        rw [sliceUpdate, List.take_zero, List.nil_append, List.length_singleton]
      have hshift := drop_shift hpos (hidx ▸ hidxle) t
      rw [← hrows] at hshift
      rw [hnew]
      by_cases hone : window = 1
      · have hnil : rows.drop 1 = [] := List.drop_of_length_le (by omega)
        rw [hnil, List.nil_append] at hshift
        have hlast : Holds window ((seq ++ [t]).drop ((seq ++ [t]).length - window)) window
            (seq ++ [t]) := holds_suffix (Nat.min_le_right _ _) (by omega)
        rw [← hshift] at hlast
        rw [hnil, List.append_nil, Nat.zero_add, ← hone]
        exact hlast
      · refine .inr ⟨?_, by omega, by omega, ?_⟩
        · rw [List.length_append, List.length_singleton, List.length_drop]
          omega
        · show rows.drop 1 ++ [t] = _
          exact hshift
  · have hlt := h.lt
    have hwin := h.length
    have hlong := h.long
    rw [if_neg (by omega)]
    have htake : (rows.take idx ++ [t]).length = idx + 1 := by
      rw [List.length_append, List.length_take, List.length_singleton]
      omega
    have hnew : sliceUpdate rows idx [t] = (rows.take idx ++ [t]) ++ rows.drop (idx + 1) := by
      rw [sliceUpdate, List.length_singleton]
    have hshift := drop_shift hpos (Nat.le_of_lt hlong) t
    rw [← h.content, List.drop_append_of_le_length (by rw [List.length_drop]; omega),
      List.drop_drop, List.append_assoc] at hshift
    have hlen' : (sliceUpdate rows idx [t]).length = rows.length :=
      length_sliceUpdate (by rw [List.length_singleton]; omega)
    by_cases hend : idx + 1 = window
    · refine .inl ⟨by omega, by omega, ?_, by omega, fun hlt => by omega⟩
      rw [List.drop_of_length_le (by omega : rows.length ≤ idx + 1), List.nil_append] at hshift
      rw [hnew, List.take_left' htake, hshift, hend]
    · refine .inr ⟨by omega, by omega, by omega, ?_⟩
      rw [hnew, List.drop_left' htake, List.take_left' htake]
      exact hshift

/-- The last rows, at the front of the buffer, in the order of the ring. -/
theorem ring_order (h : Holds window rows idx seq) (hle : rows.length ≤ window) {K : Nat}
    (hK : K = min seq.length window) :
    (rows.take K).length = K ∧
      (rows.take K).drop (idx % K) ++ (rows.take K).take (idx % K) =
        seq.drop (seq.length - K) := by
  rcases h with h | h
  · have hidx := h.idx_le
    have hfull := h.full
    have hidxle := h.le
    have heq : idx = K := by
      by_cases hlt : idx < rows.length
      · have hshort := (h.unused hlt).1
        omega
      · omega
    have hlen : (rows.take K).length = K := by
      rw [List.length_take]
      omega
    refine ⟨hlen, ?_⟩
    rw [heq, Nat.mod_self, List.drop_zero, List.take_zero, List.append_nil, ← heq]
    exact h.content
  · have hlen := h.length
    have hlong := h.long
    have hlt := h.lt
    have heq : K = rows.length := by omega
    have htake : rows.take K = rows := List.take_of_length_le heq.ge
    rw [htake]
    refine ⟨heq.symm, ?_⟩
    rw [Nat.mod_eq_of_lt (by omega : idx < K), heq, hlen]
    exact h.content

end Holds

/-! ## Windows -/

/-- The rows at the positions `max 0 (p - window + 1)` to `p`, with these positions. -/
def windowAt (window : Nat) (seq : List α) (p : Nat) : List (α × Nat) :=
  (seq.zipIdx.take (p + 1)).drop (p + 1 - window)

theorem zipIdx_drop_eq (seq : List α) (n m : Nat) :
    (seq.drop m).zipIdx (n + m) = (seq.zipIdx n).drop m := by
  induction m generalizing seq n with
  | zero => rfl
  | succ m ih =>
    cases seq with
    | nil => simp
    | cons x seq =>
      rw [List.zipIdx_cons, List.drop_succ_cons, List.drop_succ_cons, ← ih seq (n + 1),
        Nat.add_right_comm n 1 m, Nat.add_assoc n m 1]

/-- The rows whose positions are in a range. -/
theorem filter_zipIdx (seq : List α) (n lo hi : Nat) :
    (seq.zipIdx n).filter (fun e => decide (lo ≤ e.2) && decide (e.2 < hi)) =
      ((seq.zipIdx n).take (hi - n)).drop (lo - n) := by
  induction seq generalizing n with
  | nil => simp
  | cons x seq ih =>
    rw [List.zipIdx_cons, List.filter_cons, ih (n + 1)]
    by_cases hhi : n < hi
    · rw [show hi - n = (hi - (n + 1)) + 1 by omega, List.take_succ_cons]
      by_cases hlo : lo ≤ n
      · rw [if_pos (by simp [hlo, hhi]), show lo - n = 0 by omega,
          show lo - (n + 1) = 0 by omega]
        rfl
      · rw [if_neg (by simp [hlo]), show lo - n = (lo - (n + 1)) + 1 by omega,
          List.drop_succ_cons]
    · rw [if_neg (by simp [hhi]), show hi - n = 0 by omega, show hi - (n + 1) = 0 by omega]
      simp

/-- A suffix with its positions, cut to a window that it covers. -/
theorem filter_suffix_eq_windowAt {seq : List α} {window b p : Nat} (hb : b ≤ p + 1 - window) :
    ((seq.drop b).zipIdx b).filter
        (fun e => decide (p + 1 - window ≤ e.2) && decide (e.2 < p + 1)) =
      windowAt window seq p := by
  have hdrop : (seq.drop b).zipIdx b = seq.zipIdx.drop b := by
    have h := zipIdx_drop_eq seq 0 b
    rwa [Nat.zero_add] at h
  rw [filter_zipIdx, hdrop, windowAt, List.take_drop, List.drop_drop,
    show b + (p + 1 - b) = p + 1 by omega, show b + (p + 1 - window - b) = p + 1 - window by omega]

/-- The window at the end of the sequence. -/
theorem windowAt_last {seq : List α} {window K : Nat} (hne : 0 < seq.length)
    (hK : K = min seq.length window) :
    windowAt window seq (seq.length - 1) =
      (seq.drop (seq.length - K)).zip (List.range' (seq.length - K) K) := by
  have hdrop := zipIdx_drop_eq seq 0 (seq.length - K)
  rw [Nat.zero_add, List.zipIdx_eq_zip_range', List.length_drop,
    show seq.length - (seq.length - K) = K by omega] at hdrop
  rw [hdrop, windowAt, List.take_of_length_le (by rw [List.length_zipIdx]; omega)]
  congr 1
  omega

/-- Two lists that are rotated together are paired as before. -/
theorem zip_rotated {β : Type*} {rows : List α} {ps : List β} (r : Nat)
    (hlen : ps.length = rows.length) (hr : r ≤ rows.length) :
    (rows.zip (ps.drop (rows.length - r) ++ ps.take (rows.length - r))).Perm
      ((rows.drop r ++ rows.take r).zip ps) := by
  have hfirst : (rows.take r).length = (ps.drop (rows.length - r)).length := by
    rw [List.length_take, List.length_drop]
    omega
  have hlast : (rows.drop r).length = (ps.take (rows.length - r)).length := by
    rw [List.length_take, List.length_drop]
    omega
  have hrows : rows.zip (ps.drop (rows.length - r) ++ ps.take (rows.length - r)) =
      (rows.take r).zip (ps.drop (rows.length - r)) ++
        (rows.drop r).zip (ps.take (rows.length - r)) := by
    rw [← List.zip_append hfirst, List.take_append_drop]
  have hps : (rows.drop r ++ rows.take r).zip ps =
      (rows.drop r).zip (ps.take (rows.length - r)) ++
        (rows.take r).zip (ps.drop (rows.length - r)) := by
    rw [← List.zip_append hlast, List.take_append_drop]
  rw [hrows, hps]
  exact List.perm_append_comm

end Prismalama.Lib
