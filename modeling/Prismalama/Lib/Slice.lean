import Mathlib.Data.List.Basic
import Mathlib.Tactic

/-!
# Slices of an array

`slice rows lo hi` is `rows[lo:hi]` with the bounds clamped, and
`sliceUpdate rows lo new` writes `new` over the elements from `lo` on. A write
is seen by the slices that meet its range and by no others.
-/

namespace Prismalama.Lib

variable {α : Type*}

def slice (rows : List α) (lo hi : Nat) : List α := (rows.drop lo).take (hi - lo)

def sliceUpdate (rows : List α) (lo : Nat) (new : List α) : List α :=
  rows.take lo ++ new ++ rows.drop (lo + new.length)

@[simp] theorem length_slice (rows : List α) (lo hi : Nat) :
    (slice rows lo hi).length = min (hi - lo) (rows.length - lo) := by
  simp [slice]

theorem length_slice_of_le {rows : List α} {lo hi : Nat} (h : hi ≤ rows.length) :
    (slice rows lo hi).length = hi - lo := by
  rw [length_slice]
  omega

theorem length_sliceUpdate {rows new : List α} {lo : Nat} (h : lo + new.length ≤ rows.length) :
    (sliceUpdate rows lo new).length = rows.length := by
  simp only [sliceUpdate, List.length_append, List.length_take, List.length_drop]
  omega

theorem getElem?_slice (rows : List α) (lo hi i : Nat) :
    (slice rows lo hi)[i]? = if i < hi - lo then rows[lo + i]? else none := by
  rw [slice, List.getElem?_take]
  simp only [List.getElem?_drop]

theorem getElem?_sliceUpdate {rows new : List α} {lo : Nat} (h : lo ≤ rows.length) (i : Nat) :
    (sliceUpdate rows lo new)[i]? =
      if i < lo then rows[i]? else if i < lo + new.length then new[i - lo]? else rows[i]? := by
  have hlen : (rows.take lo).length = lo := by
    rw [List.length_take]
    omega
  rw [sliceUpdate, List.append_assoc, List.getElem?_append, hlen]
  by_cases hlo : i < lo
  · rw [if_pos hlo, if_pos hlo, List.getElem?_take, if_pos hlo]
  · rw [if_neg hlo, if_neg hlo, List.getElem?_append]
    by_cases hnew : i < lo + new.length
    · rw [if_pos hnew, if_pos (by omega)]
    · rw [if_neg hnew, if_neg (by omega), List.getElem?_drop]
      congr 1
      omega

/-- Two arrays that agree on a range have the same slices of it. -/
theorem slice_congr {rows rows' : List α} {lo hi : Nat}
    (h : ∀ i, lo ≤ i → i < hi → rows'[i]? = rows[i]?) : slice rows' lo hi = slice rows lo hi := by
  refine List.ext_getElem? fun i => ?_
  rw [getElem?_slice, getElem?_slice]
  split
  · exact h (lo + i) (Nat.le_add_right _ _) (by omega)
  · rfl

/-- A write leaves alone the slices outside its range. -/
theorem slice_sliceUpdate_of_disjoint {rows new : List α} {lo a b : Nat} (hlo : lo ≤ rows.length)
    (h : b ≤ lo ∨ lo + new.length ≤ a) :
    slice (sliceUpdate rows lo new) a b = slice rows a b := by
  refine slice_congr fun i hai hib => ?_
  rw [getElem?_sliceUpdate hlo]
  by_cases hi : i < lo
  · rw [if_pos hi]
  · rw [if_neg hi, if_neg (by omega)]

/-- What was written is read back. -/
theorem slice_sliceUpdate_self {rows new : List α} {lo : Nat} (hlo : lo ≤ rows.length) :
    slice (sliceUpdate rows lo new) lo (lo + new.length) = new := by
  refine List.ext_getElem? fun i => ?_
  rw [getElem?_slice, getElem?_sliceUpdate hlo]
  by_cases hi : i < new.length
  · rw [if_pos (by omega), if_neg (by omega), if_pos (by omega), Nat.add_sub_cancel_left]
  · rw [if_neg (by omega), List.getElem?_eq_none (by omega)]

/-- A slice in two pieces. -/
theorem slice_append_slice (rows : List α) {lo mid hi : Nat} (h₁ : lo ≤ mid) (h₂ : mid ≤ hi) :
    slice rows lo mid ++ slice rows mid hi = slice rows lo hi := by
  have hdrop : rows.drop mid = (rows.drop lo).drop (mid - lo) := by
    rw [List.drop_drop, Nat.add_sub_of_le h₁]
  have hsum : hi - lo = (mid - lo) + (hi - mid) := by omega
  rw [slice, slice, slice, hdrop, hsum, List.take_add]

theorem take_slice (rows : List α) (lo : Nat) {mid hi : Nat} (h : mid ≤ hi) :
    (slice rows lo hi).take (mid - lo) = slice rows lo mid := by
  rw [slice, slice, List.take_take, min_eq_left (by omega)]

theorem take_slice_add (rows : List α) {lo hi n : Nat} (h : lo + n ≤ hi) :
    (slice rows lo hi).take n = slice rows lo (lo + n) := by
  have htake := take_slice rows lo h
  rwa [Nat.add_sub_cancel_left] at htake

theorem drop_slice_add (rows : List α) (lo hi n : Nat) :
    (slice rows lo hi).drop n = slice rows (lo + n) hi := by
  rw [slice, slice, List.drop_take, List.drop_drop]
  congr 1
  omega

theorem drop_take_eq_slice (rows : List α) (lo hi : Nat) :
    (rows.take hi).drop lo = slice rows lo hi := by
  rw [slice, List.drop_take]

end Prismalama.Lib
