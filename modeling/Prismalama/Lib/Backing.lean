import Mathlib.Data.List.Basic
import Mathlib.Tactic

/-!
# Slices that share arrays

A slice is a length over an array, and `append` writes into the array as long as that has room:
two slices may then share it. The arrays are numbered, and those of the same number are the same
array (`Heap.array`). Slices start where their array does.
-/

namespace Prismalama.Lib.Backing

variable {α : Type}

/-- The arrays that were made. The length of an array is the capacity of its slices. -/
abbrev Heap (α : Type) := List (List α)

namespace Heap

def array (h : Heap α) (a : Nat) : List α := h[a]?.getD []

end Heap

structure Slice where
  array : Nat
  len : Nat
  deriving DecidableEq

/-- How much room `append` gives to a new array. -/
structure Growth where
  cap : Nat → Nat → Nat
  le_cap : ∀ old needed, needed ≤ cap old needed

namespace Slice

def read (h : Heap α) (s : Slice) : List α := (h.array s.array).take s.len

/-- `make([]T, 0)`, and `slices.Clone` of a slice of these elements -/
def alloc (h : Heap α) (xs : List α) : Heap α × Slice := (h ++ [xs], ⟨h.length, xs.length⟩)

/-- The elements of the slice are replaced. -/
def write (h : Heap α) (s : Slice) (xs : List α) : Heap α :=
  h.set s.array (xs ++ (h.array s.array).drop s.len)

/-- `append(s, xs...)` -/
def append (zero : α) (g : Growth) (h : Heap α) (s : Slice) (xs : List α) : Heap α × Slice :=
  let len := s.len + xs.length
  let cap := (h.array s.array).length
  if len ≤ cap then
    (h.set s.array (s.read h ++ xs ++ (h.array s.array).drop len), ⟨s.array, len⟩)
  else
    (h ++ [s.read h ++ xs ++ List.replicate (g.cap cap len - len) zero], ⟨h.length, len⟩)

/-- The slice lies in its array. -/
structure Valid (h : Heap α) (s : Slice) : Prop where
  array_lt : s.array < h.length
  len_le : s.len ≤ (h.array s.array).length

/-- `append` writes into the array of the slice. -/
def Room (h : Heap α) (s : Slice) (xs : List α) : Prop :=
  s.len + xs.length ≤ (h.array s.array).length

end Slice

/-- The arrays below `n` are as they were. -/
structure Keeps (n : Nat) (h h' : Heap α) : Prop where
  length_le : h.length ≤ h'.length
  array_eq : ∀ a, a < n → h'.array a = h.array a

/-! ## Arrays -/

theorem array_set_self {h : Heap α} {a : Nat} (ha : a < h.length) (xs : List α) :
    Heap.array (h.set a xs) a = xs := by
  rw [Heap.array, List.getElem?_set_self ha, Option.getD_some]

theorem array_set_ne (h : Heap α) {a b : Nat} (hne : a ≠ b) (xs : List α) :
    Heap.array (h.set a xs) b = h.array b := by
  rw [Heap.array, List.getElem?_set_ne hne, Heap.array]

theorem array_append_left {h : Heap α} {a : Nat} (ha : a < h.length) (hs : Heap α) :
    Heap.array (h ++ hs) a = h.array a := by
  rw [Heap.array, List.getElem?_append_left ha, Heap.array]

theorem array_append_self (h : Heap α) (xs : List α) : Heap.array (h ++ [xs]) h.length = xs := by
  rw [Heap.array, List.getElem?_concat_length, Option.getD_some]

theorem Keeps.refl (n : Nat) (h : Heap α) : Keeps n h h := ⟨le_rfl, fun _ _ => rfl⟩

theorem Keeps.trans {n : Nat} {h h' h'' : Heap α} (h₁ : Keeps n h h') (h₂ : Keeps n h' h'') :
    Keeps n h h'' :=
  ⟨h₁.length_le.trans h₂.length_le, fun a ha => (h₂.array_eq a ha).trans (h₁.array_eq a ha)⟩

theorem Keeps.mono {n m : Nat} {h h' : Heap α} (hk : Keeps n h h') (hm : m ≤ n) : Keeps m h h' :=
  ⟨hk.length_le, fun a ha => hk.array_eq a (ha.trans_le hm)⟩

theorem keeps_set {n : Nat} (h : Heap α) {a : Nat} (ha : n ≤ a) (xs : List α) :
    Keeps n h (h.set a xs) :=
  ⟨by rw [List.length_set], fun _ hb => array_set_ne h (hb.trans_le ha).ne' xs⟩

theorem keeps_append {n : Nat} {h : Heap α} (hn : n ≤ h.length) (hs : Heap α) :
    Keeps n h (h ++ hs) :=
  ⟨by rw [List.length_append]; omega, fun _ ha => array_append_left (ha.trans_le hn) hs⟩

/-! ## Slices -/

namespace Slice

variable {h h' : Heap α} {s : Slice} {xs : List α} {zero : α} {g : Growth}

theorem read_of_array_eq (ha : h'.array s.array = h.array s.array) : s.read h' = s.read h := by
  rw [read, ha, read]

theorem read_keeps {n : Nat} (hk : Keeps n h h') (hs : s.array < n) : s.read h' = s.read h :=
  read_of_array_eq (hk.array_eq s.array hs)

theorem length_read (hs : s.Valid h) : (s.read h).length = s.len := by
  rw [read, List.length_take, min_eq_left hs.len_le]

theorem read_alloc (h : Heap α) (xs : List α) : (alloc h xs).2.read (alloc h xs).1 = xs := by
  rw [alloc, read, array_append_self, List.take_length]

theorem valid_alloc (h : Heap α) (xs : List α) : (alloc h xs).2.Valid (alloc h xs).1 := by
  refine ⟨?_, ?_⟩
  · rw [alloc, List.length_append]
    exact Nat.lt_succ_self _
  · rw [alloc, array_append_self]

theorem valid_of_array (hs : s.Valid h) (hlen : h.length ≤ h'.length)
    (ha : (h.array s.array).length ≤ (h'.array s.array).length) : s.Valid h' :=
  ⟨hs.array_lt.trans_le hlen, hs.len_le.trans ha⟩

theorem array_write (hs : s.Valid h) (xs : List α) :
    (s.write h xs).array s.array = xs ++ (h.array s.array).drop s.len :=
  array_set_self hs.array_lt _

theorem length_write (h : Heap α) (s : Slice) (xs : List α) : (s.write h xs).length = h.length :=
  List.length_set

/-- A slice at the front of the one that is written. -/
theorem read_write {t : Slice} (hs : s.Valid h) (hxs : xs.length = s.len) (ht : t.array = s.array)
    (hlen : t.len ≤ s.len) : t.read (s.write h xs) = xs.take t.len := by
  rw [read, ht, array_write hs, List.take_append_of_le_length (hlen.trans hxs.ge)]

theorem length_array_write (hs : s.Valid h) (hxs : xs.length = s.len) :
    ((s.write h xs).array s.array).length = (h.array s.array).length := by
  have hle := hs.len_le
  rw [array_write hs, List.length_append, List.length_drop]
  omega

theorem length_replaced (hs : s.Valid h) (hroom : s.Room h xs) :
    (s.read h ++ xs ++ (h.array s.array).drop (s.len + xs.length)).length =
      (h.array s.array).length := by
  rw [Room] at hroom
  rw [List.length_append, List.length_append, length_read hs, List.length_drop]
  omega

theorem append_room (hroom : s.Room h xs) : append zero g h s xs =
    (h.set s.array (s.read h ++ xs ++ (h.array s.array).drop (s.len + xs.length)),
      ⟨s.array, s.len + xs.length⟩) := if_pos hroom

theorem append_full (hfull : ¬s.Room h xs) : append zero g h s xs =
    (h ++ [s.read h ++ xs ++ List.replicate
        (g.cap (h.array s.array).length (s.len + xs.length) - (s.len + xs.length)) zero],
      ⟨h.length, s.len + xs.length⟩) := if_neg hfull

theorem read_append (hs : s.Valid h) :
    (append zero g h s xs).2.read (append zero g h s xs).1 = s.read h ++ xs := by
  have hlen : (s.read h ++ xs).length = s.len + xs.length := by
    rw [List.length_append, length_read hs]
  by_cases hroom : s.Room h xs
  · rw [append_room hroom, read, array_set_self hs.array_lt, ← hlen, List.take_left]
  · rw [append_full hroom, read, array_append_self, ← hlen, List.take_left]

theorem valid_append (hs : s.Valid h) :
    (append zero g h s xs).2.Valid (append zero g h s xs).1 := by
  by_cases hroom : s.Room h xs
  · rw [append_room hroom]
    refine ⟨by rw [List.length_set]; exact hs.array_lt, ?_⟩
    rw [array_set_self hs.array_lt, length_replaced hs hroom]
    exact hroom
  · rw [append_full hroom]
    refine ⟨by rw [List.length_append]; exact Nat.lt_succ_self _, ?_⟩
    rw [array_append_self, List.length_append, List.length_append, length_read hs]
    exact Nat.le_add_right _ _

/-- The new slice is in a new array, or in the one of the old slice. -/
theorem array_append {n : Nat} (hn : n ≤ s.array) (hs : s.Valid h) :
    n ≤ (append zero g h s xs).2.array ∧ Keeps n h (append zero g h s xs).1 := by
  by_cases hroom : s.Room h xs
  · rw [append_room hroom]
    exact ⟨hn, keeps_set h hn _⟩
  · rw [append_full hroom]
    have hle := hn.trans hs.array_lt.le
    exact ⟨hle, keeps_append hle _⟩

/-- What the old slice reads is not touched. -/
theorem read_append_old (hs : s.Valid h) : s.read (append zero g h s xs).1 = s.read h := by
  by_cases hroom : s.Room h xs
  · rw [append_room hroom, read, array_set_self hs.array_lt, List.append_assoc,
      List.take_append_of_le_length (length_read hs).ge, ← length_read hs, List.take_length]
  · rw [append_full hroom]
    exact read_of_array_eq (array_append_left hs.array_lt _)

theorem valid_append_old (hs : s.Valid h) : s.Valid (append zero g h s xs).1 := by
  by_cases hroom : s.Room h xs
  · rw [append_room hroom]
    refine ⟨by rw [List.length_set]; exact hs.array_lt, ?_⟩
    rw [array_set_self hs.array_lt, length_replaced hs hroom]
    exact hs.len_le
  · rw [append_full hroom]
    refine ⟨hs.array_lt.trans_le (by rw [List.length_append]; exact Nat.le_add_right _ _), ?_⟩
    rw [array_append_left hs.array_lt]
    exact hs.len_le

/-- The room behind a slice that was made by appending one element after the other. -/
def capacity (g : Growth) : Nat → Nat
  | 0 => 0
  | n + 1 => if n + 1 ≤ capacity g n then capacity g n else g.cap (capacity g n) (n + 1)

theorem capacity_append (hs : s.Valid h) (x : α)
    (hcap : (h.array s.array).length = capacity g s.len) :
    ((append zero g h s [x]).1.array (append zero g h s [x]).2.array).length =
      capacity g (append zero g h s [x]).2.len := by
  by_cases hroom : s.Room h [x]
  · rw [append_room hroom]
    rw [Room, List.length_singleton, hcap] at hroom
    rw [array_set_self hs.array_lt, length_replaced hs (by rwa [Room, hcap]), hcap,
      List.length_singleton, capacity, if_pos hroom]
  · rw [append_full hroom]
    rw [Room, List.length_singleton, hcap] at hroom
    have hle := g.le_cap (capacity g s.len) (s.len + 1)
    rw [array_append_self, List.length_append, List.length_append, length_read hs,
      List.length_replicate, hcap, List.length_singleton, capacity, if_neg hroom]
    omega

end Slice

end Prismalama.Lib.Backing
