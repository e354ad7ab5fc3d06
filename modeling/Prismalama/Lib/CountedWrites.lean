import Mathlib.Data.List.Basic
import Mathlib.Tactic.Basic

/-!
# Writes with a counter

A loop over cells writes into a list. It skips some cells, and what it writes depends on how many it
has not skipped. A list that a second loop fills in parts has in each place what the part of that
place writes.
-/

namespace Prismalama.Lib

section Cells

variable {ι α : Type*} (inside : ι → Bool) (pos : ι → Nat) (val : Nat → α)

/-- A step of the loop, with the cells so far. -/
def countedWrite (st : Nat × List α) (i : ι) : Nat × List α :=
  if inside i then (st.1 + 1, st.2.set (pos i) (val st.1)) else st

theorem countedWrite_length (cells : List ι) (st : Nat × List α) :
    (cells.foldl (countedWrite inside pos val) st).2.length = st.2.length := by
  induction cells generalizing st with
  | nil => rfl
  | cons i cells ih =>
    rw [List.foldl_cons, ih, countedWrite]
    split
    · exact List.length_set
    · rfl

theorem countedWrite_count (cells : List ι) (st : Nat × List α) :
    (cells.foldl (countedWrite inside pos val) st).1 =
      st.1 + (cells.filter inside).length := by
  induction cells generalizing st with
  | nil => rfl
  | cons i cells ih =>
    rw [List.foldl_cons, ih, countedWrite, List.filter_cons]
    split
    · rw [List.length_cons, Nat.add_assoc, Nat.add_comm 1]
    · rfl

/-- The other places stay. -/
theorem countedWrite_frame {cells : List ι} {p : Nat}
    (h : ∀ i ∈ cells, inside i = true → pos i ≠ p) (st : Nat × List α) :
    (cells.foldl (countedWrite inside pos val) st).2[p]? = st.2[p]? := by
  induction cells generalizing st with
  | nil => rfl
  | cons i cells ih =>
    rw [List.foldl_cons, ih fun j hj => h j (List.mem_cons_of_mem i hj), countedWrite]
    split
    · next hi => exact List.getElem?_set_ne (h i List.mem_cons_self hi)
    · rfl

/-- A place has what its cell writes. -/
theorem countedWrite_read {before after : List ι} {i : ι} (hi : inside i = true)
    (hafter : ∀ j ∈ after, inside j = true → pos j ≠ pos i) {st : Nat × List α}
    (hpos : pos i < st.2.length) :
    ((before ++ i :: after).foldl (countedWrite inside pos val) st).2[pos i]? =
      some (val (st.1 + (before.filter inside).length)) := by
  rw [List.foldl_append, List.foldl_cons, countedWrite_frame inside pos val hafter, countedWrite,
    if_pos hi, countedWrite_count]
  exact List.getElem?_set_self (by rwa [countedWrite_length])

end Cells

section Parts

variable {ι α : Type*} {f : List α → ι → List α}

/-- A place that one part writes, and the others leave alone, has what that part writes. -/
theorem foldl_own {n p : Nat} {own : ι} {v : α} (hlen : ∀ ws i, (f ws i).length = ws.length)
    (hframe : ∀ ws i, i ≠ own → (f ws i)[p]? = ws[p]?)
    (hread : ∀ ws : List α, ws.length = n → (f ws own)[p]? = some v) {parts : List ι}
    {ws : List α} (hws : ws.length = n) (h : own ∈ parts ∨ ws[p]? = some v) :
    (parts.foldl f ws)[p]? = some v := by
  induction parts generalizing ws with
  | nil => exact h.resolve_left List.not_mem_nil
  | cons i parts ih =>
    refine ih ((hlen ws i).trans hws) ?_
    by_cases hi : i = own
    · exact .inr (hi ▸ hread ws hws)
    · rw [hframe ws i hi]
      exact h.imp_left fun hmem => (List.mem_cons.mp hmem).resolve_left (Ne.symm hi)

theorem foldl_length (hlen : ∀ ws i, (f ws i).length = ws.length) (parts : List ι)
    (ws : List α) : (parts.foldl f ws).length = ws.length := by
  induction parts generalizing ws with
  | nil => rfl
  | cons i parts ih => rw [List.foldl_cons, ih, hlen]

end Parts

end Prismalama.Lib
