import Mathlib.Data.List.AList
import Mathlib.Tactic

/-!
# Go maps

A Go `map[κ]ν` is an association list without duplicate keys. Reading and
writing one key do not see the order of the entries; a loop `for k, v := range
m` visits them in an order that the language leaves open, so a model of such a
loop takes that order as an argument, a permutation of `m.keys`.
-/

namespace Prismalama.Lib

/-- A Go map from `κ` to `ν`. -/
abbrev GoMap (κ : Type*) (ν : Type*) := AList (fun _ : κ => ν)

namespace GoMap

variable {κ ν : Type*} [DecidableEq κ]

theorem lookup_insert_ite (m : GoMap κ ν) (k k' : κ) (v : ν) :
    AList.lookup k' (AList.insert k v m) = if k' = k then some v else AList.lookup k' m := by
  split
  · subst k'
    exact AList.lookup_insert m
  · rename_i hne
    exact AList.lookup_insert_ne hne

theorem lookup_erase_ite (m : GoMap κ ν) (k k' : κ) :
    AList.lookup k' (AList.erase k m) = if k' = k then none else AList.lookup k' m := by
  split
  · subst k'
    exact AList.lookup_erase k m
  · rename_i hne
    exact AList.lookup_erase_ne hne

theorem lookup_empty (k : κ) : AList.lookup k (∅ : GoMap κ ν) = none :=
  AList.lookup_empty k

theorem isSome_lookup_insert {m : GoMap κ ν} {k k' : κ} {v : ν}
    (h : (AList.lookup k m).isSome = true) : (AList.lookup k (AList.insert k' v m)).isSome = true := by
  rw [lookup_insert_ite]
  split
  · rfl
  · exact h

/-- A key is present exactly when reading it finds a value. -/
theorem mem_keys_iff (m : GoMap κ ν) (k : κ) :
    k ∈ m.keys ↔ ∃ v, AList.lookup k m = some v := by
  rw [← AList.mem_keys, ← AList.lookup_isSome, Option.isSome_iff_exists]

theorem length_keys_erase {m : GoMap κ ν} {k : κ} (h : k ∈ m.keys) :
    (AList.erase k m).keys.length = m.keys.length - 1 := by
  rw [AList.keys_erase, List.length_erase_of_mem h]

/-- Reading all keys gives as many values. -/
theorem length_filterMap_lookup (m : GoMap κ ν) :
    (m.keys.filterMap fun k => AList.lookup k m).length = m.keys.length := by
  refine List.filterMap_length_eq_length.mpr fun k hk => ?_
  obtain ⟨v, hv⟩ := (mem_keys_iff m k).mp hk
  rw [hv]
  rfl

/-- Nothing can be read from an empty map only. -/
theorem eq_empty {m : GoMap κ ν} (h : ∀ k, AList.lookup k m = none) : m = ∅ := by
  refine AList.ext ?_
  cases hm : m.entries with
  | nil => rfl
  | cons e rest =>
    have hmem : e.1 ∈ m.keys := by
      rw [AList.keys, hm]
      exact List.mem_cons_self
    obtain ⟨v, hv⟩ := (mem_keys_iff m e.1).mp hmem
    rw [h e.1] at hv
    cases hv

end GoMap

end Prismalama.Lib
