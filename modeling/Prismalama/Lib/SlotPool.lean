import Mathlib.Data.Finset.Card
import Prismalama.Lib.GoMap

/-!
# Reference-counted slots

A pool of numbered slots shared by owners. Each owner has at most one slot, a
slot may have several owners; `refs` counts them and `free` is the stack of the
slots nobody owns. The pool is `Balanced` when counts and stack say what the
assignment says.

The four moves are `acquire` (an owner without a slot takes a free one),
`share` (it joins another owner's slot), `detach` (it leaves a shared slot for
a free one) and `release`. Each keeps the balance, and as long as there are no
more owners than slots, `acquire` and `detach` find a free slot.
-/

namespace Prismalama.Lib

/-- Slots, their owners, and the stack of free slots, top first. -/
structure SlotPool (κ : Type*) where
  slotOf : GoMap κ Nat
  refs : List Nat
  free : List Nat

namespace SlotPool

variable {κ : Type*} [DecidableEq κ]

/-- The owners of a slot. -/
def owners (p : SlotPool κ) (slot : Nat) : Finset κ :=
  p.slotOf.keys.toFinset.filter fun k => p.slotOf.lookup k = some slot

@[simp] theorem mem_owners {p : SlotPool κ} {slot : Nat} {k : κ} :
    k ∈ p.owners slot ↔ p.slotOf.lookup k = some slot := by
  simp only [owners, Finset.mem_filter, List.mem_toFinset, and_iff_right_iff_imp]
  exact fun h => (GoMap.mem_keys_iff _ _).mpr ⟨slot, h⟩

/-- The counts and the stack agree with the assignment. -/
structure Balanced (p : SlotPool κ) : Prop where
  refs_eq : ∀ slot n, p.refs[slot]? = some n → n = (p.owners slot).card
  slot_lt : ∀ k slot, p.slotOf.lookup k = some slot → slot < p.refs.length
  nodup : p.free.Nodup
  free_iff : ∀ slot, slot ∈ p.free ↔ slot < p.refs.length ∧ p.owners slot = ∅

/-! ## The moves -/

/-- `k` takes the slot on top of the stack, with `rest` below it. -/
def acquire (p : SlotPool κ) (k : κ) (slot : Nat) (rest : List Nat) : SlotPool κ :=
  ⟨p.slotOf.insert k slot, p.refs.set slot 1, rest⟩

/-- `k` leaves `slot`, which others own too, for the slot `new` on top of the stack. -/
def detach (p : SlotPool κ) (k : κ) (slot new : Nat) (rest : List Nat) : SlotPool κ :=
  ⟨p.slotOf.insert k new, (p.refs.set slot (p.refs.getD slot 0 - 1)).set new 1, rest⟩

/-- `k` joins the owners of `slot`. -/
def share (p : SlotPool κ) (k : κ) (slot : Nat) : SlotPool κ :=
  ⟨p.slotOf.insert k slot, p.refs.set slot (p.refs.getD slot 0 + 1), p.free⟩

/-- `k` gives up `slot`; the last owner pushes it on the stack. -/
def release (p : SlotPool κ) (k : κ) (slot : Nat) : SlotPool κ :=
  ⟨p.slotOf.erase k, p.refs.set slot (p.refs.getD slot 0 - 1),
    if p.refs.getD slot 0 - 1 = 0 then slot :: p.free else p.free⟩

/-! ## Owners after a move -/

theorem owners_of_insert {p p' : SlotPool κ} {k : κ} {new : Nat}
    (h : p'.slotOf = p.slotOf.insert k new) (slot : Nat) :
    p'.owners slot = if slot = new then insert k (p.owners slot) else (p.owners slot).erase k := by
  ext x
  rw [mem_owners, h, GoMap.lookup_insert_ite]
  by_cases hx : x = k
  · by_cases hs : slot = new
    · simp [hx, hs]
    · simp [hx, hs, Ne.symm hs]
  · by_cases hs : slot = new <;> simp [hx, hs]

theorem owners_of_erase {p p' : SlotPool κ} {k : κ} (h : p'.slotOf = p.slotOf.erase k)
    (slot : Nat) : p'.owners slot = (p.owners slot).erase k := by
  ext x
  rw [mem_owners, h, GoMap.lookup_erase_ite]
  by_cases hx : x = k <;> simp [hx]

/-- Only its own slot loses an owner that goes away. -/
theorem erase_owners_of_ne {p : SlotPool κ} {k : κ} {slot j : Nat}
    (hk : p.slotOf.lookup k = some slot) (hj : j ≠ slot) : (p.owners j).erase k = p.owners j := by
  refine Finset.erase_eq_of_notMem fun hmem => hj ?_
  rw [mem_owners, hk] at hmem
  injection hmem with hmem
  exact hmem.symm

theorem erase_owners_of_none {p : SlotPool κ} {k : κ} (hk : p.slotOf.lookup k = none) (j : Nat) :
    (p.owners j).erase k = p.owners j := by
  refine Finset.erase_eq_of_notMem fun hmem => ?_
  rw [mem_owners, hk] at hmem
  cases hmem

namespace Balanced

variable {p : SlotPool κ}

theorem getD_eq (h : p.Balanced) {slot : Nat} (hlt : slot < p.refs.length) :
    p.refs.getD slot 0 = (p.owners slot).card := by
  have hget : p.refs[slot]? = some (p.refs[slot]) := List.getElem?_eq_getElem hlt
  rw [List.getD_eq_getElem?_getD, hget]
  exact h.refs_eq slot _ hget

/-- A slot on the stack has no owner. -/
theorem not_owned (h : p.Balanced) {slot : Nat} (hfree : slot ∈ p.free) (k : κ) :
    p.slotOf.lookup k ≠ some slot := by
  intro hk
  have hmem : k ∈ p.owners slot := mem_owners.mpr hk
  rw [((h.free_iff slot).mp hfree).2] at hmem
  cases hmem

theorem acquire (h : p.Balanced) {k : κ} (hk : p.slotOf.lookup k = none) {slot : Nat}
    {rest : List Nat} (hfree : p.free = slot :: rest) : (p.acquire k slot rest).Balanced := by
  have hslot := (h.free_iff slot).mp (by rw [hfree]; exact List.mem_cons_self)
  have hnd := h.nodup
  rw [hfree, List.nodup_cons] at hnd
  have howners : ∀ j, (p.acquire k slot rest).owners j =
      if j = slot then insert k (p.owners j) else p.owners j := by
    intro j
    have hslots : (p.acquire k slot rest).slotOf = p.slotOf.insert k slot := rfl
    rw [owners_of_insert hslots, erase_owners_of_none hk]
  refine ⟨?_, ?_, hnd.2, ?_⟩
  · intro j n hn
    rw [howners]
    by_cases hj : j = slot
    · subst hj
      simp only [SlotPool.acquire, List.getElem?_set_self hslot.1, Option.some.injEq] at hn
      simp [hslot.2, ← hn]
    · simp only [SlotPool.acquire, List.getElem?_set_ne (Ne.symm hj)] at hn
      rw [if_neg hj]
      exact h.refs_eq j n hn
  · intro x j hx
    simp only [SlotPool.acquire, GoMap.lookup_insert_ite, List.length_set] at hx ⊢
    split at hx
    · injection hx with hx
      rw [← hx]
      exact hslot.1
    · exact h.slot_lt x j hx
  · intro j
    rw [howners]
    simp only [SlotPool.acquire, List.length_set]
    by_cases hj : j = slot
    · subst hj
      simp [hnd.1]
    · have hiff := h.free_iff j
      rw [hfree, List.mem_cons, or_iff_right hj] at hiff
      rw [if_neg hj]
      exact hiff

theorem share (h : p.Balanced) {k : κ} (hk : p.slotOf.lookup k = none) {slot : Nat}
    (hslot : ∃ x, p.slotOf.lookup x = some slot) : (p.share k slot).Balanced := by
  obtain ⟨x, hx⟩ := hslot
  have hlt := h.slot_lt x slot hx
  have howners : ∀ j, (p.share k slot).owners j =
      if j = slot then insert k (p.owners j) else p.owners j := by
    intro j
    have hslots : (p.share k slot).slotOf = p.slotOf.insert k slot := rfl
    rw [owners_of_insert hslots, erase_owners_of_none hk]
  refine ⟨?_, ?_, h.nodup, ?_⟩
  · intro j n hn
    rw [howners]
    by_cases hj : j = slot
    · subst hj
      simp only [SlotPool.share, List.getElem?_set_self hlt, Option.some.injEq] at hn
      have hnot : k ∉ p.owners j := by simp [hk]
      rw [if_pos rfl, Finset.card_insert_of_notMem hnot, ← h.getD_eq hlt, hn]
    · simp only [SlotPool.share, List.getElem?_set_ne (Ne.symm hj)] at hn
      rw [if_neg hj]
      exact h.refs_eq j n hn
  · intro y j hy
    simp only [SlotPool.share, GoMap.lookup_insert_ite, List.length_set] at hy ⊢
    split at hy
    · injection hy with hy
      rw [← hy]
      exact hlt
    · exact h.slot_lt y j hy
  · intro j
    rw [howners]
    simp only [SlotPool.share, List.length_set]
    by_cases hj : j = slot
    · subst hj
      have hnot : j ∉ p.free := fun hmem => h.not_owned hmem x hx
      simp [hnot]
    · rw [if_neg hj]
      exact h.free_iff j

theorem detach (h : p.Balanced) {k : κ} {slot new : Nat} (hk : p.slotOf.lookup k = some slot)
    {rest : List Nat} (hfree : p.free = new :: rest) (hshared : 1 < (p.owners slot).card) :
    (p.detach k slot new rest).Balanced := by
  have hnew := (h.free_iff new).mp (by rw [hfree]; exact List.mem_cons_self)
  have hlt := h.slot_lt k slot hk
  have hnd := h.nodup
  rw [hfree, List.nodup_cons] at hnd
  have hne : slot ≠ new := by
    rintro rfl
    rw [hnew.2] at hshared
    simp at hshared
  have hslots : (p.detach k slot new rest).slotOf = p.slotOf.insert k new := rfl
  have howners := owners_of_insert hslots
  have hlen : (p.detach k slot new rest).refs.length = p.refs.length := by
    simp [SlotPool.detach]
  refine ⟨?_, ?_, hnd.2, ?_⟩
  · intro j n hn
    rw [howners]
    by_cases hj : j = new
    · subst hj
      simp only [SlotPool.detach] at hn
      rw [List.getElem?_set_self (by simpa using hnew.1)] at hn
      injection hn with hn
      simp [hnew.2, ← hn]
    · simp only [SlotPool.detach, List.getElem?_set_ne (Ne.symm hj)] at hn
      rw [if_neg hj]
      by_cases hjs : j = slot
      · subst hjs
        rw [List.getElem?_set_self hlt] at hn
        injection hn with hn
        rw [Finset.card_erase_of_mem (mem_owners.mpr hk), ← hn, h.getD_eq hlt]
      · rw [List.getElem?_set_ne (Ne.symm hjs)] at hn
        rw [erase_owners_of_ne hk hjs]
        exact h.refs_eq j n hn
  · intro x j hx
    rw [hlen]
    simp only [SlotPool.detach, GoMap.lookup_insert_ite] at hx
    split at hx
    · injection hx with hx
      rw [← hx]
      exact hnew.1
    · exact h.slot_lt x j hx
  · intro j
    rw [howners, hlen]
    change j ∈ rest ↔ _
    have hiff := h.free_iff j
    rw [hfree, List.mem_cons] at hiff
    by_cases hj : j = new
    · subst hj
      simp [hnd.1]
    · rw [or_iff_right hj] at hiff
      rw [if_neg hj]
      by_cases hjs : j = slot
      · subst hjs
        have hnot : j ∉ rest := by
          intro hmem
          rw [(hiff.mp hmem).2] at hshared
          simp at hshared
        have hne' : (p.owners j).erase k ≠ ∅ := by
          rw [← Finset.nonempty_iff_ne_empty, ← Finset.card_pos,
            Finset.card_erase_of_mem (mem_owners.mpr hk)]
          omega
        simp [hnot, hne']
      · rw [erase_owners_of_ne hk hjs]
        exact hiff

theorem release (h : p.Balanced) {k : κ} {slot : Nat} (hk : p.slotOf.lookup k = some slot) :
    (p.release k slot).Balanced := by
  have hlt := h.slot_lt k slot hk
  have hmem : k ∈ p.owners slot := mem_owners.mpr hk
  have hcard := h.getD_eq hlt
  have hnot : slot ∉ p.free := fun hfree => h.not_owned hfree k hk
  have hslots : (p.release k slot).slotOf = p.slotOf.erase k := rfl
  have howners := owners_of_erase hslots
  have hlen : (p.release k slot).refs.length = p.refs.length := by
    simp [SlotPool.release]
  have hempty : p.refs.getD slot 0 - 1 = 0 ↔ (p.owners slot).erase k = ∅ := by
    rw [← Finset.card_eq_zero, Finset.card_erase_of_mem hmem, hcard]
  refine ⟨?_, ?_, ?_, ?_⟩
  · intro j n hn
    rw [howners]
    by_cases hj : j = slot
    · subst hj
      simp only [SlotPool.release, List.getElem?_set_self hlt, Option.some.injEq] at hn
      rw [Finset.card_erase_of_mem hmem, ← hn, hcard]
    · simp only [SlotPool.release, List.getElem?_set_ne (Ne.symm hj)] at hn
      rw [erase_owners_of_ne hk hj]
      exact h.refs_eq j n hn
  · intro x j hx
    rw [hlen]
    simp only [SlotPool.release, GoMap.lookup_erase_ite] at hx
    split at hx
    · cases hx
    · exact h.slot_lt x j hx
  · simp only [SlotPool.release]
    split
    · exact List.nodup_cons.mpr ⟨hnot, h.nodup⟩
    · exact h.nodup
  · intro j
    rw [howners, hlen]
    simp only [SlotPool.release]
    by_cases hj : j = slot
    · subst hj
      rw [← hempty]
      split
      · rename_i hz
        exact ⟨fun _ => ⟨hlt, hz⟩, fun _ => List.mem_cons_self⟩
      · rename_i hz
        exact ⟨fun hmem => absurd hmem hnot, fun h0 => absurd h0.2 hz⟩
    · rw [erase_owners_of_ne hk hj]
      split
      · rw [List.mem_cons, or_iff_right hj]
        exact h.free_iff j
      · exact h.free_iff j

/-! ## A free slot is left -/

/-- Owners that take up every slot are at least as many. -/
theorem length_le_card {ks : Finset κ}
    (hks : ∀ slot < p.refs.length, ∃ k ∈ ks, p.slotOf.lookup k = some slot) :
    p.refs.length ≤ ks.card := by
  have hsurj : Set.SurjOn (fun k => (p.slotOf.lookup k).getD 0) (ks : Set κ)
      (Finset.range p.refs.length : Finset Nat) := by
    intro slot hslot
    obtain ⟨k, hk, hlook⟩ := hks slot (by simpa using hslot)
    exact ⟨k, hk, by simp [hlook]⟩
  simpa using Finset.card_le_card_of_surjOn _ hsurj

theorem owned_of_free_nil (h : p.Balanced) (hfree : p.free = []) {slot : Nat}
    (hslot : slot < p.refs.length) : ∃ k, p.slotOf.lookup k = some slot := by
  have hne : (p.owners slot).Nonempty := by
    rw [Finset.nonempty_iff_ne_empty]
    intro hempty
    have := (h.free_iff slot).mpr ⟨hslot, hempty⟩
    rw [hfree] at this
    cases this
  obtain ⟨k, hk⟩ := hne
  exact ⟨k, mem_owners.mp hk⟩

/-- An owner without a slot finds one. -/
theorem exists_free_of_none (h : p.Balanced) {ids : Finset κ} (hcard : ids.card ≤ p.refs.length)
    (hids : ∀ k slot, p.slotOf.lookup k = some slot → k ∈ ids) {k : κ} (hk : k ∈ ids)
    (hnone : p.slotOf.lookup k = none) : ∃ slot rest, p.free = slot :: rest := by
  cases hfree : p.free with
  | cons slot rest => exact ⟨slot, rest, rfl⟩
  | nil =>
    have hle : p.refs.length ≤ (ids.erase k).card := length_le_card fun slot hslot => by
      obtain ⟨x, hx⟩ := h.owned_of_free_nil hfree hslot
      refine ⟨x, Finset.mem_erase.mpr ⟨?_, hids x slot hx⟩, hx⟩
      rintro rfl
      rw [hnone] at hx
      cases hx
    rw [Finset.card_erase_of_mem hk] at hle
    have := Finset.card_pos.mpr ⟨k, hk⟩
    omega

/-- An owner of a shared slot finds another one. -/
theorem exists_free_of_shared (h : p.Balanced) {ids : Finset κ} (hcard : ids.card ≤ p.refs.length)
    (hids : ∀ k slot, p.slotOf.lookup k = some slot → k ∈ ids) {k : κ} {slot : Nat}
    (hk : p.slotOf.lookup k = some slot) (hshared : 1 < (p.owners slot).card) :
    ∃ new rest, p.free = new :: rest := by
  cases hfree : p.free with
  | cons new rest => exact ⟨new, rest, rfl⟩
  | nil =>
    obtain ⟨x, hx, hxk⟩ := Finset.exists_mem_ne hshared k
    rw [mem_owners] at hx
    have hle : p.refs.length ≤ (ids.erase k).card := length_le_card fun j hj => by
      by_cases hjs : j = slot
      · exact ⟨x, Finset.mem_erase.mpr ⟨hxk, hids x slot hx⟩, hjs ▸ hx⟩
      · obtain ⟨y, hy⟩ := h.owned_of_free_nil hfree hj
        refine ⟨y, Finset.mem_erase.mpr ⟨?_, hids y j hy⟩, hy⟩
        rintro rfl
        rw [hk] at hy
        injection hy with hy
        exact hjs hy.symm
    have hmem := hids k slot hk
    rw [Finset.card_erase_of_mem hmem] at hle
    have := Finset.card_pos.mpr ⟨k, hmem⟩
    omega

end Balanced

end SlotPool

end Prismalama.Lib
