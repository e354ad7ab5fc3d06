import Mathlib.Data.Finset.Card
import Mathlib.Logic.Function.Basic
import Mathlib.Logic.Relation
import Mathlib.Tactic

/-!
# Following a partial function

A partial function `next` leads from a key to at most one other. A walk that remembers the keys it
has seen stops at a key without a successor (`chase_ends_iff`) or says that it came back to one
(`chase_seen_iff`). A new edge closes a cycle only if its target leads to its source.
-/

namespace Prismalama.Lib.Chase

variable {κ : Type*} {next : κ → Option κ} {a b c e : κ}

/-- One edge. -/
def Follows (next : κ → Option κ) (a b : κ) : Prop := next a = some b

/-- Some edges. -/
def Leads (next : κ → Option κ) : κ → κ → Prop := Relation.ReflTransGen (Follows next)

/-- At least one edge, and back to the start. -/
def OnCycle (next : κ → Option κ) (a : κ) : Prop := Relation.TransGen (Follows next) a a

/-! ## Ends and cycles -/

theorem Leads.refl : Leads next a a := Relation.ReflTransGen.refl

theorem Leads.trans (hab : Leads next a b) (hbc : Leads next b c) : Leads next a c :=
  Relation.ReflTransGen.trans hab hbc

theorem Leads.head (hab : next a = some b) (hbc : Leads next b c) : Leads next a c :=
  Relation.ReflTransGen.head hab hbc

/-- An edge out of a key is the only one. -/
theorem leads_iff (hab : next a = some b) : Leads next a c ↔ a = c ∨ Leads next b c := by
  constructor
  · intro h
    rcases h.cases_head with rfl | ⟨b', hb', h⟩
    · exact .inl rfl
    · obtain rfl : b = b' := Option.some.inj (hab.symm.trans hb')
      exact .inr h
  · rintro (rfl | h)
    · exact .refl
    · exact .head hab h

/-- Nothing is reached from an end but the end. -/
theorem Leads.eq_of_end (h : Leads next e a) (hend : next e = none) : e = a := by
  rcases h.cases_head with rfl | ⟨b, hb, -⟩
  · rfl
  · rw [Follows, hend] at hb
    cases hb

theorem leads_total (hb : Leads next a b) (hc : Leads next a c) :
    Leads next b c ∨ Leads next c b :=
  Relation.ReflTransGen.total_of_right_unique
    (fun _ _ _ hy hz => Option.some.inj (Eq.trans (Eq.symm hy) hz)) hb hc

/-- What a cycle leads to leads back to it. -/
theorem OnCycle.back (h : OnCycle next a) (hab : Leads next a b) : Leads next b a := by
  induction hab with
  | refl => exact .refl
  | tail hab hbc ih =>
    rename_i b c
    rcases ih.cases_head with rfl | ⟨c', hc', hca⟩
    · obtain ⟨c', hc', hca⟩ := Relation.TransGen.head'_iff.mp h
      obtain rfl : c = c' := Option.some.inj (Eq.trans (Eq.symm hbc) hc')
      exact hca
    · obtain rfl : c = c' := Option.some.inj (Eq.trans (Eq.symm hbc) hc')
      exact hca

/-- A key that leads to an end does not lead to a cycle. -/
theorem not_onCycle_of_end (he : Leads next a e) (hend : next e = none) (hb : Leads next a b) :
    ¬OnCycle next b := by
  intro hcycle
  have hback : Leads next e b := by
    rcases leads_total he hb with heb | hbe
    · exact heb
    · exact hcycle.back hbe
  obtain rfl := hback.eq_of_end hend
  obtain ⟨c, hc, -⟩ := Relation.TransGen.head'_iff.mp hcycle
  rw [Follows, hend] at hc
  cases hc

/-! ## Edges that are set and removed -/

section update

variable [DecidableEq κ]

theorem leads_of_update {o : Option κ} (h : Leads (Function.update next a o) c a) :
    Leads next c a := by
  refine Relation.ReflTransGen.head_induction_on h .refl fun {c d} hcd _ ih => ?_
  rcases eq_or_ne c a with rfl | hne
  · exact .refl
  · rw [Follows, Function.update_of_ne hne] at hcd
    exact .head hcd ih

/-- A walk that does not come to the changed key is the one from before. -/
theorem transGen_of_update {o : Option κ} (hno : ¬Leads (Function.update next a o) c a)
    (h : Relation.TransGen (Follows (Function.update next a o)) c e) :
    Relation.TransGen (Follows next) c e := by
  induction h with
  | single hcd =>
    have hne : c ≠ a := fun heq => hno (heq ▸ .refl)
    rw [Follows, Function.update_of_ne hne] at hcd
    exact .single hcd
  | tail hcd hde ih =>
    rename_i d e
    have hne : d ≠ a := fun heq => hno (heq ▸ hcd.to_reflTransGen)
    rw [Follows, Function.update_of_ne hne] at hde
    exact ih.tail hde

/-- A new edge closes no cycle unless its target leads to its source. -/
theorem onCycle_of_update_some (hba : ¬Leads next b a)
    (h : OnCycle (Function.update next a (some b)) c) : OnCycle next c := by
  refine transGen_of_update (fun hca => hba ?_) h
  have hac : Leads (Function.update next a (some b)) a c := h.back hca
  have ha : OnCycle (Function.update next a (some b)) a :=
    Relation.TransGen.trans_left (Relation.TransGen.trans_right hac h) hca
  obtain ⟨b', hb', hba'⟩ := Relation.TransGen.head'_iff.mp ha
  rw [Follows, Function.update_self] at hb'
  obtain rfl := Option.some.inj hb'
  exact leads_of_update hba'

theorem onCycle_of_update_none (h : OnCycle (Function.update next a none) c) :
    OnCycle next c := by
  refine Relation.TransGen.mono (fun d e hde => ?_) _ _ h
  rcases eq_or_ne d a with rfl | hne
  · rw [Follows, Function.update_self] at hde
    cases hde
  · rw [Follows, Function.update_of_ne hne] at hde
    exact hde

end update

/-! ## The walk -/

/-- Where the walk stops. -/
inductive Stop (κ : Type*)
  | ends (k : κ)
  | seen
  deriving DecidableEq

variable [DecidableEq κ]

/-- Follow `next` and remember the keys; `none` when the fuel is used up. -/
def chase (next : κ → Option κ) : Nat → List κ → κ → Option (Stop κ)
  | 0, _, _ => none
  | fuel + 1, visited, k =>
    if k ∈ visited then some .seen
    else
      match next k with
      | none => some (.ends k)
      | some k' => chase next fuel (k :: visited) k'

/-- Each round but the last one takes a key out of those that have a successor. -/
theorem chase_isSome (keys : List κ) (hkeys : ∀ k, next k ≠ none → k ∈ keys) (fuel : Nat)
    (visited : List κ) (k : κ) (hfuel : (keys.toFinset \ visited.toFinset).card < fuel) :
    (chase next fuel visited k).isSome = true := by
  induction fuel generalizing visited k with
  | zero => omega
  | succ fuel ih =>
    rw [chase]
    split
    · rfl
    rename_i hseen
    cases hk : next k with
    | none => rfl
    | some k' =>
      refine ih _ _ (lt_of_lt_of_le (Finset.card_lt_card ?_) (Nat.lt_succ_iff.mp hfuel))
      have hmem : k ∈ keys := hkeys k (by rw [hk]; exact Option.some_ne_none k')
      refine ⟨fun x hx => ?_, fun hsub => ?_⟩
      · rw [Finset.mem_sdiff, List.mem_toFinset, List.mem_toFinset] at hx ⊢
        exact ⟨hx.1, fun hv => hx.2 (List.mem_cons_of_mem _ hv)⟩
      · have hk' := hsub (Finset.mem_sdiff.mpr ⟨List.mem_toFinset.mpr hmem,
          fun hv => hseen (List.mem_toFinset.mp hv)⟩)
        rw [Finset.mem_sdiff, List.mem_toFinset, List.mem_toFinset] at hk'
        exact hk'.2 List.mem_cons_self

theorem chase_isSome_of_length {keys : List κ} (hkeys : ∀ k, next k ≠ none → k ∈ keys)
    {fuel : Nat} (hfuel : keys.length < fuel) (visited : List κ) (k : κ) :
    (chase next fuel visited k).isSome = true :=
  chase_isSome keys hkeys fuel visited k
    (lt_of_le_of_lt ((Finset.card_le_card Finset.sdiff_subset).trans (List.toFinset_card_le keys))
      hfuel)

theorem chase_ends {fuel : Nat} {visited : List κ} {k e : κ}
    (h : chase next fuel visited k = some (.ends e)) :
    Leads next k e ∧ next e = none ∧ ∀ v ∈ visited, ¬Leads next k v := by
  induction fuel generalizing visited k with
  | zero => cases h
  | succ fuel ih =>
    rw [chase] at h
    split at h
    · cases h
    rename_i hseen
    cases hk : next k with
    | none =>
      rw [hk] at h
      obtain rfl : k = e := by injection h with h; injection h
      exact ⟨.refl, hk, fun v hv hkv => hseen (hkv.eq_of_end hk ▸ hv)⟩
    | some k' =>
      rw [hk] at h
      obtain ⟨hleads, hend, hnot⟩ := ih h
      refine ⟨.head hk hleads, hend, fun v hv hkv => ?_⟩
      rcases (leads_iff hk).mp hkv with rfl | hkv
      · exact hseen hv
      · exact hnot v (List.mem_cons_of_mem _ hv) hkv

theorem chase_seen {fuel : Nat} {visited : List κ} {k : κ}
    (h : chase next fuel visited k = some .seen) :
    (∃ v ∈ visited, Leads next k v) ∨ ∃ v, Leads next k v ∧ OnCycle next v := by
  induction fuel generalizing visited k with
  | zero => cases h
  | succ fuel ih =>
    rw [chase] at h
    split at h
    · exact .inl ⟨k, ‹_›, .refl⟩
    rename_i hseen
    cases hk : next k with
    | none => rw [hk] at h; cases h
    | some k' =>
      rw [hk] at h
      rcases ih h with ⟨v, hv, hkv⟩ | ⟨v, hkv, hcycle⟩
      · rcases List.mem_cons.mp hv with rfl | hv
        · exact .inr ⟨v, .refl, Relation.TransGen.head' hk hkv⟩
        · exact .inl ⟨v, hv, .head hk hkv⟩
      · exact .inr ⟨v, .head hk hkv, hcycle⟩

/-- The walk comes to an end, which it has not seen before. -/
theorem chase_ends_iff {keys : List κ} (hkeys : ∀ k, next k ≠ none → k ∈ keys) {fuel : Nat}
    (hfuel : keys.length < fuel) {visited : List κ} {k e : κ} :
    chase next fuel visited k = some (.ends e) ↔
      Leads next k e ∧ next e = none ∧ ∀ v ∈ visited, ¬Leads next k v := by
  refine ⟨chase_ends, fun ⟨hleads, hend, hnot⟩ => ?_⟩
  obtain ⟨stop, hstop⟩ := Option.isSome_iff_exists.mp
    (chase_isSome_of_length hkeys hfuel visited k)
  rw [hstop]
  cases stop with
  | ends e' =>
    obtain ⟨hleads', hend', -⟩ := chase_ends hstop
    rcases leads_total hleads hleads' with h | h
    · rw [h.eq_of_end hend]
    · rw [h.eq_of_end hend']
  | seen =>
    rcases chase_seen hstop with ⟨v, hv, hkv⟩ | ⟨v, hkv, hcycle⟩
    · exact absurd hkv (hnot v hv)
    · exact absurd hcycle (not_onCycle_of_end hleads hend hkv)

/-- The walk comes to a key that was seen before it, or to a cycle. -/
theorem chase_seen_iff {keys : List κ} (hkeys : ∀ k, next k ≠ none → k ∈ keys) {fuel : Nat}
    (hfuel : keys.length < fuel) {visited : List κ} {k : κ} :
    chase next fuel visited k = some .seen ↔
      (∃ v ∈ visited, Leads next k v) ∨ ∃ v, Leads next k v ∧ OnCycle next v := by
  refine ⟨chase_seen, fun h => ?_⟩
  obtain ⟨stop, hstop⟩ := Option.isSome_iff_exists.mp
    (chase_isSome_of_length hkeys hfuel visited k)
  rw [hstop]
  cases stop with
  | seen => rfl
  | ends e =>
    obtain ⟨hleads, hend, hnot⟩ := chase_ends hstop
    rcases h with ⟨v, hv, hkv⟩ | ⟨v, hkv, hcycle⟩
    · exact absurd hkv (hnot v hv)
    · exact absurd hcycle (not_onCycle_of_end hleads hend hkv)

end Prismalama.Lib.Chase
