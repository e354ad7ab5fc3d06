import Prismalama.Kvcache.CausalResume
import Prismalama.Runner.Server

/-!
# Slots and cells agree

In every run each input of a slot is in one cell of the slot's sequence, at its index, and was
written from it or from an input that `countCommonPrefix` does not tell from it. A sequence that is
being processed has no other cells than those of its slot and of the batch it is in.
-/

namespace Prismalama.Runner.Server

open Prismalama.Lib Prismalama.Kvcache Prismalama.Kvcache.Causal

variable {cfg : Config} {c : Causal} {data : Nat → Item} {slot n : Nat} {xs ys : List Item}

/-! ## Cells and inputs -/

/-- Inputs that `countCommonPrefix` does not tell apart. -/
def Item.Same (x y : Item) : Prop :=
  x.token = y.token ∧ x.multimodalHash = y.multimodalHash

theorem Item.Same.trans {x y z : Item} (h : x.Same y) (h' : y.Same z) : x.Same z :=
  ⟨h.1.trans h'.1, h.2.trans h'.2⟩

/-- Each input is in a cell of the slot's sequence, at its index. -/
def Held (c : Causal) (data : Nat → Item) (slot : Nat) (xs : List Item) : Prop :=
  ∀ (p : Nat) (x : Item), xs[p]? = some x → ∃ j, c.Stores slot p j ∧ (data j).Same x

/-- The slot's sequence has no position beyond the first `n`. -/
def Within (c : Causal) (slot n : Nat) : Prop := ∀ p j, c.Stores slot p j → p < n

theorem held_nil : Held c data slot [] := fun p x h => by cases h

theorem Held.take (h : Held c data slot xs) (n : Nat) : Held c data slot (xs.take n) := by
  intro p x hx
  rw [List.getElem?_take] at hx
  split at hx
  · exact h p x hx
  · cases hx

theorem Held.of_stores {c' : Causal} {slot' : Nat} (h : Held c data slot xs)
    (hstores : ∀ (p : Nat) j, p < xs.length → c.Stores slot p j → c'.Stores slot' p j) :
    Held c' data slot' xs := by
  intro p x hx
  obtain ⟨j, hj, hsame⟩ := h p x hx
  exact ⟨j, hstores p j (List.getElem?_eq_some_iff.mp hx).1 hj, hsame⟩

theorem Within.of_stores {c' : Causal} (h : Within c slot n)
    (hstores : ∀ p j, c'.Stores slot p j → c.Stores slot p j) : Within c' slot n :=
  fun p j hst => h p j (hstores p j hst)

/-- A causal cache without a window, each of whose positions is in one cell. -/
structure CacheOk (c : Causal) : Prop where
  wf : c.Wf
  full : c.swaMemorySize = maxInt32
  range : Positions IsPosition c
  distinct : ∀ s p j j', c.Stores s p j → c.Stores s p j' → j = j'

theorem CacheOk.init {parallel capacity maxBatch cachePadding : Nat} {hasShift : Bool}
    (h : (newCausalCache cachePadding hasShift).init parallel capacity maxBatch = some c) :
    CacheOk c := by
  have hinv := init_history h
  refine ⟨hinv.wf, ?_, hinv.contiguous.range, hinv.contiguous.distinct⟩
  have hwindow : c.swaWindowSize = maxInt32 := by
    rw [CausalConfig.init, Option.ite_none_left_eq_some] at h
    obtain ⟨-, h⟩ := h
    rw [Option.ite_none_left_eq_some] at h
    obtain rfl := Option.some.inj h.2
    rfl
  exact le_antisymm hinv.memory_le (hwindow ▸ hinv.window_le)

theorem CacheOk.copyPrefix (h : CacheOk c) {src dst : Int} (hne : src ≠ dst) (len : Int) :
    CacheOk (c.copyPrefix src dst len) := by
  have hcontiguous : ∀ s p j, (c.copyPrefix src dst len).Stores s p j →
      c.Stores (if s = dst then src else s) p j := by
    intro s p j hst
    rw [copyPrefix_stores hne] at hst
    split at hst
    · rw [if_pos ‹_›]
      exact hst.1
    · rw [if_neg ‹_›]
      exact hst
  refine ⟨copyPrefix_wf h.wf hne len, ?_, fun s p j hst => h.range _ p j (hcontiguous s p j hst),
    fun s p j j' hst hst' => h.distinct _ p j j' (hcontiguous s p j hst) (hcontiguous s p j' hst')⟩
  rw [memory_eq_of_frame (copyPrefix_frame c src dst len)]
  exact h.full

theorem CacheOk.remove_tail (h : CacheOk c) (seq : Int) (n : Nat) (backend : Option KvError) :
    CacheOk (c.remove seq n maxInt32 backend).1 := by
  have hold : ∀ s p j, (c.remove seq n maxInt32 backend).1.Stores s p j → c.Stores s p j :=
    fun s p j hst => ((Causal.remove_tail h.range seq n backend s p j).mp hst).1
  refine ⟨remove_wf h.wf seq n maxInt32 backend, ?_, fun s p j hst => h.range s p j (hold s p j hst),
    fun s p j j' hst hst' => h.distinct s p j j' (hold s p j hst) (hold s p j' hst')⟩
  rw [memory_eq_of_frame (remove_frame c seq n maxInt32 backend)]
  exact h.full

/-- Removing a tail does not fail. -/
theorem CacheOk.remove_ok (h : CacheOk c) (seq : Int) (n : Nat) (backend : Option KvError) :
    (c.remove seq n maxInt32 backend).2 = none := by
  rw [remove_of_ok backend (removeFails_tail h.range n), resetRange]
  dsimp only
  split
  · rfl
  · rw [if_neg (not_not.mpr rfl)]

/-! ## The slots -/

/-- What is in the slots is in the cells. -/
structure Good (cfg : Config) (data : Nat → Item) (ic : InputCache) : Prop where
  cache : CacheOk ic.cache
  held : ∀ slot, Held ic.cache data slot (ic.inputs slot)
  le_numCtx : ∀ slot, ((ic.inputs slot).length : Int) ≤ cfg.numCtx

variable {ic : InputCache} {i : Nat}

@[simp] theorem cache_modify (f : Slot → Slot) : (ic.modify slot f).cache = ic.cache := rfl

@[simp] theorem cache_setInputs : (ic.setInputs slot xs).cache = ic.cache := rfl

@[simp] theorem length_modify (f : Slot → Slot) :
    (ic.modify slot f).slots.length = ic.slots.length := List.length_modify ..

theorem get_modify_ne (f : Slot → Slot) (hne : i ≠ slot) :
    (ic.modify slot f).slots[i]? = ic.slots[i]? := List.getElem?_modify_ne f _ (Ne.symm hne)

theorem inputs_modify_ne (f : Slot → Slot) (hne : i ≠ slot) :
    (ic.modify slot f).inputs i = ic.inputs i := by
  rw [InputCache.inputs, get_modify_ne f hne, InputCache.inputs]

theorem inUse_modify_ne (f : Slot → Slot) (hne : i ≠ slot) :
    (ic.modify slot f).inUse i = ic.inUse i := by
  rw [InputCache.inUse, get_modify_ne f hne, InputCache.inUse]

theorem inUse_of_get {s : Slot} (h : ic.slots[slot]? = some s) : ic.inUse slot = s.inUse := by
  rw [InputCache.inUse, h]
  rfl

/-- A slot in use is one of the slots. -/
theorem get_of_inUse (h : ic.inUse slot = true) : ∃ s, ic.slots[slot]? = some s := by
  unfold InputCache.inUse at h
  cases hget : ic.slots[slot]? with
  | none => rw [hget] at h; cases h
  | some s => exact ⟨s, rfl⟩

theorem inUse_setInputs (slot i : Nat) (xs : List Item) :
    (ic.setInputs slot xs).inUse i = ic.inUse i := by
  by_cases hi : i = slot
  · subst hi
    cases hget : ic.slots[i]? with
    | none =>
      unfold InputCache.setInputs InputCache.inUse InputCache.modify
      rw [List.getElem?_modify_eq, hget]
      rfl
    | some s => exact (inUse_of_get (get_modify _ hget)).trans (inUse_of_get hget).symm
  · exact inUse_modify_ne _ hi

/-! ## `LoadCacheSlot` -/

theorem countCommonPrefix_same (xs ys : List Item) : ∀ p < countCommonPrefix xs ys, ∃ x y,
    xs[p]? = some x ∧ ys[p]? = some y ∧ x.Same y := by
  induction xs generalizing ys with
  | nil => intro p hp; simp [countCommonPrefix] at hp
  | cons a as ih =>
    cases ys with
    | nil => intro p hp; simp [countCommonPrefix] at hp
    | cons b bs =>
      intro p hp
      rw [countCommonPrefix] at hp
      split at hp
      · omega
      · rename_i hsame
        push Not at hsame
        cases p with
        | zero => exact ⟨a, b, rfl, rfl, hsame⟩
        | succ p => exact ih bs p (by omega)

theorem countCommonPrefix_le (xs ys : List Item) :
    countCommonPrefix xs ys ≤ xs.length ∧ countCommonPrefix xs ys ≤ ys.length := by
  induction xs generalizing ys with
  | nil => simp [countCommonPrefix]
  | cons a as ih =>
    cases ys with
    | nil => simp [countCommonPrefix]
    | cons b bs =>
      have := ih bs
      rw [countCommonPrefix]
      split
      · simp
      · simp only [List.length_cons]
        omega

/-- The longest slot that is found begins like the prompt. -/
theorem longestFrom_spec {prompt : List Item} (slots : List Slot) (i : Nat) {longest : Longest}
    {n k : Nat} (h : longestFrom prompt i slots longest = some (n, k)) :
    longest = some (n, k) ∨ ∃ m s, slots[m]? = some s ∧ k = i + m ∧ s.inUse = false ∧
      n = countCommonPrefix s.inputs prompt := by
  induction slots generalizing i longest with
  | nil => exact .inl h
  | cons s rest ih =>
    have hlater : (∃ m t, rest[m]? = some t ∧ k = i + 1 + m ∧ t.inUse = false ∧
        n = countCommonPrefix t.inputs prompt) → ∃ m t, (s :: rest)[m]? = some t ∧ k = i + m ∧
        t.inUse = false ∧ n = countCommonPrefix t.inputs prompt := by
      rintro ⟨m, t, hget, rfl, hrest⟩
      exact ⟨m + 1, t, hget, by omega, hrest⟩
    rw [longestFrom] at h
    split at h
    · exact (ih _ h).imp_right hlater
    · rename_i huse
      rcases ih _ h with hl | hl
      · split at hl
        · obtain ⟨rfl, rfl⟩ := Prod.mk.inj (Option.some.inj hl)
          exact .inr ⟨0, s, rfl, rfl, Bool.eq_false_iff.mpr huse, rfl⟩
        · exact .inl hl
      · exact .inr (hlater hl)

theorem bestFrom_spec {prompt : List Item} {now : Int} (slots : List Slot) (i : Nat)
    (best : Longest × Option (Int × Nat)) :
    (∀ n k, (bestFrom prompt now i slots best).1 = some (n, k) → best.1 = some (n, k) ∨
      ∃ m s, slots[m]? = some s ∧ k = i + m ∧ n = countCommonPrefix s.inputs prompt) ∧
    ∀ t k, (bestFrom prompt now i slots best).2 = some (t, k) → best.2 = some (t, k) ∨
      ∃ m s, slots[m]? = some s ∧ k = i + m := by
  induction slots generalizing i best with
  | nil => exact ⟨fun _ _ h => .inl h, fun _ _ h => .inl h⟩
  | cons s rest ih =>
    obtain ⟨longest, oldest⟩ := best
    obtain ⟨hlongest, holdest⟩ := ih (i + 1)
      (if longest.lt (countCommonPrefix s.inputs prompt) = true then
        some (countCommonPrefix s.inputs prompt, i) else longest,
        if s.lastUsed < (oldest.map Prod.fst).getD now ∧ s.inUse = false then some (s.lastUsed, i)
        else oldest)
    rw [bestFrom]
    refine ⟨fun n k h => ?_, fun t k h => ?_⟩
    · rcases hlongest n k h with hl | ⟨m, t, hget, rfl, hn⟩
      · dsimp only at hl
        split at hl
        · obtain ⟨rfl, rfl⟩ := Prod.mk.inj (Option.some.inj hl)
          exact .inr ⟨0, s, rfl, rfl, rfl⟩
        · exact .inl hl
      · exact .inr ⟨m + 1, t, hget, by omega, hn⟩
    · rcases holdest t k h with hl | ⟨m, t, hget, rfl⟩
      · dsimp only at hl
        split at hl
        · obtain ⟨rfl, rfl⟩ := Prod.mk.inj (Option.some.inj hl)
          exact .inr ⟨0, s, rfl, rfl⟩
        · exact .inl hl
      · exact .inr ⟨m + 1, t, hget, by omega⟩

/-- A slot that is found, and what became of the others: nothing. -/
structure Found (cfg : Config) (data : Nat → Item) (ic ic' : InputCache) (slot n : Nat)
    (prompt : List Item) : Prop where
  good : Good cfg data ic'
  free : ic.inUse slot = false
  get : ∃ s, ic'.slots[slot]? = some s
  inUse : ∀ i, ic'.inUse i = ic.inUse i
  inputs : ∀ i, i ≠ slot → ic'.inputs i = ic.inputs i
  stores : ∀ i : Nat, i ≠ slot → ∀ p j, ic'.cache.Stores i p j ↔ ic.cache.Stores i p j
  same : ∀ p < n, ∃ x y, (ic'.inputs slot)[p]? = some x ∧ prompt[p]? = some y ∧ x.Same y
  le : n ≤ prompt.length

theorem Found.same_slot (h : Good cfg data ic) {prompt : List Item} {s : Slot}
    (hget : ic.slots[slot]? = some s) (hfree : ic.inUse slot = false)
    (hn : n = 0 ∨ n = countCommonPrefix s.inputs prompt) :
    Found cfg data ic ic slot n prompt where
  good := h
  free := hfree
  get := ⟨s, hget⟩
  inUse _ := rfl
  inputs _ _ := rfl
  stores _ _ _ _ := Iff.rfl
  same p hp := by
    rw [inputs_of_get hget]
    rcases hn with rfl | rfl
    · omega
    · exact countCommonPrefix_same _ _ p hp
  le := by
    rcases hn with rfl | rfl
    · omega
    · exact (countCommonPrefix_le _ _).2

/-- A slot that becomes a copy of the beginning of another one. -/
theorem Found.fork (h : Good cfg data ic) {prompt : List Item} {src : Nat} {s t : Slot}
    (hne : src ≠ slot) (hsrc : ic.slots[src]? = some t) (hget : ic.slots[slot]? = some s)
    (hfree : ic.inUse slot = false) (hn : n = countCommonPrefix t.inputs prompt) :
    Found cfg data ic
      { ic.setInputs slot ((ic.inputs src).take n) with
        cache := ic.cache.copyPrefix src slot n } slot n prompt := by
  have hne' : (src : Int) ≠ slot := fun heq => hne (by exact_mod_cast heq)
  have hle := countCommonPrefix_le t.inputs prompt
  have hinputs : (ic.setInputs slot ((ic.inputs src).take n)).inputs slot = t.inputs.take n := by
    rw [inputs_setInputs hget, inputs_of_get hsrc]
  have hother : ∀ i, i ≠ slot →
      (ic.setInputs slot ((ic.inputs src).take n)).inputs i = ic.inputs i :=
    fun i hi => inputs_modify_ne _ hi
  have hstores : ∀ i : Nat, i ≠ slot → ∀ p j,
      (ic.cache.copyPrefix src slot n).Stores i p j ↔ ic.cache.Stores i p j := by
    intro i hi p j
    rw [copyPrefix_stores hne', if_neg fun heq => hi (by exact_mod_cast heq)]
  refine ⟨⟨h.cache.copyPrefix hne' n, fun i => ?_, fun i => ?_⟩, hfree, ⟨_, get_modify _ hget⟩,
    fun i => inUse_setInputs slot i _, hother, hstores, fun p hp => ?_, by omega⟩
  · by_cases hi : i = slot
    · subst hi
      show Held _ data i ((ic.setInputs i ((ic.inputs src).take n)).inputs i)
      rw [hinputs]
      have hheld := (h.held src).take n
      rw [inputs_of_get hsrc] at hheld
      refine hheld.of_stores fun p j hp hst => ?_
      rw [copyPrefix_stores hne', if_pos rfl]
      rw [List.length_take] at hp
      exact ⟨hst, by omega⟩
    · show Held _ data i ((ic.setInputs slot ((ic.inputs src).take n)).inputs i)
      rw [hother i hi]
      exact (h.held i).of_stores fun p j _ hst => (hstores i hi p j).mpr hst
  · show (((ic.setInputs slot ((ic.inputs src).take n)).inputs i).length : Int) ≤ cfg.numCtx
    by_cases hi : i = slot
    · subst hi
      have hlen := h.le_numCtx src
      rw [inputs_of_get hsrc] at hlen
      rw [hinputs, List.length_take]
      omega
    · rw [hother i hi]
      exact h.le_numCtx i
  · show ∃ x y, ((ic.setInputs slot ((ic.inputs src).take n)).inputs slot)[p]? = some x ∧ _
    rw [hinputs, List.getElem?_take_of_lt hp]
    subst hn
    exact countCommonPrefix_same _ _ p hp

theorem findLongest_found (h : Good cfg data ic) {prompt : List Item} {ic' : InputCache}
    (hfind : ic.findLongestCacheSlot prompt = .ok (ic', slot, n)) :
    Found cfg data ic ic' slot n prompt := by
  unfold InputCache.findLongestCacheSlot at hfind
  split at hfind
  · cases hfind
  · rename_i n' slot' hlongest
    obtain ⟨rfl, rfl, rfl⟩ : ic = ic' ∧ slot' = slot ∧ n' = n := by
      have := Except.ok.inj hfind
      simpa using this
    rcases longestFrom_spec ic.slots 0 hlongest with hnone | ⟨m, s, hget, rfl, hfree, hn⟩
    · cases hnone
    · rw [Nat.zero_add]
      exact Found.same_slot h hget ((inUse_of_get hget).trans hfree) (.inr hn)

theorem findBest_found (h : Good cfg data ic) {prompt : List Item} {now : Int} {ic' : InputCache}
    (hfind : ic.findBestCacheSlot prompt now = some (.ok (ic', slot, n))) :
    Found cfg data ic ic' slot n prompt := by
  obtain ⟨hlongest, holdest⟩ := @bestFrom_spec prompt now ic.slots 0 (none, none)
  unfold InputCache.findBestCacheSlot at hfind
  split at hfind
  · cases hfind
  rename_i longest longestSlot oldest hbest
  rw [hbest] at hlongest holdest
  obtain ⟨m, t, hsrc, heq, hn⟩ := (hlongest longest longestSlot rfl).resolve_left (by simp)
  obtain rfl : m = longestSlot := by omega
  split at hfind
  · rename_i hwhole
    obtain ⟨rfl, rfl, rfl⟩ : ic = ic' ∧ m = slot ∧ longest = n := by simpa using hfind
    exact Found.same_slot h hsrc hwhole.2 (.inr hn)
  split at hfind
  · cases hfind
  rename_i time oldestSlot
  obtain ⟨m', s, hget, heq⟩ := (holdest time oldestSlot rfl).resolve_left (by simp)
  obtain rfl : m' = oldestSlot := by omega
  split at hfind
  · cases hfind
  rename_i huse
  have hfree : ic.inUse m' = false := Bool.eq_false_iff.mpr huse
  split at hfind
  · rename_i hfork
    obtain ⟨rfl, rfl, rfl⟩ := by
      have := Except.ok.inj (Option.some.inj hfind)
      simpa only [Prod.mk.injEq] using this
    exact Found.fork h hfork.2 hsrc hget hfree hn
  · rename_i hsame
    obtain ⟨rfl, rfl, rfl⟩ : ic = ic' ∧ m' = slot ∧ longest = n := by simpa using hfind
    refine Found.same_slot h hget hfree ?_
    by_cases hzero : longest = 0
    · exact .inl hzero
    · have heq : m = m' := by
        by_contra hne
        exact hsame ⟨by omega, hne⟩
      subst heq
      rw [hsrc] at hget
      rw [← Option.some.inj hget]
      exact .inr hn

/-- A slot that is loaded: its inputs are all that its sequence has cells for. -/
structure Loaded (cfg : Config) (data : Nat → Item) (ic ic' : InputCache) (slot : Nat) : Prop where
  good : Good cfg data ic'
  free : ic.inUse slot = false
  inUse : ic'.inUse slot = true
  within : Within ic'.cache slot (ic'.inputs slot).length
  inUse_ne : ∀ i, i ≠ slot → ic'.inUse i = ic.inUse i
  inputs : ∀ i, i ≠ slot → ic'.inputs i = ic.inputs i
  stores : ∀ i : Nat, i ≠ slot → ∀ p j, ic'.cache.Stores i p j ↔ ic.cache.Stores i p j

/-- The beginning of the prompt takes the place of the inputs it is the same as. -/
theorem Found.loaded {ic₁ : InputCache} {prompt : List Item} {numPast : Nat}
    (h : Found cfg data ic ic₁ slot n prompt) (hle : numPast ≤ n) (now' : Int)
    (backend : Option KvError) :
    Loaded cfg data ic
      (({ ic₁.modify slot fun s => { s with inUse := true, lastUsed := now' } with
        cache := (ic₁.cache.remove slot numPast maxInt32 backend).1 } : InputCache).setInputs slot
          (prompt.take numPast)) slot := by
  obtain ⟨s, hget⟩ := h.get
  have hslot : ({ ic₁.modify slot fun s => { s with inUse := true, lastUsed := now' } with
      cache := (ic₁.cache.remove slot numPast maxInt32 backend).1 } : InputCache).slots[slot]? =
      some { s with inUse := true, lastUsed := now' } := get_modify _ hget
  have hlen : (prompt.take numPast).length = numPast :=
    List.length_take_of_le (hle.trans h.le)
  have htail := Causal.remove_tail h.good.cache.range slot numPast backend
  have hother : ∀ i, i ≠ slot → (({ ic₁.modify slot fun s => { s with inUse := true, lastUsed := now' } with
      cache := (ic₁.cache.remove slot numPast maxInt32 backend).1 } : InputCache).setInputs slot
        (prompt.take numPast)).inputs i = ic₁.inputs i := fun i hi =>
    (inputs_modify_ne _ hi).trans (inputs_modify_ne _ hi)
  have hstores : ∀ i : Nat, i ≠ slot → ∀ p j,
      (ic₁.cache.remove slot numPast maxInt32 backend).1.Stores i p j ↔
        ic₁.cache.Stores i p j := by
    intro i hi p j
    rw [htail]
    exact ⟨fun hst => hst.1, fun hst => ⟨hst, fun heq => absurd (by exact_mod_cast heq) hi⟩⟩
  refine ⟨⟨h.good.cache.remove_tail slot numPast backend, fun i => ?_, fun i => ?_⟩, h.free,
    (inUse_setInputs ..).trans (inUse_of_get hslot), fun p j hst => ?_, fun i hi => ?_,
    fun i hi => (hother i hi).trans (h.inputs i hi),
    fun i hi p j => (hstores i hi p j).trans (h.stores i hi p j)⟩
  · by_cases hi : i = slot
    · subst hi
      rw [inputs_setInputs hslot]
      intro p x hx
      have hp : p < numPast := by
        have := (List.getElem?_eq_some_iff.mp hx).1
        omega
      rw [List.getElem?_take_of_lt hp] at hx
      obtain ⟨y, z, hy, hz, hsame⟩ := h.same p (by omega)
      obtain rfl := Option.some.inj (hx.symm.trans hz)
      obtain ⟨j, hj, hdata⟩ := h.good.held i p y hy
      exact ⟨j, (htail _ _ _).mpr ⟨hj, fun _ => by exact_mod_cast hp⟩, hdata.trans hsame⟩
    · rw [hother i hi]
      exact (h.good.held i).of_stores fun p j _ hst => (hstores i hi p j).mpr hst
  · by_cases hi : i = slot
    · subst hi
      rw [inputs_setInputs hslot, hlen]
      have hslotLen := h.good.le_numCtx i
      cases numPast with
      | zero => omega
      | succ m =>
        obtain ⟨y, z, hy, -⟩ := h.same m (by omega)
        have := (List.getElem?_eq_some_iff.mp hy).1
        omega
    · rw [hother i hi]
      exact h.good.le_numCtx i
  · rw [inputs_setInputs hslot, hlen]
    exact ((htail _ _ _).mp hst).2 rfl
  · rw [inUse_setInputs]
    exact (inUse_modify_ne _ hi).trans (h.inUse i)

theorem numPast_le (ic : InputCache) (slot : Nat) (prompt : List Item) (cachePrompt : Bool)
    (n : Nat) : ic.numPast slot prompt cachePrompt n ≤ n := by
  unfold InputCache.numPast
  dsimp only
  split_ifs <;> omega

/-- A slot is loaded, or nothing is changed. -/
theorem loadCacheSlot_spec (h : Good cfg data ic) {prompt : List Item} {cachePrompt : Bool}
    {now now' : Int} {backend : Option KvError} {ic' : InputCache}
    {r : Except LoadError (Nat × List Item)}
    (hload : ic.loadCacheSlot cfg prompt cachePrompt now now' backend = some (ic', r)) :
    (∀ e, r = .error e → ic' = ic) ∧
      ∀ slot rest, r = .ok (slot, rest) → Loaded cfg data ic ic' slot := by
  unfold InputCache.loadCacheSlot at hload
  obtain ⟨found, hfound, hrest⟩ := Option.bind_eq_some_iff.mp hload
  clear hload
  cases found with
  | error e =>
    obtain ⟨rfl, rfl⟩ := Prod.mk.inj (Option.some.inj hrest)
    exact ⟨fun _ _ => rfl, fun _ _ hr => (by cases hr)⟩
  | ok found =>
    obtain ⟨ic₁, slot, n⟩ := found
    have hspec : Found cfg data ic ic₁ slot n prompt := by
      split at hfound
      · exact findLongest_found h (Option.some.inj hfound)
      · exact findBest_found h hfound
    dsimp only at hrest
    split at hrest
    · cases hrest
    have hle := numPast_le (ic₁.modify slot fun s => { s with inUse := true, lastUsed := now' })
      slot prompt cachePrompt n
    generalize InputCache.numPast _ slot prompt cachePrompt n = numPast at hle hrest
    have hok := hspec.good.cache.remove_ok slot numPast backend
    have hloaded := hspec.loaded hle now' backend
    cases hremove : ic₁.cache.remove slot numPast maxInt32 backend with
    | mk cache err =>
      rw [hremove] at hok hloaded
      obtain rfl : err = none := hok
      rw [cache_modify, hremove] at hrest
      obtain ⟨rfl, rfl⟩ := Prod.mk.inj (Option.some.inj hrest)
      refine ⟨fun _ hr => (by cases hr), fun slot' rest hr => ?_⟩
      obtain ⟨rfl, -⟩ := Prod.mk.inj (Except.ok.inj hr)
      exact hloaded

/-! ## The invariant -/

/-- The sequences have slots of their own. -/
structure Live (ic : InputCache) (seqs : List (Option Seq)) : Prop where
  inUse : ∀ (k : Nat) (q : Seq), seqs[k]? = some (some q) → ic.inUse q.slot = true
  distinct : ∀ (k k' : Nat) (q q' : Seq), seqs[k]? = some (some q) → seqs[k']? = some (some q') →
    q.slot = q'.slot → k = k'

/-- A sequence that is being processed. -/
structure SeqInv (cfg : Config) (data : Nat → Item) (ic : InputCache) (q : Seq) : Prop where
  held : Held ic.cache data q.slot (ic.inputs q.slot ++ q.pendingInputs)
  within : Within ic.cache q.slot ((ic.inputs q.slot).length + q.pendingInputs.length)
  le_numCtx : ((ic.inputs q.slot).length + q.pendingInputs.length : Int) ≤ cfg.numCtx

structure Inv (cfg : Config) (s : State) : Prop where
  good : Good cfg s.data s.ic
  live : Live s.ic s.seqs
  seqs : ∀ (k : Nat) (q : Seq), s.seqs[k]? = some (some q) → SeqInv cfg s.data s.ic q
  /-- Inputs are pending for the batch that was set up. -/
  pending : ∀ (k : Nat) (q : Seq), s.seqs[k]? = some (some q) → q.pendingInputs ≠ [] →
    ∃ taken, s.ready = some taken ∧ inBatch taken k q = true
  numCtx_le : cfg.numCtx ≤ maxInt32

theorem SeqInv.frame {ic' : InputCache} {q : Seq} (h : SeqInv cfg data ic q)
    (hinputs : ic'.inputs q.slot = ic.inputs q.slot)
    (hstores : ∀ p j, ic'.cache.Stores q.slot p j ↔ ic.cache.Stores q.slot p j) :
    SeqInv cfg data ic' q where
  held := by
    rw [hinputs]
    exact h.held.of_stores fun p j _ hst => (hstores p j).mpr hst
  within := by
    rw [hinputs]
    exact h.within.of_stores fun p j hst => (hstores p j).mp hst
  le_numCtx := by
    rw [hinputs]
    exact h.le_numCtx

/-! ## Requests -/

theorem get_set {seqs : List (Option Seq)} {i k : Nat} {o : Option Seq} {q : Seq}
    (h : (seqs.set i o)[k]? = some (some q)) :
    k = i ∧ o = some q ∨ k ≠ i ∧ seqs[k]? = some (some q) := by
  rw [List.getElem?_set] at h
  split at h
  · rename_i hik
    split at h
    · exact .inl ⟨hik.symm, Option.some.inj h⟩
    · cases h
  · exact .inr ⟨fun heq => ‹¬i = k› heq.symm, h⟩

theorem addSequence_inv {s s' : State} (h : Inv cfg s) {req : Request} {now now' : Int}
    {backend : Option KvError} (hstep : addSequence cfg req now now' backend s = some s') :
    Inv cfg s' := by
  unfold addSequence at hstep
  obtain ⟨i, hi, hstep⟩ := Option.bind_eq_some_iff.mp hstep
  obtain ⟨⟨ic, r⟩, hload, rfl⟩ := Option.map_eq_some_iff.mp hstep
  obtain ⟨hsame, hloaded⟩ := loadCacheSlot_spec h.good hload
  cases r with
  | error e =>
    rw [hsame e rfl]
    exact h
  | ok r =>
    obtain ⟨slot, inputs⟩ := r
    have hspec : Loaded cfg s.data s.ic ic slot := hloaded slot inputs rfl
    have hne : ∀ (k : Nat) (q : Seq), s.seqs[k]? = some (some q) → q.slot ≠ slot := by
      intro k q hq heq
      have huse := h.live.inUse k q hq
      rw [heq, hspec.free] at huse
      cases huse
    refine ⟨hspec.good, ⟨fun k q hq => ?_, fun k k' q q' hq hq' heq => ?_⟩, fun k q hq => ?_,
      fun k q hq hpending => ?_, h.numCtx_le⟩
    · rcases get_set hq with ⟨-, hnew⟩ | ⟨-, hold⟩
      · rw [← Option.some.inj hnew]
        exact hspec.inUse
      · rw [hspec.inUse_ne _ (hne k q hold)]
        exact h.live.inUse k q hold
    · rcases get_set hq with ⟨hk, hnew⟩ | ⟨-, hold⟩ <;>
        rcases get_set hq' with ⟨hk', hnew'⟩ | ⟨-, hold'⟩
      · rw [hk, hk']
      · rw [← Option.some.inj hnew] at heq
        exact absurd heq.symm (hne k' q' hold')
      · rw [← Option.some.inj hnew'] at heq
        exact absurd heq (hne k q hold)
      · exact h.live.distinct k k' q q' hold hold' heq
    · rcases get_set hq with ⟨-, hnew⟩ | ⟨-, hold⟩
      · rw [← Option.some.inj hnew]
        refine ⟨?_, ?_, ?_⟩
        · show Held ic.cache s.data slot (ic.inputs slot ++ [])
          rw [List.append_nil]
          exact hspec.good.held slot
        · exact hspec.within
        · show ((ic.inputs slot).length + ((0 : Nat) : Int) : Int) ≤ cfg.numCtx
          have := hspec.good.le_numCtx slot
          omega
      · exact (h.seqs k q hold).frame (hspec.inputs _ (hne k q hold)) (hspec.stores _ (hne k q hold))
    · rcases get_set hq with ⟨-, hnew⟩ | ⟨-, hold⟩
      · rw [← Option.some.inj hnew] at hpending
        exact absurd rfl hpending
      · exact h.pending k q hold hpending

/-! ## Shifts -/

/-- A slot that was changed together with its cells, which are those of its inputs. -/
structure Moved (cfg : Config) (data : Nat → Item) (ic ic' : InputCache) (slot : Nat) : Prop where
  good : Good cfg data ic'
  within : Within ic'.cache slot (ic'.inputs slot).length
  inUse : ∀ i, ic'.inUse i = ic.inUse i
  inputs : ∀ i, i ≠ slot → ic'.inputs i = ic.inputs i
  stores : ∀ i : Nat, i ≠ slot → ∀ p j, ic'.cache.Stores i p j ↔ ic.cache.Stores i p j

theorem moved_setInputs (h : Good cfg data ic) {s : Slot} (hget : ic.slots[slot]? = some s)
    {cache : Causal} (hcache : CacheOk cache) (hheld : Held cache data slot xs)
    (hwithin : Within cache slot xs.length) (hle : (xs.length : Int) ≤ cfg.numCtx)
    (hstores : ∀ i : Nat, i ≠ slot → ∀ p j, cache.Stores i p j ↔ ic.cache.Stores i p j) :
    Moved cfg data ic (({ ic with cache := cache } : InputCache).setInputs slot xs) slot := by
  have hinputs : (({ ic with cache := cache } : InputCache).setInputs slot xs).inputs slot = xs :=
    inputs_setInputs hget
  have hother : ∀ i, i ≠ slot →
      (({ ic with cache := cache } : InputCache).setInputs slot xs).inputs i = ic.inputs i :=
    fun i hi => inputs_modify_ne _ hi
  refine ⟨⟨hcache, fun i => ?_, fun i => ?_⟩, ?_, fun i => inUse_setInputs slot i xs, hother, hstores⟩
  · by_cases hi : i = slot
    · rw [hi, hinputs]
      exact hheld
    · rw [hother i hi]
      exact (h.held i).of_stores fun p j _ hst => (hstores i hi p j).mpr hst
  · by_cases hi : i = slot
    · rw [hi, hinputs]
      exact hle
    · rw [hother i hi]
      exact h.le_numCtx i
  · rw [hinputs]
    exact hwithin

theorem getElem?_kept (xs : List Item) (k d p : Nat) (hle : k + d ≤ xs.length) :
    (xs.take k ++ xs.drop (k + d))[p]? = if p < k then xs[p]? else xs[p + d]? := by
  have hlen : (xs.take k).length = k := List.length_take_of_le (by omega)
  split
  · rw [List.getElem?_append_left (by omega), List.getElem?_take_of_lt ‹_›]
  · rw [List.getElem?_append_right (by omega), hlen, List.getElem?_drop]
    congr 1
    omega

/-- Removing a part in the middle moves what follows, if it does not fail. -/
theorem CacheOk.remove_part (h : CacheOk c) {k d : Nat} (hd : 0 < d) (hle : (k + d : Int) ≤ maxInt32)
    {backend : Option KvError} (hok : (c.remove slot k (k + d) backend).2 = none) :
    CacheOk (c.remove slot k (k + d) backend).1 ∧
      ∀ p j, (c.remove slot k (k + d) backend).1.Stores slot p j ↔
        ∃ q, c.Stores slot q j ∧ (q < k ∧ p = q ∨ (k + d : Int) ≤ q ∧ p = q - d) := by
  have hstores : ∀ p j, (c.remove slot k (k + d) backend).1.Stores slot p j ↔
      ∃ q, c.Stores slot q j ∧ (q < k ∧ p = q ∨ (k + d : Int) ≤ q ∧ p = q - d) := by
    intro p j
    have hholds := @(causalCache backend).holds_remove c slot k (k + d) h.range (by omega)
      (by omega) hle (by
        show (c.remove slot k (k + d) backend).2.isSome = false
        rw [hok]
        rfl) p j
    refine hholds.trans (exists_congr fun q => and_congr_right fun _ => ?_)
    omega
  refine ⟨⟨remove_wf h.wf _ _ _ _, ?_, ?_, fun s p j j' hst hst' => ?_⟩, hstores⟩
  · rw [memory_eq_of_frame (remove_frame c _ _ _ _)]
    exact h.full
  · exact (causalCache backend).valid_remove (c := c) h.range (by omega) (by omega) hle
  · by_cases hs : s = slot
    · subst hs
      obtain ⟨q, hq, hp⟩ := (hstores p j).mp hst
      obtain ⟨q', hq', hp'⟩ := (hstores p j').mp hst'
      obtain rfl : q = q' := by omega
      exact h.distinct _ q j j' hq hq'
    · exact h.distinct s p j j' ((remove_stores_ne hs).mp hst) ((remove_stores_ne hs).mp hst')

/-- After a removal that failed, all of the sequence is removed. -/
theorem CacheOk.remove_failed (h : CacheOk c) {k d : Nat} (hle : (k + d : Int) ≤ maxInt32)
    (backend : Option KvError) :
    CacheOk ((c.remove slot k (k + d) backend).1.remove slot 0 maxInt32 backend).1 ∧
      (∀ p j, ¬((c.remove slot k (k + d) backend).1.remove slot 0 maxInt32 backend).1.Stores
        slot p j) ∧
      ∀ s, s ≠ (slot : Int) → ∀ p j,
        ((c.remove slot k (k + d) backend).1.remove slot 0 maxInt32 backend).1.Stores s p j ↔
          c.Stores s p j := by
  have hvalid : Positions IsPosition (c.remove slot k (k + d) backend).1 :=
    (causalCache backend).valid_remove (c := c) h.range (by omega) (by omega) hle
  have hgone := (@remove_all _ slot hvalid backend).2.1
  have hother : ∀ s, s ≠ (slot : Int) → ∀ p j,
      ((c.remove slot k (k + d) backend).1.remove slot 0 maxInt32 backend).1.Stores s p j ↔
        c.Stores s p j :=
    fun s hs p j => (remove_stores_ne hs).trans (remove_stores_ne hs)
  refine ⟨⟨remove_wf (remove_wf h.wf _ _ _ _) _ _ _ _, ?_, fun s p j hst => ?_,
    fun s p j j' hst hst' => ?_⟩, hgone, hother⟩
  · rw [memory_eq_of_frame (remove_frame _ _ _ _ _), memory_eq_of_frame (remove_frame c _ _ _ _)]
    exact h.full
  · by_cases hs : s = slot
    · exact absurd (hs ▸ hst) (hgone p j)
    · exact h.range s p j ((hother s hs p j).mp hst)
  · by_cases hs : s = slot
    · exact absurd (hs ▸ hst) (hgone p j)
    · exact h.distinct s p j j' ((hother s hs p j).mp hst) ((hother s hs p j').mp hst')

theorem remove_other {k d i : Nat} (hi : i ≠ slot) (backend : Option KvError) (p : Int) (j : Nat) :
    (c.remove slot k (k + d) backend).1.Stores i p j ↔ c.Stores i p j :=
  remove_stores_ne fun heq => hi (by exact_mod_cast heq)

/-- The inputs whose cells were removed are dropped. -/
theorem Good.shift (h : Good cfg data ic) {s : Slot} (hget : ic.slots[slot]? = some s)
    (hwithin : Within ic.cache slot (ic.inputs slot).length) {k d : Nat} (hd : 0 < d)
    (hle : k + d ≤ (ic.inputs slot).length) (hmax : (k + d : Int) ≤ maxInt32)
    {backend : Option KvError} {cache : Causal}
    (hremove : ic.cache.remove slot k (k + d) backend = (cache, none)) :
    Moved cfg data ic (({ ic with cache := cache } : InputCache).setInputs slot
      ((ic.inputs slot).take k ++ (ic.inputs slot).drop (k + d))) slot := by
  have hlen : ((ic.inputs slot).take k ++ (ic.inputs slot).drop (k + d)).length =
      (ic.inputs slot).length - d := by
    rw [List.length_append, List.length_take_of_le (by omega), List.length_drop]
    omega
  have hslotLen := h.le_numCtx slot
  obtain ⟨hcache, hstores⟩ := h.cache.remove_part hd hmax (by rw [hremove] :
    (ic.cache.remove slot k (k + d) backend).2 = none)
  have hother := fun i (hi : i ≠ slot) => @remove_other ic.cache slot k d i hi backend
  rw [hremove] at hcache hstores hother
  refine moved_setInputs h hget hcache (fun p x hx => ?_) (fun p j hst => ?_) (by omega) hother
  · rw [getElem?_kept _ _ _ _ hle] at hx
    split at hx
    · obtain ⟨j, hj, hsame⟩ := h.held slot p x hx
      exact ⟨j, (hstores p j).mpr ⟨p, hj, .inl ⟨by omega, rfl⟩⟩, hsame⟩
    · obtain ⟨j, hj, hsame⟩ := h.held slot _ x hx
      exact ⟨j, (hstores p j).mpr ⟨_, hj, .inr ⟨by push_cast; omega, by push_cast; omega⟩⟩, hsame⟩
  · obtain ⟨q, hq, hp⟩ := (hstores p j).mp hst
    have hlt := hwithin q j hq
    omega

/-- All inputs are dropped where the removal of some failed. -/
theorem Good.empty (h : Good cfg data ic) {s : Slot} (hget : ic.slots[slot]? = some s) {k d : Nat}
    (hmax : (k + d : Int) ≤ maxInt32) {backend err : Option KvError} {cache : Causal}
    (hremove : ic.cache.remove slot k (k + d) backend = (cache, err)) :
    Moved cfg data ic (({ ic with cache := (cache.remove slot 0 maxInt32 backend).1 } :
      InputCache).setInputs slot []) slot := by
  have hslotLen := h.le_numCtx slot
  obtain ⟨hcache, hgone, hother⟩ := @CacheOk.remove_failed _ slot h.cache k d hmax backend
  rw [hremove] at hcache hgone hother
  refine moved_setInputs h hget hcache held_nil (fun p j hst => absurd hst (hgone p j)) ?_
    fun i hi p j => hother i (fun heq => hi (by exact_mod_cast heq)) p j
  rw [List.length_nil]
  omega

/-- The slot has room for one input after a shift. -/
theorem shiftCacheSlot_spec (h : Good cfg data ic) (hmax : cfg.numCtx ≤ maxInt32) {s : Slot}
    (hget : ic.slots[slot]? = some s) (hwithin : Within ic.cache slot (ic.inputs slot).length)
    {W : Window Item} (hW : W.numCtx = cfg.numCtx) (backend : Option KvError) :
    match ic.shiftCacheSlot W slot backend with
    | .keepExceedsContext => True
    | .shifted ic' => Moved cfg data ic ic' slot ∧ ((ic'.inputs slot).length : Int) < cfg.numCtx
    | .reprocess ic' _ => Moved cfg data ic ic' slot ∧ ic'.inputs slot = [] := by
  have hslotLen := h.le_numCtx slot
  unfold InputCache.shiftCacheSlot
  dsimp only
  by_cases hkeep : W.numCtx ≤ W.numKeep
  · rw [if_pos hkeep]
    trivial
  rw [if_neg hkeep]
  by_cases hzero : W.discard (ic.inputs slot) ≤ 0
  · rw [if_pos hzero]
    refine ⟨⟨h, hwithin, fun _ => rfl, fun _ _ => rfl, fun _ _ _ _ => Iff.rfl⟩, ?_⟩
    have hlt := length_lt_of_shiftDiscard (not_le.mp hkeep)
      (show shiftDiscard W.numCtx ((ic.inputs slot).map W.input) W.numKeep = 0 by
        exact Nat.le_zero.mp hzero)
    rwa [List.length_map, hW] at hlt
  rw [if_neg hzero]
  have hd : 0 < W.discard (ic.inputs slot) := not_le.mp hzero
  have hle := Window.discard_le hd
  cases hremove : ic.cache.remove slot W.numKeep (W.numKeep + W.discard (ic.inputs slot))
    backend with
  | mk cache err =>
  cases err with
  | none =>
    have hinputs : (({ ic with cache := cache } : InputCache).setInputs slot
        (W.kept (ic.inputs slot))).inputs slot = W.kept (ic.inputs slot) := inputs_setInputs hget
    refine ⟨h.shift hget hwithin hd hle (by omega) hremove, ?_⟩
    rw [hinputs, Window.kept, List.length_append, List.length_take_of_le (by omega),
      List.length_drop]
    omega
  | some err => exact ⟨h.empty hget (by omega) hremove, inputs_setInputs hget⟩

/-! ## Setting up a batch -/

/-- A batch while it is set up. The cells are as they were, and what was taken from a sequence is
in the batch at the positions behind those of its slot. -/
structure BuildInv (cfg : Config) (data : Nat → Item) (b : Build) : Prop where
  good : Good cfg data b.ic
  live : Live b.ic b.seqs
  within : ∀ (k : Nat) (q : Seq), b.seqs[k]? = some (some q) →
    Within b.ic.cache q.slot (b.ic.inputs q.slot).length
  le_numCtx : ∀ (k : Nat) (q : Seq), b.seqs[k]? = some (some q) →
    ((b.ic.inputs q.slot).length + q.pendingInputs.length : Int) ≤ cfg.numCtx
  mem_batch : ∀ (k : Nat) (q : Seq), b.seqs[k]? = some (some q) → ∀ (p : Int) (x : Item),
    ((⟨q.slot, p⟩ : Token), x) ∈ b.batch ↔
      ∃ m : Nat, q.pendingInputs[m]? = some x ∧ p = (b.ic.inputs q.slot).length + m
  owner : ∀ e ∈ b.batch, ∃ (k : Nat) (q : Seq), b.seqs[k]? = some (some q) ∧ e.1.seq = q.slot
  nodup : (b.batch.map Prod.fst).Nodup
  pending : ∀ (k : Nat) (q : Seq), b.seqs[k]? = some (some q) → q.pendingInputs ≠ [] →
    inBatch b.taken k q = true
  numCtx_le : cfg.numCtx ≤ maxInt32

variable {b : Build} {q q' : Seq} {k : Nat}

theorem get_set_self {seqs : List (Option Seq)} {o : Option Seq} (h : seqs[i]? = some (some q)) :
    (seqs.set i o)[i]? = some o :=
  List.getElem?_set_self (List.getElem?_eq_some_iff.mp h).1

/-- The same sequence with other inputs, and other sequences in the batch. -/
theorem BuildInv.congr (h : BuildInv cfg data b) (hget : b.seqs[i]? = some (some q))
    (hslot : q'.slot = q.slot) (hpending : q'.pendingInputs = q.pendingInputs)
    {taken : List (Option Nat)} (htaken : ∀ (k : Nat) (u : Seq),
      (b.seqs.set i (some q'))[k]? = some (some u) → u.pendingInputs ≠ [] →
        inBatch taken k u = true) (resumeSeq : Option Nat) (spoiled : Bool) :
    BuildInv cfg data ⟨b.ic, b.seqs.set i (some q'), taken, b.batch, resumeSeq, spoiled⟩ := by
  have hold : ∀ (k : Nat) (u : Seq), (b.seqs.set i (some q'))[k]? = some (some u) →
      ∃ u₀, b.seqs[k]? = some (some u₀) ∧ u.slot = u₀.slot ∧
        u.pendingInputs = u₀.pendingInputs := by
    intro k u hu
    rcases get_set hu with ⟨rfl, hnew⟩ | ⟨-, hu⟩
    · rw [← Option.some.inj hnew]
      exact ⟨q, hget, hslot, hpending⟩
    · exact ⟨u, hu, rfl, rfl⟩
  refine ⟨h.good, ⟨fun k u hu => ?_, fun k k' u u' hu hu' heq => ?_⟩, fun k u hu => ?_,
    fun k u hu => ?_, fun k u hu p x => ?_, fun e he => ?_, h.nodup, htaken, h.numCtx_le⟩
  · obtain ⟨u₀, hu₀, hs, -⟩ := hold k u hu
    rw [hs]
    exact h.live.inUse k u₀ hu₀
  · obtain ⟨u₀, hu₀, hs, -⟩ := hold k u hu
    obtain ⟨u₁, hu₁, hs', -⟩ := hold k' u' hu'
    exact h.live.distinct k k' u₀ u₁ hu₀ hu₁ (by rw [← hs, ← hs', heq])
  · obtain ⟨u₀, hu₀, hs, -⟩ := hold k u hu
    rw [hs]
    exact h.within k u₀ hu₀
  · obtain ⟨u₀, hu₀, hs, hp⟩ := hold k u hu
    rw [hs, hp]
    exact h.le_numCtx k u₀ hu₀
  · obtain ⟨u₀, hu₀, hs, hp⟩ := hold k u hu
    rw [hs, hp]
    exact h.mem_batch k u₀ hu₀ p x
  · obtain ⟨k, u, hu, hs⟩ := h.owner e he
    by_cases hk : k = i
    · subst hk
      obtain rfl : q = u := by
        rw [hget] at hu
        simpa using hu
      exact ⟨k, q', get_set_self hget, hs.trans (congrArg Nat.cast hslot.symm)⟩
    · refine ⟨k, u, ?_, hs⟩
      rw [List.getElem?_set_ne (Ne.symm hk)]
      exact hu

/-- One more input of a sequence. -/
theorem BuildInv.add (h : BuildInv cfg data b) (hget : b.seqs[i]? = some (some q))
    (htaken : inBatch b.taken i q = true) (x : Item)
    (hle : ((b.ic.inputs q.slot).length + q.pendingInputs.length + 1 : Int) ≤ cfg.numCtx) :
    BuildInv cfg data { b with
      seqs := b.seqs.set i (some { q with pendingInputs := q.pendingInputs ++ [x] })
      batch := b.batch ++
        [(⟨q.slot, (b.ic.inputs q.slot).length + q.pendingInputs.length⟩, x)] } := by
  have hne : ∀ (k : Nat) (u : Seq), k ≠ i → b.seqs[k]? = some (some u) → u.slot ≠ q.slot :=
    fun k u hk hu heq => hk (h.live.distinct k i u q hu hget heq)
  have hnew : ∀ p y, ((⟨q.slot, p⟩ : Token), y) ∈ b.batch →
      p < (b.ic.inputs q.slot).length + q.pendingInputs.length := by
    intro p y hy
    obtain ⟨m, hm, rfl⟩ := (h.mem_batch i q hget p y).mp hy
    have := (List.getElem?_eq_some_iff.mp hm).1
    omega
  refine ⟨h.good, ⟨fun k u hu => ?_, fun k k' u u' hu hu' heq => ?_⟩, fun k u hu => ?_,
    fun k u hu => ?_, fun k u hu p y => ?_, fun e he => ?_, ?_, fun k u hu hpending => ?_,
    h.numCtx_le⟩
  · rcases get_set hu with ⟨-, hnew⟩ | ⟨-, hu⟩
    · rw [← Option.some.inj hnew]
      exact h.live.inUse i q hget
    · exact h.live.inUse k u hu
  · rcases get_set hu with ⟨hk, hnew⟩ | ⟨hk, hu⟩ <;>
      rcases get_set hu' with ⟨hk', hnew'⟩ | ⟨hk', hu'⟩
    · rw [hk, hk']
    · rw [← Option.some.inj hnew] at heq
      exact absurd heq.symm (hne k' u' hk' hu')
    · rw [← Option.some.inj hnew'] at heq
      exact absurd heq (hne k u hk hu)
    · exact h.live.distinct k k' u u' hu hu' heq
  · rcases get_set hu with ⟨-, hnew⟩ | ⟨-, hu⟩
    · rw [← Option.some.inj hnew]
      exact h.within i q hget
    · exact h.within k u hu
  · rcases get_set hu with ⟨-, hnew⟩ | ⟨-, hu⟩
    · rw [← Option.some.inj hnew]
      show ((b.ic.inputs q.slot).length + (q.pendingInputs ++ [x]).length : Int) ≤ cfg.numCtx
      rw [List.length_append, List.length_singleton]
      push_cast
      omega
    · exact h.le_numCtx k u hu
  · rw [List.mem_append, List.mem_singleton]
    rcases get_set hu with ⟨-, hq⟩ | ⟨hk, hu⟩
    · rw [← Option.some.inj hq]
      show ((⟨q.slot, p⟩ : Token), y) ∈ b.batch ∨ _ ↔
        ∃ m : Nat, (q.pendingInputs ++ [x])[m]? = some y ∧ p = (b.ic.inputs q.slot).length + m
      constructor
      · rintro (hy | heq)
        · obtain ⟨m, hm, rfl⟩ := (h.mem_batch i q hget p y).mp hy
          exact ⟨m, by rw [List.getElem?_append_left (List.getElem?_eq_some_iff.mp hm).1, hm], rfl⟩
        · obtain ⟨htoken, rfl⟩ := Prod.mk.inj heq
          obtain ⟨-, rfl⟩ := Token.mk.inj htoken
          exact ⟨q.pendingInputs.length, by simp, rfl⟩
      · rintro ⟨m, hm, rfl⟩
        rcases Nat.lt_or_ge m q.pendingInputs.length with hlt | hge
        · rw [List.getElem?_append_left hlt] at hm
          exact .inl ((h.mem_batch i q hget _ y).mpr ⟨m, hm, rfl⟩)
        · obtain ⟨hlt, hy⟩ := List.getElem?_eq_some_iff.mp hm
          rw [List.length_append, List.length_singleton] at hlt
          obtain rfl : m = q.pendingInputs.length := by omega
          rw [List.getElem_append_right (le_refl _)] at hy
          simp only [Nat.sub_self, List.getElem_cons_zero] at hy
          exact .inr (by rw [hy])
    · rw [← h.mem_batch k u hu p y]
      refine or_iff_left fun heq => hne k u hk hu ?_
      have htoken : (u.slot : Int) = q.slot := congrArg Token.seq (Prod.mk.inj heq).1
      exact_mod_cast htoken
  · rcases List.mem_append.mp he with he | he
    · obtain ⟨k, u, hu, hs⟩ := h.owner e he
      by_cases hk : k = i
      · subst hk
        obtain rfl : q = u := by
          rw [hget] at hu
          simpa using hu
        exact ⟨k, _, get_set_self hget, hs⟩
      · refine ⟨k, u, ?_, hs⟩
        rw [List.getElem?_set_ne (Ne.symm hk)]
        exact hu
    · rw [List.mem_singleton.mp he]
      exact ⟨i, _, get_set_self hget, rfl⟩
  · rw [List.map_append, List.map_singleton]
    refine List.nodup_append.mpr ⟨h.nodup, List.nodup_singleton _, fun t ht t' ht' heq => ?_⟩
    rw [List.mem_singleton.mp ht'] at heq
    obtain ⟨⟨token, y⟩, he, rfl⟩ := List.mem_map.mp ht
    obtain rfl : token = _ := heq
    have := hnew _ y he
    omega
  · rcases get_set hu with ⟨hk, hnew⟩ | ⟨-, hu⟩
    · rw [← Option.some.inj hnew, hk]
      exact htaken
    · exact h.pending k u hu hpending

/-- A slot of which nothing is in the batch is changed together with its cells. -/
theorem BuildInv.moved (h : BuildInv cfg data b) (hget : b.seqs[i]? = some (some q))
    (hpending : q.pendingInputs = []) {ic' : InputCache}
    (hmoved : Moved cfg data b.ic ic' q.slot) : BuildInv cfg data { b with ic := ic' } := by
  have hcases : ∀ (k : Nat) (u : Seq), b.seqs[k]? = some (some u) →
      u = q ∧ k = i ∨ u.slot ≠ q.slot := by
    intro k u hu
    by_cases heq : u.slot = q.slot
    · obtain rfl := h.live.distinct k i u q hu hget heq
      rw [hget] at hu
      exact .inl ⟨(by simpa using hu.symm), rfl⟩
    · exact .inr heq
  refine ⟨hmoved.good, ⟨fun k u hu => ?_, h.live.distinct⟩, fun k u hu => ?_, fun k u hu => ?_,
    fun k u hu p x => ?_, h.owner, h.nodup, h.pending, h.numCtx_le⟩
  · rw [hmoved.inUse]
    exact h.live.inUse k u hu
  · rcases hcases k u hu with ⟨rfl, -⟩ | hne
    · exact hmoved.within
    · rw [hmoved.inputs _ hne]
      exact (h.within k u hu).of_stores fun p j hst => (hmoved.stores _ hne p j).mp hst
  · rcases hcases k u hu with ⟨rfl, -⟩ | hne
    · have := hmoved.good.le_numCtx u.slot
      rw [hpending]
      simpa using this
    · rw [hmoved.inputs _ hne]
      exact h.le_numCtx k u hu
  · rcases hcases k u hu with ⟨rfl, -⟩ | hne
    · rw [h.mem_batch k u hu, hpending]
      simp
    · rw [hmoved.inputs _ hne]
      exact h.mem_batch k u hu p x

/-- A sequence of which nothing is in the batch is removed. -/
theorem BuildInv.remove (h : BuildInv cfg data b) (hget : b.seqs[i]? = some (some q))
    (hpending : q.pendingInputs = []) (resumeSeq : Option Nat) (spoiled : Bool) :
    BuildInv cfg data
      ⟨b.ic.modify q.slot fun s => { s with inUse := false }, b.seqs.set i none,
        b.taken.set i none, b.batch, resumeSeq, spoiled⟩ := by
  have hold : ∀ (k : Nat) (u : Seq), (b.seqs.set i none)[k]? = some (some u) →
      k ≠ i ∧ b.seqs[k]? = some (some u) ∧ u.slot ≠ q.slot := by
    intro k u hu
    rcases get_set hu with ⟨-, hnone⟩ | ⟨hk, hu⟩
    · cases hnone
    · exact ⟨hk, hu, fun heq => hk (h.live.distinct k i u q hu hget heq)⟩
  have hinputs : ∀ k, (b.ic.modify q.slot fun s => { s with inUse := false }).inputs k =
      b.ic.inputs k := by
    intro k
    by_cases hk : k = q.slot
    · subst hk
      obtain ⟨s, hs⟩ := get_of_inUse (h.live.inUse i q hget)
      exact (inputs_of_get (get_modify _ hs)).trans (inputs_of_get hs).symm
    · exact inputs_modify_ne _ hk
  refine ⟨⟨h.good.cache, fun k => ?_, fun k => ?_⟩, ⟨fun k u hu => ?_, fun k k' u u' hu hu' => ?_⟩,
    fun k u hu => ?_, fun k u hu => ?_, fun k u hu p x => ?_, fun e he => ?_, h.nodup,
    fun k u hu hne => ?_, h.numCtx_le⟩
  · rw [hinputs]
    exact h.good.held k
  · rw [hinputs]
    exact h.good.le_numCtx k
  · obtain ⟨-, hu, hne⟩ := hold k u hu
    rw [inUse_modify_ne _ hne]
    exact h.live.inUse k u hu
  · exact h.live.distinct k k' u u' (hold k u hu).2.1 (hold k' u' hu').2.1
  · rw [hinputs]
    exact h.within k u (hold k u hu).2.1
  · rw [hinputs]
    exact h.le_numCtx k u (hold k u hu).2.1
  · rw [hinputs]
    exact h.mem_batch k u (hold k u hu).2.1 p x
  · obtain ⟨k, u, hu, hs⟩ := h.owner e he
    refine ⟨k, u, ?_, hs⟩
    rw [List.getElem?_set_ne fun hk => ?_]
    · exact hu
    · subst hk
      obtain rfl : q = u := by
        rw [hget] at hu
        simpa using hu
      obtain ⟨⟨seq, p⟩, x⟩ := e
      obtain rfl : seq = q.slot := hs
      obtain ⟨m, hm, -⟩ := (h.mem_batch i q hget p x).mp he
      rw [hpending] at hm
      cases hm
  · obtain ⟨hk, hu, -⟩ := hold k u hu
    have htaken := h.pending k u hu hne
    unfold inBatch at htaken ⊢
    rw [List.getElem?_set_ne (Ne.symm hk)]
    exact htaken

/-! ## The loop over the inputs of a sequence -/

/-- The batch with what the loop has taken so far. -/
def view (b : Build) (i : Nat) (q : Seq) (st : Setup) : Build :=
  { b with
    ic := st.ic
    seqs := b.seqs.set i (some { q with pendingInputs := st.pendingInputs })
    batch := st.batch }

structure SetupInv (cfg : Config) (data : Nat → Item) (b : Build) (i : Nat) (q : Seq)
    (st : Setup) : Prop where
  build : BuildInv cfg data (view b i q st)
  inputs : st.skipped = false → st.inputs = q.inputs
  skipped : st.skipped = true → st.pendingInputs = []
  removed : st.removed = true → st.pendingInputs = []

theorem view_get (hget : b.seqs[i]? = some (some q)) (st : Setup) :
    (view b i q st).seqs[i]? = some (some { q with pendingInputs := st.pendingInputs }) :=
  get_set_self hget

theorem SetupInv.add {st : Setup} (h : SetupInv cfg data b i q st)
    (hget : b.seqs[i]? = some (some q)) (htaken : inBatch b.taken i q = true) {n : Nat}
    {inp : Item} (hinp : q.inputs[n]? = some inp) (hskipped : st.skipped = false)
    (hremoved : st.removed = false)
    (hle : ((st.ic.inputs q.slot).length + st.pendingInputs.length + 1 : Int) ≤ cfg.numCtx) :
    SetupInv cfg data b i q (st.add q.slot n inp) := by
  have hitem : st.inputs.getD n inp = inp := by
    rw [h.inputs hskipped, List.getD_eq_getElem?_getD, hinp]
    rfl
  have hadd := h.build.add (view_get hget st) htaken inp hle
  refine ⟨?_, h.inputs, fun hs => ?_, fun hr => ?_⟩
  · have hview : view b i q (st.add q.slot n inp) = { view b i q st with
        seqs := (view b i q st).seqs.set i
          (some { q with pendingInputs := st.pendingInputs ++ [inp] })
        batch := (view b i q st).batch ++
          [(⟨q.slot, (st.ic.inputs q.slot).length + st.pendingInputs.length⟩, inp)] } := by
      unfold view Setup.add
      rw [hitem, List.set_set]
    rw [hview]
    exact hadd
  · have hfalse : st.skipped = true := hs
    rw [hskipped] at hfalse
    cases hfalse
  · have hfalse : st.removed = true := hr
    rw [hremoved] at hfalse
    cases hfalse

theorem SetupInv.moved {st : Setup} (h : SetupInv cfg data b i q st)
    (hget : b.seqs[i]? = some (some q)) (hpending : st.pendingInputs = []) {ic' : InputCache}
    (hmoved : Moved cfg data st.ic ic' q.slot) :
    BuildInv cfg data (view b i q { st with ic := ic' }) :=
  h.build.moved (view_get hget st) hpending hmoved

/-- Once an input was added behind an emptied slot, that is not forgotten. -/
theorem spoiled_of_setupLoop {backend : Option KvError} (rest : List Item) (n : Nat)
    {st st' : Setup} (hloop : setupLoop cfg q backend n rest st = some st')
    (h : st'.spoiled = false) : st.spoiled = false := by
  induction rest generalizing n st with
  | nil =>
    rw [← Option.some.inj hloop] at h
    exact h
  | cons inp rest ih =>
    rw [setupLoop] at hloop
    dsimp only at hloop
    split at hloop
    · rw [← Option.some.inj hloop] at h
      exact h
    split at hloop
    · split at hloop
      · rw [← Option.some.inj hloop] at h
        exact h
      split at hloop
      · rw [← Option.some.inj hloop] at h
        exact h
      split at hloop
      · cases hloop
      · have hfalse := ih _ hloop
        exact hfalse
      · exact (Bool.or_eq_false_iff.mp (ih _ hloop)).1
    · exact (Bool.or_eq_false_iff.mp (ih _ hloop)).1

theorem setupLoop_inv {backend : Option KvError} (hget : b.seqs[i]? = some (some q))
    (htaken : inBatch b.taken i q = true) (rest : List Item) (n : Nat)
    (hrest : q.inputs.drop n = rest) {st st' : Setup} (h : SetupInv cfg data b i q st)
    (hremoved : st.removed = false) (hloop : setupLoop cfg q backend n rest st = some st')
    (hspoiled : st'.spoiled = false) : SetupInv cfg data b i q st' := by
  induction rest generalizing n st with
  | nil =>
    rw [← Option.some.inj hloop]
    exact h
  | cons inp rest ih =>
    have hinp : q.inputs[n]? = some inp := by
      have := congrArg List.head? hrest
      rwa [List.head?_drop] at this
    have hnext : q.inputs.drop (n + 1) = rest := by
      rw [← List.drop_drop, hrest, List.drop_one, List.tail_cons]
    have h' : SetupInv cfg data b i q { st with batchSize := max st.batchSize (1 + inp.sameBatch) } :=
      ⟨h.build, h.inputs, h.skipped, h.removed⟩
    -- an input is added only where the slot was not emptied before
    have hgo : ∀ {st₁ : Setup}, setupLoop cfg q backend (n + 1) rest (st₁.add q.slot n inp) =
        some st' → st₁.skipped = false := fun hadd =>
      (Bool.or_eq_false_iff.mp (spoiled_of_setupLoop rest (n + 1) hadd hspoiled)).2
    rw [setupLoop] at hloop
    dsimp only at hloop
    split at hloop
    · rw [← Option.some.inj hloop]
      exact ⟨h.build, h.inputs, h.skipped, h.removed⟩
    split at hloop
    · split at hloop
      · rw [← Option.some.inj hloop]
        exact h'
      rename_i hpending
      have hpending : st.pendingInputs = [] := not_not.mp hpending
      split at hloop
      · rw [← Option.some.inj hloop]
        exact ⟨h.build, h.inputs, fun _ => hpending, fun _ => hpending⟩
      obtain ⟨s, hs⟩ := get_of_inUse (h.build.live.inUse i _ (view_get hget st))
      have hspec := shiftCacheSlot_spec h.build.good h.build.numCtx_le hs
        (h.build.within i _ (view_get hget st)) (W := q.window cfg) rfl backend
      split at hloop
      · cases hloop
      · rename_i ic newInputs hshift
        rw [show (view b i q st).ic.shiftCacheSlot (q.window cfg) q.slot backend = _ from hshift]
          at hspec
        have hempty : SetupInv cfg data b i q { st with
            batchSize := max st.batchSize (1 + inp.sameBatch), ic := ic,
            inputs := newInputs ++ st.inputs, skipped := true } :=
          ⟨h.moved hget hpending hspec.1, fun hs => (by cases hs), fun _ => hpending,
            fun _ => hpending⟩
        exact ih (n + 1) hnext hempty hremoved hloop
      · rename_i ic hshift
        rw [show (view b i q st).ic.shiftCacheSlot (q.window cfg) q.slot backend = _ from hshift]
          at hspec
        obtain ⟨hmoved, hroom⟩ := hspec
        have hroom : ((ic.inputs q.slot).length : Int) < cfg.numCtx := hroom
        have hskipped := hgo hloop
        have hmovedInv : SetupInv cfg data b i q { st with
            batchSize := max st.batchSize (1 + inp.sameBatch), ic := ic } :=
          ⟨h'.moved hget hpending hmoved, h.inputs, h.skipped, h.removed⟩
        refine ih (n + 1) hnext (hmovedInv.add hget htaken hinp hskipped hremoved ?_) hremoved hloop
        show ((ic.inputs q.slot).length + st.pendingInputs.length + 1 : Int) ≤ cfg.numCtx
        rw [hpending, List.length_nil]
        omega
    · rename_i hroom
      have hskipped := hgo hloop
      refine ih (n + 1) hnext (h'.add hget htaken hinp hskipped hremoved ?_) hremoved hloop
      show ((st.ic.inputs q.slot).length + st.pendingInputs.length + 1 : Int) ≤ cfg.numCtx
      push_cast at hroom
      omega

/-! ## The loop over the sequences -/

theorem spoiled_of_buildSeq {backend : Option KvError} {b' : Build}
    (hstep : buildSeq cfg backend b i = some b') (h : b'.spoiled = false) : b.spoiled = false := by
  unfold buildSeq at hstep
  split at hstep
  · obtain ⟨st, hloop, rfl⟩ := Option.map_eq_some_iff.mp hstep
    have hfalse := spoiled_of_setupLoop _ 0 hloop h
    exact hfalse
  · rw [Option.some.inj hstep]
    exact h

/-- The round for a sequence that has not had its turn. -/
theorem buildSeq_inv {backend : Option KvError} {b' : Build} (h : BuildInv cfg data b)
    (hturn : ∀ q : Seq, b.seqs[i]? = some (some q) → inBatch b.taken i q = true ∧
      q.pendingInputs = [])
    (hstep : buildSeq cfg backend b i = some b') (hspoiled : b'.spoiled = false) :
    BuildInv cfg data b' ∧ ∀ k, k ≠ i → b'.seqs[k]? = b.seqs[k]? ∧ b'.taken[k]? = b.taken[k]? := by
  unfold buildSeq at hstep
  split at hstep
  · rename_i q hget
    obtain ⟨st, hloop, rfl⟩ := Option.map_eq_some_iff.mp hstep
    obtain ⟨htaken, hnone⟩ := hturn q hget
    have hstart : SetupInv cfg data b i q (startSetup cfg b q) := by
      refine ⟨h.congr hget rfl rfl (fun k u hu hne => ?_) b.resumeSeq b.spoiled, fun _ => rfl,
        fun hs => (by cases hs), fun hr => (by cases hr)⟩
      rcases get_set hu with ⟨-, hnew⟩ | ⟨-, hu⟩
      · rw [← Option.some.inj hnew] at hne
        exact absurd hnone hne
      · exact h.pending k u hu hne
    have hinv := setupLoop_inv hget htaken q.inputs 0 rfl hstart rfl hloop hspoiled
    refine ⟨?_, fun k hk => ⟨?_, ?_⟩⟩
    · cases hremoved : st.removed with
      | true =>
        have hremove := hinv.build.remove (view_get hget st) (hinv.removed hremoved)
          (b.resumeSeq.or (if st.stalled = true then some i else none)) st.spoiled
        unfold endSetup
        rw [hremoved, if_pos rfl, if_pos rfl, if_pos (.inr rfl)]
        unfold view at hremove
        rw [List.set_set] at hremove
        exact hremove
      | false =>
        have hcongr := @BuildInv.congr _ _ _ _ _
          { q with
            inputs := st.inputs.drop st.pendingInputs.length, pendingInputs := st.pendingInputs }
          hinv.build (view_get hget st) rfl rfl
          (if st.skipped = true then b.taken.set i none else b.taken) (fun k u hu hne => ?_)
          (b.resumeSeq.or (if st.stalled = true then some i else none)) st.spoiled
        · unfold endSetup
          rw [hremoved, if_neg Bool.false_ne_true, if_neg Bool.false_ne_true]
          unfold view at hcongr
          rw [List.set_set] at hcongr
          simp only [Bool.false_eq_true, or_false]
          exact hcongr
        · rcases get_set hu with ⟨hk, hnew⟩ | ⟨hk, hu'⟩
          · have hpending : st.pendingInputs ≠ [] := by
              rw [← Option.some.inj hnew] at hne
              exact hne
            rw [if_neg fun hs => hpending (hinv.skipped hs), ← Option.some.inj hnew, hk]
            exact htaken
          · have hin := hinv.build.pending k u hu' hne
            unfold inBatch at hin ⊢
            split
            · rw [List.getElem?_set_ne (Ne.symm hk)]
              exact hin
            · exact hin
    · unfold endSetup
      exact List.getElem?_set_ne (Ne.symm hk)
    · unfold endSetup
      dsimp only
      split
      · exact List.getElem?_set_ne (Ne.symm hk)
      · rfl
  · rw [← Option.some.inj hstep]
    exact ⟨h, fun k _ => ⟨rfl, rfl⟩⟩

theorem build_inv {backend : Option KvError} (is : List Nat) (hnodup : is.Nodup) {b' : Build}
    (h : BuildInv cfg data b)
    (hturn : ∀ k ∈ is, ∀ q : Seq, b.seqs[k]? = some (some q) → inBatch b.taken k q = true ∧
      q.pendingInputs = [])
    (hbuild : is.foldlM (buildSeq cfg backend) b = some b') (hspoiled : b'.spoiled = false) :
    BuildInv cfg data b' ∧ b.spoiled = false := by
  induction is generalizing b with
  | nil =>
    obtain rfl := Option.some.inj hbuild
    exact ⟨h, hspoiled⟩
  | cons i is ih =>
    obtain ⟨hi, hnodup⟩ := List.nodup_cons.mp hnodup
    rw [List.foldlM_cons] at hbuild
    obtain ⟨b₁, hstep, hrest⟩ := Option.bind_eq_some_iff.mp hbuild
    -- the flag is looked at from the end
    have hlater : ∀ (is : List Nat) {b₁ : Build},
        is.foldlM (buildSeq cfg backend) b₁ = some b' → b₁.spoiled = false := by
      intro is
      induction is with
      | nil =>
        intro b₁ hfold
        rw [Option.some.inj hfold]
        exact hspoiled
      | cons k is ih =>
        intro b₁ hfold
        rw [List.foldlM_cons] at hfold
        obtain ⟨b₂, hstep, hfold⟩ := Option.bind_eq_some_iff.mp hfold
        exact spoiled_of_buildSeq hstep (ih hfold)
    have hspoiled₁ := hlater is hrest
    obtain ⟨hinv, hframe⟩ := buildSeq_inv h (hturn i List.mem_cons_self) hstep hspoiled₁
    refine ⟨(ih hnodup hinv (fun k hk q hq => ?_) hrest).1, spoiled_of_buildSeq hstep hspoiled₁⟩
    obtain ⟨hseqs, htaken⟩ := hframe k fun heq => hi (heq ▸ hk)
    rw [hseqs] at hq
    obtain ⟨hin, hnone⟩ := hturn k (List.mem_cons_of_mem _ hk) q hq
    refine ⟨?_, hnone⟩
    unfold inBatch at hin ⊢
    rw [htaken]
    exact hin

theorem order_nodup (s : State) : (order s).Nodup := by
  refine List.Nodup.map_on (fun k hk k' hk' heq => ?_) List.nodup_range
  have hmod : k % s.seqs.length = k' % s.seqs.length := Nat.ModEq.add_left_cancel' s.nextSeq heq
  rwa [Nat.mod_eq_of_lt (List.mem_range.mp hk), Nat.mod_eq_of_lt (List.mem_range.mp hk')] at hmod

theorem Inv.startBuild {s : State} (h : Inv cfg s) (hready : s.ready = none) :
    BuildInv cfg s.data (startBuild s) ∧ ∀ (k : Nat) (q : Seq), s.seqs[k]? = some (some q) →
      inBatch (startBuild s).taken k q = true ∧ q.pendingInputs = [] := by
  have hnone : ∀ (k : Nat) (q : Seq), s.seqs[k]? = some (some q) → q.pendingInputs = [] := by
    intro k q hq
    by_contra hne
    obtain ⟨taken, htaken, -⟩ := h.pending k q hq hne
    rw [hready] at htaken
    cases htaken
  refine ⟨⟨h.good, h.live, fun k q hq => ?_, fun k q hq => (h.seqs k q hq).le_numCtx,
    fun k q hq p x => ?_, fun e he => absurd he List.not_mem_nil, List.nodup_nil,
    fun k q hq hne => absurd (hnone k q hq) hne, h.numCtx_le⟩, fun k q hq => ⟨?_, hnone k q hq⟩⟩
  · have hwithin := (h.seqs k q hq).within
    rw [hnone k q hq] at hwithin
    exact hwithin
  · rw [hnone k q hq]
    simp [Server.startBuild]
  · unfold inBatch Server.startBuild
    rw [List.getElem?_map, hq]
    simp

/-! ## A batch that is stored -/

theorem written_of_get {items : List Item} {locs : List Nat} (hnodup : locs.Nodup) {m j : Nat}
    {x : Item} (hx : items[m]? = some x) (hj : locs[m]? = some j) :
    written data items locs j = x := by
  unfold written
  have hmem : (x, j) ∈ items.zip locs := by
    refine List.mem_iff_getElem?.mpr ⟨m, ?_⟩
    rw [List.getElem?_zip_eq_some]
    exact ⟨hx, hj⟩
  cases hfind : (items.zip locs).find? fun e => e.2 == j with
  | none =>
    have := List.find?_eq_none.mp hfind (x, j) hmem
    simp at this
  | some e =>
    obtain ⟨m', he⟩ := List.mem_iff_getElem?.mp (List.mem_of_find?_eq_some hfind)
    rw [List.getElem?_zip_eq_some] at he
    have heq : e.2 = j := by simpa using List.find?_some hfind
    have hm : m' = m := by
      rw [heq] at he
      exact (List.getElem?_inj (List.getElem?_eq_some_iff.mp he.2).1 hnodup).mp
        (he.2.trans hj.symm)
    rw [hm] at he
    exact Option.some.inj (he.1.symm.trans hx)

theorem written_of_not_mem {items : List Item} {locs : List Nat} {j : Nat} (h : j ∉ locs) :
    written data items locs j = data j := by
  unfold written
  cases hfind : (items.zip locs).find? fun e => e.2 == j with
  | none => rfl
  | some e =>
    have heq : e.2 = j := by simpa using List.find?_some hfind
    exact absurd (heq ▸ (List.of_mem_zip (List.mem_of_find?_eq_some hfind)).2) h

/-- The cells of a batch, and what they hold. -/
structure BatchStored (data : Nat → Item) (b : Build) (cache : Causal) (data' : Nat → Item) :
    Prop where
  ok : CacheOk cache
  /-- nothing is lost -/
  old : ∀ s p j, b.ic.cache.Stores s p j → cache.Stores s p j ∧ data' j = data j
  new : ∀ t x, (t, x) ∈ b.batch → ∃ j, cache.Stores t.seq t.pos j ∧ data' j = x
  cases : ∀ s p j, cache.Stores s p j → b.ic.cache.Stores s p j ∨ ∃ x, (⟨s, p⟩, x) ∈ b.batch

theorem BuildInv.stored (h : BuildInv cfg data b) (hne : b.batch ≠ []) {cache : Causal}
    (hforward : b.ic.cache.startForward (b.batch.map Prod.fst)
      (b.ic.cache.withBatch (b.batch.map Prod.fst)).lowestPos.keys false = (cache, none)) :
    BatchStored data b cache (written data (b.batch.map Prod.snd) cache.curLoc) := by
  have hfull := h.good.cache.full
  have horder : b.ic.cache.IsOrder (b.batch.map Prod.fst)
      (b.ic.cache.withBatch (b.batch.map Prod.fst)).lowestPos.keys := .refl _
  have hevicted : ∀ s p, ¬(b.ic.cache.withBatch (b.batch.map Prod.fst)).Evicted s p :=
    fun s p hev => hev.1 hfull
  have hwf := startForward_wf h.good.cache.wf horder
  rw [hforward] at hwf
  rcases startForward_cases h.good.cache.wf.covered h.good.cache.wf.ranges horder with
    ⟨c', heq, -, -⟩ | ⟨locs, c', heq, hst⟩
  · rw [heq] at hforward
    cases (Prod.mk.inj hforward).2
  rw [heq] at hforward
  obtain rfl := (Prod.mk.inj hforward).1
  have hlen : locs.length = b.batch.length := by
    have := hst.length (by simpa using hne)
    rwa [List.length_map] at this
  have hnodup : locs.Nodup := by
    have := hst.nodup
    rwa [List.map_snd_zip (by rw [List.length_map]; omega)] at this
  -- the entry at an index is stored in the cell at that index
  have hentry : ∀ (m : Nat) (t : Token) (x : Item) (j : Nat), b.batch[m]? = some (t, x) →
      locs[m]? = some j → c'.Stores t.seq t.pos j ∧
        written data (b.batch.map Prod.snd) locs j = x := by
    intro m t x j hm hj
    refine ⟨(hst.stores _ _ _).mpr (.inr (List.mem_iff_getElem?.mpr ⟨m, ?_⟩)), ?_⟩
    · rw [List.getElem?_zip_eq_some, List.getElem?_map, hm]
      exact ⟨rfl, hj⟩
    · refine written_of_get hnodup ?_ hj
      rw [List.getElem?_map, hm]
      rfl
  have hfree : ∀ s p j, b.ic.cache.Stores s p j → j ∉ locs := by
    intro s p j hold hmem
    obtain ⟨m, hm⟩ := List.mem_iff_getElem?.mp hmem
    have hlt : m < (b.batch.map Prod.fst).length := by
      rw [List.length_map, ← hlen]
      exact (List.getElem?_eq_some_iff.mp hm).1
    refine hevicted s p ((hst.free ((b.batch.map Prod.fst).get ⟨m, hlt⟩, j) ?_).2 s p hold)
    refine List.mem_iff_getElem?.mpr ⟨m, ?_⟩
    rw [List.getElem?_zip_eq_some]
    exact ⟨List.getElem?_eq_getElem hlt, hm⟩
  have hold : ∀ s p j, b.ic.cache.Stores s p j → c'.Stores s p j := fun s p j hst' =>
    (hst.stores s p j).mpr (.inl ⟨hst', hevicted s p⟩)
  have hcases : ∀ s p j, c'.Stores s p j →
      b.ic.cache.Stores s p j ∨ ((⟨s, p⟩ : Token), j) ∈ (b.batch.map Prod.fst).zip locs :=
    fun s p j hst' => ((hst.stores s p j).mp hst').imp_left And.left
  have hposition : ∀ (s p : Int) (j : Nat), ((⟨s, p⟩ : Token), j) ∈ (b.batch.map Prod.fst).zip locs →
      IsPosition p ∧ ∀ j', ¬b.ic.cache.Stores s p j' := by
    intro s p j hz
    obtain ⟨⟨t, x⟩, he, rfl⟩ := List.mem_map.mp (List.of_mem_zip hz).1
    obtain ⟨k, q, hq, hs⟩ := h.owner _ he
    obtain rfl : s = q.slot := hs
    obtain ⟨m, hm, rfl⟩ := (h.mem_batch k q hq p x).mp he
    have hlt := (List.getElem?_eq_some_iff.mp hm).1
    have hle := h.le_numCtx k q hq
    have hmax := h.numCtx_le
    refine ⟨⟨by omega, by omega⟩, fun j' hst' => ?_⟩
    have := h.within k q hq _ j' hst'
    omega
  have hlocs : ({ c' with curLoc := locs } : Causal).buildMask.curLoc = locs := rfl
  rw [hlocs]
  refine ⟨⟨hwf, ?_, fun s p j hst' => ?_, fun s p j j' hj hj' => ?_⟩,
    fun s p j hst' => ⟨hold s p j hst', written_of_not_mem (hfree s p j hst')⟩,
    fun t x he => ?_, fun s p j hst' => ?_⟩
  · exact (memory_eq_of_frame hst.frame).trans hfull
  · rcases hcases s p j hst' with hst' | hz
    · exact h.good.cache.range s p j hst'
    · exact (hposition s p j hz).1
  · rcases hcases s p j hj with hj | hz <;> rcases hcases s p j' hj' with hj' | hz'
    · exact h.good.cache.distinct s p j j' hj hj'
    · exact absurd hj ((hposition s p j' hz').2 j)
    · exact absurd hj' ((hposition s p j hz).2 j')
    · exact zip_unique h.nodup hz hz'
  · obtain ⟨m, hm⟩ := List.mem_iff_getElem?.mp he
    have hlt : m < locs.length := hlen ▸ (List.getElem?_eq_some_iff.mp hm).1
    exact ⟨_, hentry m t x _ hm (List.getElem?_eq_getElem hlt)⟩
  · refine (hcases s p j hst').imp_right fun hz => ?_
    obtain ⟨⟨t, x⟩, he, heq⟩ := List.mem_map.mp (List.of_mem_zip hz).1
    obtain rfl : t = _ := heq
    exact ⟨x, he⟩

theorem forwardBatch_inv {s s' : State} (h : Inv cfg s) (hready : s.ready = none)
    {backend : Option KvError} (hok : StepOk cfg s (.forward backend))
    (hstep : forwardBatch cfg backend s = some s') : Inv cfg s' := by
  unfold forwardBatch at hstep
  obtain ⟨b, hbuild, hrest⟩ := Option.bind_eq_some_iff.mp hstep
  obtain ⟨hstart, hturn⟩ := h.startBuild hready
  obtain ⟨hb, -⟩ := build_inv (order s) (order_nodup s) hstart (fun k _ q hq => hturn k q hq) hbuild
    (hok b hbuild).1
  clear hstep
  dsimp only at hrest
  split at hrest
  · rename_i hempty
    have hnone : ∀ (k : Nat) (q : Seq), b.seqs[k]? = some (some q) → q.pendingInputs = [] := by
      intro k q hq
      by_contra hne
      obtain ⟨x, rest, hx⟩ := List.exists_cons_of_ne_nil hne
      have hmem := (hb.mem_batch k q hq ((b.ic.inputs q.slot).length + (0 : Nat)) x).mpr
        ⟨0, by rw [hx]; rfl, rfl⟩
      rw [hempty] at hmem
      cases hmem
    rw [← Option.some.inj hrest]
    refine ⟨hb.good, hb.live, fun k q hq => ⟨?_, ?_, hb.le_numCtx k q hq⟩,
      fun k q hq hne => absurd (hnone k q hq) hne, hb.numCtx_le⟩
    · rw [hnone k q hq, List.append_nil]
      exact hb.good.held q.slot
    · rw [hnone k q hq]
      exact hb.within k q hq
  · rename_i hne
    split at hrest
    · cases hrest
    rename_i cache hforward
    have hstored := hb.stored hne hforward
    rw [← Option.some.inj hrest]
    have hheld : ∀ slot, Held cache (written s.data (b.batch.map Prod.snd) cache.curLoc) slot
        (b.ic.inputs slot) := by
      intro slot p x hx
      obtain ⟨j, hj, hsame⟩ := hb.good.held slot p x hx
      obtain ⟨hst, hdata⟩ := hstored.old _ _ _ hj
      exact ⟨j, hst, hdata ▸ hsame⟩
    refine ⟨⟨hstored.ok, hheld, hb.good.le_numCtx⟩, ⟨hb.live.inUse, hb.live.distinct⟩,
      fun k q hq => ⟨fun p x hx => ?_, fun p j hst => ?_, hb.le_numCtx k q hq⟩,
      fun k q hq hpending => ⟨b.taken, rfl, hb.pending k q hq hpending⟩, hb.numCtx_le⟩
    · have hx' : (b.ic.inputs q.slot ++ q.pendingInputs)[p]? = some x := hx
      rcases Nat.lt_or_ge p (b.ic.inputs q.slot).length with hlt | hge
      · rw [List.getElem?_append_left hlt] at hx'
        exact hheld q.slot p x hx'
      · rw [List.getElem?_append_right hge] at hx'
        obtain ⟨j, hj, hdata⟩ := hstored.new ⟨q.slot, (p : Int)⟩ x
          ((hb.mem_batch k q hq p x).mpr ⟨_, hx', by omega⟩)
        exact ⟨j, hj, hdata ▸ ⟨rfl, rfl⟩⟩
    · show p < ((b.ic.inputs q.slot).length + q.pendingInputs.length : Nat)
      rcases hstored.cases _ _ _ hst with hold | ⟨x, he⟩
      · have := hb.within k q hq p j hold
        omega
      · obtain ⟨m, hm, rfl⟩ := (hb.mem_batch k q hq p x).mp he
        have := (List.getElem?_eq_some_iff.mp hm).1
        omega

/-! ## The two sections of `computeBatch` -/

/-- Each slot is changed by its own sequence only. -/
theorem editSlots_get {edit : Nat → Seq → Option (Slot → Slot)} (es : List (Option Seq × Nat))
    (hdistinct : es.Pairwise fun e e' => ∀ q ∈ e.1, ∀ q' ∈ e'.1, q.slot ≠ q'.slot)
    (ic : InputCache) :
    let ic' := es.foldl (fun ic e =>
      match e.1 with
      | some q => ((edit e.2 q).map (ic.modify q.slot)).getD ic
      | none => ic) ic
    ic'.cache = ic.cache ∧
      (∀ e ∈ es, ∀ q ∈ e.1, ic'.slots[q.slot]? =
        (ic.slots[q.slot]?).map ((edit e.2 q).getD id)) ∧
      ∀ i, (∀ e ∈ es, ∀ q ∈ e.1, q.slot ≠ i) → ic'.slots[i]? = ic.slots[i]? := by
  induction es generalizing ic with
  | nil => exact ⟨rfl, fun e he => absurd he List.not_mem_nil, fun _ _ => rfl⟩
  | cons e es ih =>
    obtain ⟨hhead, hdistinct⟩ := List.pairwise_cons.mp hdistinct
    intro ic'
    have hstep : ∀ ic₁ : InputCache, (match e.1 with
        | some q => ((edit e.2 q).map (ic.modify q.slot)).getD ic
        | none => ic) = ic₁ → ic₁.cache = ic.cache ∧
        (∀ q ∈ e.1, ic₁.slots[q.slot]? = (ic.slots[q.slot]?).map ((edit e.2 q).getD id)) ∧
        ∀ i, (∀ q ∈ e.1, q.slot ≠ i) → ic₁.slots[i]? = ic.slots[i]? := by
      rintro ic₁ rfl
      cases ho : e.1 with
      | none => exact ⟨rfl, fun q hq => (by cases hq), fun _ _ => rfl⟩
      | some q =>
        dsimp only
        cases hedit : edit e.2 q with
        | none =>
          refine ⟨rfl, fun q' hq' => ?_, fun _ _ => rfl⟩
          obtain rfl := Option.some.inj hq'
          rw [hedit]
          exact Option.map_id_fun'.symm ▸ rfl
        | some f =>
          refine ⟨rfl, fun q' hq' => ?_, fun i hi => get_modify_ne f (Ne.symm (hi q rfl))⟩
          obtain rfl := Option.some.inj hq'
          rw [hedit]
          exact List.getElem?_modify_eq ..
    obtain ⟨hcache₁, hget₁, hother₁⟩ := hstep _ rfl
    obtain ⟨hcache, hget, hother⟩ := ih hdistinct (match e.1 with
      | some q => ((edit e.2 q).map (ic.modify q.slot)).getD ic
      | none => ic)
    refine ⟨hcache.trans hcache₁, fun e' he' q hq => ?_, fun i hi => ?_⟩
    · rcases List.mem_cons.mp he' with rfl | he'
      · exact (hother q.slot fun e' he' q' hq' heq => hhead e' he' q hq q' hq' heq.symm).trans
          (hget₁ q hq)
      · have hslot := hother₁ q.slot fun q' hq' heq => hhead e' he' q' hq' q hq heq
        exact (hget e' he' q hq).trans (congrArg (Option.map ((edit e'.2 q).getD id)) hslot)
    · exact (hother i fun e' he' => hi e' (List.mem_cons_of_mem _ he')).trans
        (hother₁ i (hi e List.mem_cons_self))

/-- The slots after a change, for sequences that have slots of their own. -/
structure Edited (edit : Nat → Seq → Option (Slot → Slot)) (seqs : List (Option Seq))
    (ic ic' : InputCache) : Prop where
  cache : ic'.cache = ic.cache
  get : ∀ (k : Nat) (q : Seq), seqs[k]? = some (some q) →
    ∃ s, ic.slots[q.slot]? = some s ∧ ic'.slots[q.slot]? = some ((edit k q).getD id s)
  other : ∀ i, (∀ (k : Nat) (q : Seq), seqs[k]? = some (some q) → q.slot ≠ i) →
    ic'.slots[i]? = ic.slots[i]?

theorem Live.edited {seqs : List (Option Seq)} (h : Live ic seqs)
    (edit : Nat → Seq → Option (Slot → Slot)) : Edited edit seqs ic (editSlots edit seqs ic) := by
  have hmem : ∀ {e : Option Seq × Nat}, e ∈ seqs.zipIdx → seqs[e.2]? = some e.1 := fun {e} he =>
    List.mem_zipIdx_iff_getElem?.mp he
  have hdistinct : seqs.zipIdx.Pairwise fun e e' =>
      ∀ q ∈ e.1, ∀ q' ∈ e'.1, q.slot ≠ q'.slot := by
    refine List.pairwise_iff_getElem.mpr fun i j hi hj hij q hq q' hq' heq => ?_
    rw [List.getElem_zipIdx] at hq hq'
    rw [List.length_zipIdx] at hi hj
    have hk := h.distinct i j q q' (by rw [List.getElem?_eq_getElem hi]; exact congrArg some hq)
      (by rw [List.getElem?_eq_getElem hj]; exact congrArg some hq') heq
    omega
  obtain ⟨hcache, hget, hother⟩ := @editSlots_get edit seqs.zipIdx hdistinct ic
  refine ⟨hcache, fun k q hq => ?_, fun i hi => hother i fun e he q hq => ?_⟩
  · obtain ⟨s, hs⟩ := get_of_inUse (h.inUse k q hq)
    refine ⟨s, hs, ?_⟩
    have hnew := hget (some q, k) (List.mem_zipIdx_iff_getElem?.mpr hq) q rfl
    rw [hs] at hnew
    exact hnew
  · exact hi e.2 q ((hmem he).trans (congrArg some hq))

/-- Slots that are changed in place, for the sequences that are left. -/
theorem Edited.good {edit : Nat → Seq → Option (Slot → Slot)} {seqs : List (Option Seq)}
    {ic' : InputCache} (h : Good cfg data ic) (he : Edited edit seqs ic ic')
    (hedit : ∀ (k : Nat) (q : Seq), seqs[k]? = some (some q) →
      Held ic.cache data q.slot (ic'.inputs q.slot) ∧
        ((ic'.inputs q.slot).length : Int) ≤ cfg.numCtx) : Good cfg data ic' := by
  have hcases : ∀ i, Held ic.cache data i (ic'.inputs i) ∧
      ((ic'.inputs i).length : Int) ≤ cfg.numCtx := by
    intro i
    by_cases hi : ∃ (k : Nat) (q : Seq), seqs[k]? = some (some q) ∧ q.slot = i
    · obtain ⟨k, q, hq, rfl⟩ := hi
      exact hedit k q hq
    · have hsame : ic'.inputs i = ic.inputs i := by
        rw [InputCache.inputs, he.other i fun k q hq heq => hi ⟨k, q, hq, heq⟩, InputCache.inputs]
      rw [hsame]
      exact ⟨h.held i, h.le_numCtx i⟩
  refine ⟨he.cache.symm ▸ h.cache, fun i => ?_, fun i => (hcases i).2⟩
  rw [he.cache]
  exact (hcases i).1

theorem get_mapIdx {α : Type*} {seqs : List α} {f : Nat → α → Option Seq} (k : Nat) {u : Seq}
    (h : (seqs.mapIdx f)[k]? = some (some u)) : ∃ o, seqs[k]? = some o ∧ f k o = some u := by
  rw [List.getElem?_mapIdx] at h
  exact Option.map_eq_some_iff.mp h

theorem beginCompute_inv {s : State} (h : Inv cfg s) {taken : List (Option Nat)}
    (hready : s.ready = some taken) (token : Nat → Item) : Inv cfg (beginCompute taken token s) := by
  have he := h.live.edited (commit taken)
  have hinputs : ∀ (k : Nat) (q : Seq), s.seqs[k]? = some (some q) →
      (editSlots (commit taken) s.seqs s.ic).inputs q.slot =
        s.ic.inputs q.slot ++ (if inBatch taken k q = true then q.pendingInputs else []) := by
    intro k q hq
    obtain ⟨sl, hsl, hnew⟩ := he.get k q hq
    rw [inputs_of_get hnew, inputs_of_get hsl, commit]
    split
    · rfl
    · exact (List.append_nil _).symm
  -- what is pending and not in the batch is nothing
  have hall : ∀ (k : Nat) (q : Seq), s.seqs[k]? = some (some q) →
      (editSlots (commit taken) s.seqs s.ic).inputs q.slot =
        s.ic.inputs q.slot ++ q.pendingInputs ∧ (beginSeq taken token k q).pendingInputs = [] := by
    intro k q hq
    rw [hinputs k q hq, beginSeq]
    split
    · exact ⟨rfl, rfl⟩
    · have hnone : q.pendingInputs = [] := by
        by_contra hne
        obtain ⟨taken', htaken', hin⟩ := h.pending k q hq hne
        rw [hready] at htaken'
        obtain rfl := Option.some.inj htaken'
        exact absurd hin ‹_›
      exact ⟨by rw [hnone], hnone⟩
  have hslot : ∀ (k : Nat) (q : Seq), (beginSeq taken token k q).slot = q.slot := by
    intro k q
    unfold beginSeq
    split <;> rfl
  have hold : ∀ (k : Nat) (u : Seq), (beginCompute taken token s).seqs[k]? = some (some u) →
      ∃ q, s.seqs[k]? = some (some q) ∧ u = beginSeq taken token k q := by
    intro k u hu
    obtain ⟨o, ho, hmap⟩ := get_mapIdx k hu
    obtain ⟨q, rfl, rfl⟩ := Option.map_eq_some_iff.mp hmap
    exact ⟨q, ho, rfl⟩
  refine ⟨he.good h.good fun k q hq => ?_, ⟨fun k u hu => ?_, fun k k' u u' hu hu' heq => ?_⟩,
    fun k u hu => ?_, fun k u hu hne => ?_, h.numCtx_le⟩
  · show Held _ _ _ ((editSlots (commit taken) s.seqs s.ic).inputs q.slot) ∧
      (((editSlots (commit taken) s.seqs s.ic).inputs q.slot).length : Int) ≤ cfg.numCtx
    rw [(hall k q hq).1]
    refine ⟨(h.seqs k q hq).held, ?_⟩
    have := (h.seqs k q hq).le_numCtx
    rw [List.length_append]
    push_cast
    exact this
  · obtain ⟨q, hq, rfl⟩ := hold k u hu
    obtain ⟨sl, hsl, hnew⟩ := he.get k q hq
    show (editSlots (commit taken) s.seqs s.ic).inUse _ = true
    have huse := h.live.inUse k q hq
    rw [inUse_of_get hsl] at huse
    rw [hslot, inUse_of_get hnew, commit]
    split <;> exact huse
  · obtain ⟨q, hq, rfl⟩ := hold k u hu
    obtain ⟨q', hq', rfl⟩ := hold k' u' hu'
    rw [hslot, hslot] at heq
    exact h.live.distinct k k' q q' hq hq' heq
  · obtain ⟨q, hq, rfl⟩ := hold k u hu
    obtain ⟨hin, hpending⟩ := hall k q hq
    have hcache : (beginCompute taken token s).ic.cache = s.ic.cache := he.cache
    refine ⟨?_, ?_, ?_⟩
    · show Held (editSlots (commit taken) s.seqs s.ic).cache s.data _ (InputCache.inputs _ _ ++ _)
      rw [hpending, List.append_nil, hslot, he.cache]
      show Held _ _ _ ((editSlots (commit taken) s.seqs s.ic).inputs q.slot)
      rw [hin]
      exact (h.seqs k q hq).held
    · rw [hcache, hpending, hslot]
      show Within _ _ (((editSlots (commit taken) s.seqs s.ic).inputs q.slot).length + 0)
      rw [hin, List.length_append]
      exact (h.seqs k q hq).within
    · rw [hpending, hslot]
      show (((editSlots (commit taken) s.seqs s.ic).inputs q.slot).length + ((0 : Nat) : Int) : Int) ≤ _
      have := (h.seqs k q hq).le_numCtx
      rw [hin, List.length_append]
      push_cast
      omega
  · obtain ⟨q, hq, rfl⟩ := hold k u hu
    exact absurd (hall k q hq).2 hne

theorem endCompute_inv {s : State} (h : Inv cfg s) (taken : List (Option Nat))
    (sampled : List Bool) (outcome : Nat → Option Nat) :
    Inv cfg (endCompute taken sampled outcome s) := by
  have he := h.live.edited (cut taken sampled outcome)
  have hold : ∀ (k : Nat) (q : Seq),
      (endCompute taken sampled outcome s).seqs[k]? = some (some q) →
      s.seqs[k]? = some (some q) ∧ cut taken sampled outcome k q = none := by
    intro k q hq
    obtain ⟨o, ho, hmap⟩ := get_mapIdx k hq
    obtain ⟨rfl, hends⟩ := Option.filter_eq_some_iff.mp hmap
    exact ⟨ho, by rw [cut, Option.isNone_iff_eq_none.mp hends]; rfl⟩
  have hkept : ∀ (k : Nat) (q : Seq),
      (endCompute taken sampled outcome s).seqs[k]? = some (some q) →
      (editSlots (cut taken sampled outcome) s.seqs s.ic).slots[q.slot]? = s.ic.slots[q.slot]? := by
    intro k q hq
    obtain ⟨hq, hcut⟩ := hold k q hq
    obtain ⟨sl, hsl, hnew⟩ := he.get k q hq
    rw [hcut] at hnew
    rw [hnew, hsl]
    rfl
  refine ⟨he.good h.good fun k q hq => ?_, ⟨fun k q hq => ?_, fun k k' q q' hq hq' => ?_⟩,
    fun k q hq => ?_, fun k q hq hne => h.pending k q (hold k q hq).1 hne, h.numCtx_le⟩
  · obtain ⟨sl, hsl, hnew⟩ := he.get k q hq
    have hheld := h.good.held q.slot
    have hle := h.good.le_numCtx q.slot
    rw [inputs_of_get hsl] at hheld hle
    show Held _ _ _ ((editSlots (cut taken sampled outcome) s.seqs s.ic).inputs q.slot) ∧
      (((editSlots (cut taken sampled outcome) s.seqs s.ic).inputs q.slot).length : Int) ≤ _
    rw [inputs_of_get hnew, cut]
    cases ends taken sampled outcome k q with
    | none => exact ⟨hheld, hle⟩
    | some tokenLen =>
      refine ⟨hheld.take tokenLen, ?_⟩
      show ((sl.inputs.take tokenLen).length : Int) ≤ cfg.numCtx
      rw [List.length_take]
      omega
  · show (editSlots (cut taken sampled outcome) s.seqs s.ic).inUse q.slot = true
    rw [InputCache.inUse, hkept k q hq]
    exact h.live.inUse k q (hold k q hq).1
  · exact h.live.distinct k k' q q' (hold k q hq).1 (hold k' q' hq').1
  · refine (h.seqs k q (hold k q hq).1).frame ?_ fun p j => ?_
    · show (editSlots (cut taken sampled outcome) s.seqs s.ic).inputs q.slot = _
      rw [InputCache.inputs, hkept k q hq, InputCache.inputs]
    · show (editSlots (cut taken sampled outcome) s.seqs s.ic).cache.Stores _ _ _ ↔ _
      rw [he.cache]

/-! ## Runs -/

theorem Starts.inv {parallel cachePadding : Nat} {hasShift : Bool} {s : State}
    (h : Starts cfg parallel cachePadding hasShift s) : Inv cfg s := by
  have hinputs : ∀ slot, s.ic.inputs slot = [] := by
    intro slot
    rw [InputCache.inputs, h.slots, List.getElem?_replicate]
    split <;> rfl
  have hnone : ∀ (k : Nat) (q : Seq), s.seqs[k]? ≠ some (some q) := by
    intro k q hq
    rw [h.seqs, List.getElem?_replicate] at hq
    split at hq
    · cases Option.some.inj hq
    · cases hq
  have hnonneg : (0 : Int) ≤ cfg.numCtx := le_trans (by omega) h.batchSize_le
  refine ⟨⟨CacheOk.init h.cache, fun slot => ?_, fun slot => ?_⟩,
    ⟨fun k q hq => absurd hq (hnone k q), fun k _ q _ hq => absurd hq (hnone k q)⟩,
    fun k q hq => absurd hq (hnone k q), fun k q hq => absurd hq (hnone k q), h.numCtx_le⟩
  · rw [hinputs]
    exact held_nil
  · rw [hinputs]
    exact hnonneg

theorem inv_invariant (cfg : Config) (parallel cachePadding : Nat) (hasShift : Bool) :
    ((sys cfg parallel cachePadding hasShift).restrict (StepOk cfg)).Invariant (Inv cfg) := by
  refine TSys.Inductive.invariant ⟨fun s hinit => hinit.inv, fun s a s' h ⟨hok, hstep⟩ => ?_⟩
  have hstep : act cfg s a = some s' := hstep
  cases a with
  | request req now now' backend => exact addSequence_inv h hstep
  | forward backend =>
    rw [act] at hstep
    split at hstep
    · cases hstep
    · rename_i hgo
      have hready : s.ready = none := by
        rw [← Option.not_isSome_iff_eq_none]
        exact fun hsome => hgo (.inl hsome)
      exact forwardBatch_inv h hready hok hstep
  | beginCompute token =>
    rw [act] at hstep
    split at hstep
    · rename_i taken hready hcomputing
      rw [← Option.some.inj hstep]
      exact beginCompute_inv h hready token
    · cases hstep
  | endCompute outcome =>
    rw [act] at hstep
    split at hstep
    · rw [← Option.some.inj hstep]
      exact endCompute_inv h _ _ outcome
    · cases hstep

/-- In every order of requests, batches and the two sections in which they are computed, each input
of a slot is in exactly one cell of the slot's sequence, at its index, and what the cell holds is
the input or one that `countCommonPrefix` does not tell from it. -/
theorem slots_agree (cfg : Config) (parallel cachePadding : Nat) (hasShift : Bool) :
    ((sys cfg parallel cachePadding hasShift).restrict (StepOk cfg)).Invariant fun s =>
      ∀ (slot p : Nat) (x : Item), (s.ic.inputs slot)[p]? = some x →
        ∃ j, (∀ j', s.ic.cache.Stores slot p j' ↔ j' = j) ∧ (s.data j).Same x := by
  intro s hreach slot p x hx
  have hinv := inv_invariant cfg parallel cachePadding hasShift s hreach
  obtain ⟨j, hj, hsame⟩ := hinv.good.held slot p x hx
  exact ⟨j, fun j' => ⟨fun hj' => hinv.good.cache.distinct _ _ j' j hj' hj, fun heq => heq ▸ hj⟩,
    hsame⟩

end Prismalama.Runner.Server
