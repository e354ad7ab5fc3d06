import Prismalama.Kvcache.CausalMask

/-!
# The cache is large enough

`Init` sizes the cache so that `findLocs` finds a cell for every token of every
batch. Just before allocation a sequence holds at most `swaMemorySize` cells
(sliding window) or leaves its share of the capacity to the batch (full cache),
because its cells hold distinct positions of a bounded interval; shared cells
only help.

The bound needs what the `Cache` interface asks of its users: positions are
natural numbers, and a sequence whose `Remove` failed half-way is removed
altogether. `half_removed_fills` shows what happens otherwise.
-/

namespace Prismalama.Kvcache

open Prismalama.Lib

namespace Causal

/-! ## Counting cells -/

/-- The cells that reference `s`. -/
def cellsOf (c : Causal) (s : Int) : Finset Nat :=
  (Finset.range c.cells.length).filter fun j => s ∈ (c.cellAt j).sequences

theorem cellAt_eq {c : Causal} {j : Nat} {cell : CacheCell} (h : c.cells[j]? = some cell) :
    c.cellAt j = cell := by
  simp [cellAt, h]

@[simp] theorem mem_cellsOf {c : Causal} {s : Int} {j : Nat} :
    j ∈ c.cellsOf s ↔ ∃ p, c.Stores s p j := by
  simp only [cellsOf, Finset.mem_filter, Finset.mem_range]
  constructor
  · rintro ⟨hlt, hs⟩
    have hcell : c.cells[j]? = some (c.cells[j]) := List.getElem?_eq_getElem hlt
    rw [cellAt_eq hcell] at hs
    exact ⟨_, _, hcell, hs, rfl⟩
  · rintro ⟨p, hst⟩
    obtain ⟨cell, hcell, hs, -⟩ := hst
    refine ⟨Stores.lt ⟨cell, hcell, hs, rfl⟩, ?_⟩
    rw [cellAt_eq hcell]
    exact hs

/-- Elements counted in a list, as the indices where they stand. -/
theorem countP_eq_card {α : Type*} (p : α → Bool) (xs : List α) :
    xs.countP p = ((Finset.range xs.length).filter fun j => xs[j]?.any p = true).card := by
  induction xs using List.reverseRecOn with
  | nil => simp
  | append_singleton xs x ih =>
    have hold : (Finset.range xs.length).filter (fun j => (xs ++ [x])[j]?.any p = true) =
        (Finset.range xs.length).filter fun j => xs[j]?.any p = true := by
      refine Finset.filter_congr fun j hj => ?_
      rw [List.getElem?_append_left (Finset.mem_range.mp hj)]
    have hnew : ((xs ++ [x])[xs.length]?.any p = true) ↔ p x = true := by
      simp
    rw [List.countP_append, ih, List.length_append, List.length_singleton, Finset.range_add_one,
      Finset.filter_insert, hold]
    by_cases hx : p x = true
    · rw [if_pos (hnew.mpr hx), Finset.card_insert_of_notMem (by simp)]
      simp [hx]
    · rw [if_neg (fun h => hx (hnew.mp h))]
      simp [hx]

/-- Cells in use are counted at least once over the sequences. -/
theorem inUse_le {c : Causal} {ids : Finset Int} (hids : ∀ s p j, c.Stores s p j → s ∈ ids) :
    c.cells.countP (fun cell => cell.sequences ≠ []) ≤ ∑ s ∈ ids, (c.cellsOf s).card := by
  rw [countP_eq_card]
  refine le_trans (Finset.card_le_card ?_) (Finset.card_biUnion_le (s := ids) (t := c.cellsOf))
  intro j hj
  simp only [Finset.mem_filter, Option.any_eq_true, decide_eq_true_eq] at hj
  obtain ⟨-, cell, hcell, hne⟩ := hj
  obtain ⟨s, hs⟩ := List.exists_mem_of_ne_nil _ hne
  have hst : c.Stores s cell.pos j := ⟨cell, hcell, hs, rfl⟩
  exact Finset.mem_biUnion.mpr ⟨s, hids _ _ _ hst, mem_cellsOf.mpr ⟨_, hst⟩⟩

/-- What is not in use is enough for the batch. -/
theorem findLocs_of_inUse {c : Causal} (hne : c.curBatch ≠ []) {n : Nat}
    (hinUse : c.cells.countP (fun cell => cell.sequences ≠ []) ≤ n)
    (hlen : n + c.curBatch.length ≤ c.cells.length) : ∃ locs, c.findLocs = some locs := by
  have hsplit := List.length_eq_countP_add_countP (l := c.cells)
    (fun cell => decide (cell.sequences = []))
  have hsame : (fun cell : CacheCell => decide (cell.sequences ≠ [])) =
      fun cell => !decide (cell.sequences = []) := by
    funext cell
    simp
  rw [hsame] at hinUse
  refine findLocsFrom_isSome _ _ _ _ (List.length_pos_iff.mpr hne) ?_
  simp only [List.length_nil, Nat.zero_add]
  have : c.cells.countP (fun cell => !decide (cell.sequences = [])) =
      c.cells.countP (fun cell => ¬decide (cell.sequences = []) = true) := by
    congr 1
    funext cell
    simp
  omega

/-- Distinct positions of an interval take no more cells than it is long. -/
theorem card_cellsOf_le {c : Causal} {s a b : Int}
    (hinj : ∀ p j j', c.Stores s p j → c.Stores s p j' → j = j')
    (hrange : ∀ p j, c.Stores s p j → a ≤ p ∧ p < b) : (c.cellsOf s).card ≤ (b - a).toNat := by
  rw [← Int.card_Ico]
  refine Finset.card_le_card_of_injOn (fun j => (c.cellAt j).pos) ?_ ?_
  · intro j hj
    obtain ⟨p, hst⟩ := mem_cellsOf.mp hj
    obtain ⟨cell, hcell, hs, rfl⟩ := id hst
    simp only [cellAt_eq hcell, Finset.coe_Ico, Set.mem_Ico]
    exact hrange _ _ hst
  · intro j hj j' hj' heq
    obtain ⟨p, cell, hcell, hs, rfl⟩ := mem_cellsOf.mp hj
    obtain ⟨p', cell', hcell', hs', rfl⟩ := mem_cellsOf.mp hj'
    simp only [cellAt_eq hcell, cellAt_eq hcell'] at heq
    exact hinj cell.pos j j' ⟨cell, hcell, hs, rfl⟩ ⟨cell', hcell', hs', heq.symm⟩

/-! ## The load the cache is sized for -/

/-- The positions a batch adds for `s`. -/
def added (batch : List Token) (s : Int) : List Int :=
  (batch.filter fun t => t.seq = s).map Token.pos

/-- The highest position stored for `s`. -/
def highest (c : Causal) (s : Int) : Option Int :=
  ((c.cells.filter fun cell => s ∈ cell.sequences).map CacheCell.pos).max?

/-- The batch continues each of its sequences: consecutive positions right after
the highest one stored, below the capacity if the cache is full-size. -/
def Continues (c : Causal) (capacity : Nat) (batch : List Token) : Prop :=
  ∀ t ∈ batch, ∃ start ∈ added batch t.seq,
    (added batch t.seq).Perm
        ((List.range (added batch t.seq).length).map fun k : Nat => start + (k : Int)) ∧
      0 ≤ start ∧ start + (added batch t.seq).length ≤ maxInt32 + 1 ∧
      (c.swaMemorySize = maxInt32 → start + (added batch t.seq).length ≤ capacity) ∧
      ∀ h ∈ c.highest t.seq, start = h + 1

/-- The calls of a user with the sequences `ids` and batches up to `maxBatch`. -/
def Admissible (ids : Finset Int) (capacity maxBatch : Nat) (c : Causal) : Op → Prop
  | .startForward batch _ =>
    batch ≠ [] ∧ batch.length ≤ maxBatch ∧ (∀ t ∈ batch, t.seq ∈ ids) ∧ c.Continues capacity batch
  | .setCausal _ => True
  | .copyPrefix srcSeq dstSeq _ => srcSeq ∈ ids ∧ dstSeq ∈ ids
  | .remove seq _ _ _ => seq ∈ ids

/-- The shift of a `Remove` keeps every position a natural `int32`. -/
def KeepsPositions (c : Causal) : Op → Prop
  | .remove seq b e _ => ∀ cell ∈ c.cells, seq ∈ cell.sequences → e ≤ cell.pos → e ≠ maxInt32 →
    0 ≤ cell.pos + b - e ∧ cell.pos + b - e ≤ maxInt32
  | _ => True

/-- The call removes all of `seq`. -/
def Clears (seq : Int) : Op → Prop
  | .remove seq' b e _ => seq' = seq ∧ b = 0 ∧ e = maxInt32
  | _ => False

instance (ids : Finset Int) (capacity maxBatch : Nat) (c : Causal) :
    (op : Op) → Decidable (c.Admissible ids capacity maxBatch op)
  | .startForward batch _ => inferInstanceAs (Decidable (batch ≠ [] ∧ batch.length ≤ maxBatch ∧
      (∀ t ∈ batch, t.seq ∈ ids) ∧ ∀ t ∈ batch, ∃ start ∈ added batch t.seq, _))
  | .setCausal _ => .isTrue trivial
  | .copyPrefix srcSeq dstSeq _ => inferInstanceAs (Decidable (srcSeq ∈ ids ∧ dstSeq ∈ ids))
  | .remove seq _ _ _ => inferInstanceAs (Decidable (seq ∈ ids))

instance (c : Causal) : (op : Op) → Decidable (c.KeepsPositions op)
  | .remove seq b e _ => inferInstanceAs (Decidable (∀ cell ∈ c.cells, seq ∈ cell.sequences →
      e ≤ cell.pos → e ≠ maxInt32 → 0 ≤ cell.pos + b - e ∧ cell.pos + b - e ≤ maxInt32))
  | .startForward .. | .setCausal _ | .copyPrefix .. => .isTrue trivial

instance (seq : Int) : (op : Op) → Decidable (Clears seq op)
  | .remove seq' b e _ => inferInstanceAs (Decidable (seq' = seq ∧ b = 0 ∧ e = maxInt32))
  | .startForward .. | .setCausal _ | .copyPrefix .. => .isFalse id

/-- A cache and the sequence whose last `Remove` failed, if it has not been
removed since. -/
abbrev Load := Causal × Option Int

def Load.apply (s : Load) (op : Op) : Load :=
  (s.1.apply op,
    match op with
    | .remove seq b e _ => if s.1.removeFails seq b e then some seq else none
    | _ => none)

/-- What the `Cache` interface asks for: after a failed `Remove` the whole
sequence is removed. -/
def Load.Guard (ids : Finset Int) (capacity maxBatch : Nat) (s : Load) (op : Op) : Prop :=
  s.1.Enabled op ∧ s.1.Admissible ids capacity maxBatch op ∧ s.1.KeepsPositions op ∧
    ∀ seq ∈ s.2, Clears seq op

instance (ids : Finset Int) (capacity maxBatch : Nat) (s : Load) (op : Op) :
    Decidable (s.Guard ids capacity maxBatch op) :=
  inferInstanceAs (Decidable (_ ∧ _ ∧ _ ∧ ∀ seq ∈ s.2, Clears seq op))

def loadSys (cfg : CausalConfig) (ids : Finset Int) (maxSequences capacity maxBatch : Nat) :
    TSys Load Op :=
  TSys.ofFn (fun s => cfg.init maxSequences capacity maxBatch = some s.1 ∧ s.2 = none)
    (Load.Guard ids capacity maxBatch) Load.apply

/-- The same calls with any `Remove`. -/
def anyRemoveSys (cfg : CausalConfig) (ids : Finset Int) (maxSequences capacity maxBatch : Nat) :
    TSys Causal Op :=
  TSys.ofFn (fun c => cfg.init maxSequences capacity maxBatch = some c)
    (fun c op => c.Enabled op ∧ c.Admissible ids capacity maxBatch op) apply

/-! ## The invariant -/

/-- `Init` leaves room for every sequence and, with a window, for a batch. -/
structure Sufficient (maxSequences capacity maxBatch : Nat) (c : Causal) : Prop where
  memory_pos : 1 ≤ c.swaMemorySize
  memory_le : c.swaMemorySize ≤ maxInt32
  full : c.swaMemorySize = maxInt32 → maxSequences * capacity ≤ c.cells.length
  sliding : c.swaMemorySize ≠ maxInt32 →
    maxSequences * c.swaMemorySize.toNat + maxBatch ≤ c.cells.length

/-- Each cell of a sequence has its own position, except for a sequence `failed`
that is about to be removed. A full-size cache bounds the cells of a sequence. -/
structure Placed (ids : Finset Int) (capacity : Nat) (failed : Option Int) (c : Causal) : Prop where
  ids : ∀ s p j, c.Stores s p j → s ∈ ids
  range : ∀ s p j, c.Stores s p j → 0 ≤ p ∧ p ≤ maxInt32
  distinct : ∀ s, failed ≠ some s → ∀ p j j', c.Stores s p j → c.Stores s p j' → j = j'
  top : ∀ s j j', c.Stores s maxInt32 j → c.Stores s maxInt32 j' → j = j'
  share : c.swaMemorySize = maxInt32 → ∀ s, (c.cellsOf s).card ≤ capacity

theorem Sufficient.of_frame {maxSequences capacity maxBatch : Nat} {c c' : Causal}
    (h : c'.frame = c.frame) (hs : Sufficient maxSequences capacity maxBatch c) :
    Sufficient maxSequences capacity maxBatch c' := by
  have hmem := memory_eq_of_frame h
  have hlen := length_eq_of_frame h
  obtain ⟨h0, h1, h2, h3⟩ := hs
  exact ⟨by rw [hmem]; exact h0, by rw [hmem]; exact h1, by rw [hmem, hlen]; exact h2,
    by rw [hmem, hlen]; exact h3⟩

theorem memory_le (cfg : CausalConfig) (maxSequences capacity : Nat) :
    cfg.memory maxSequences capacity ≤ maxInt32 := by
  have hwin : cfg.window ≤ maxInt32 := by
    have := cfg.window_le
    unfold CausalConfig.window
    split <;> omega
  have hmem := cfg.memory_le
  have hnext := (i32_range (cfg.window + 1)).2
  simp only [CausalConfig.memory]
  split_ifs <;> omega

theorem init_sufficient {cfg : CausalConfig} {maxSequences capacity maxBatch : Nat} {c : Causal}
    (h : cfg.init maxSequences capacity maxBatch = some c) :
    Sufficient maxSequences capacity maxBatch c := by
  have hpad : 0 < cfg.padding := by
    unfold CausalConfig.padding
    split <;> omega
  have hwin : 1 ≤ cfg.window := by
    have := cfg.window_nonneg
    unfold CausalConfig.window maxInt32
    split <;> omega
  have hsize := le_roundUp hpad (if cfg.memory maxSequences capacity = maxInt32 then
    maxSequences * capacity else maxSequences * (cfg.memory maxSequences capacity).toNat + maxBatch)
  have hmem := memory_le cfg maxSequences capacity
  unfold CausalConfig.init at h
  simp only [Option.ite_none_left_eq_some, not_lt, Option.some.injEq] at h
  obtain ⟨hle, -, rfl⟩ := h
  refine ⟨hwin.trans hle, hmem, fun hfull => ?_, fun hfull => ?_⟩
  · have hfull : cfg.memory maxSequences capacity = maxInt32 := hfull
    rw [if_pos hfull] at hsize
    simpa [CausalConfig.cacheSize, hfull] using hsize
  · have hfull : cfg.memory maxSequences capacity ≠ maxInt32 := hfull
    rw [if_neg hfull] at hsize
    simpa [CausalConfig.cacheSize, hfull] using hsize

theorem init_placed {cfg : CausalConfig} {maxSequences capacity maxBatch : Nat} {c : Causal}
    (h : cfg.init maxSequences capacity maxBatch = some c) (ids : Finset Int) :
    c.Placed ids capacity none := by
  have hnone := init_not_stores h
  refine ⟨fun s p j hst => absurd hst (hnone s p j), fun s p j hst => absurd hst (hnone s p j),
    fun s _ p j _ hst => absurd hst (hnone s p j), fun s j _ hst => absurd hst (hnone s _ j), ?_⟩
  intro _ s
  rw [Finset.eq_empty_of_forall_notMem (s := c.cellsOf s)
    (fun j hj => by
      obtain ⟨p, hst⟩ := mem_cellsOf.mp hj
      exact hnone s p j hst)]
  exact Nat.zero_le _

/-! ## The batch -/

theorem mem_added {batch : List Token} {s p : Int} :
    p ∈ added batch s ↔ (⟨s, p⟩ : Token) ∈ batch := by
  simp only [added, List.mem_map, List.mem_filter, decide_eq_true_eq]
  constructor
  · rintro ⟨⟨s', p'⟩, ⟨ht, rfl⟩, rfl⟩
    exact ht
  · exact fun ht => ⟨_, ⟨ht, rfl⟩, rfl⟩

/-- Every token of the batch belongs to one of the sequences. -/
theorem sum_added (batch : List Token) {ids : Finset Int} (hids : ∀ t ∈ batch, t.seq ∈ ids) :
    ∑ s ∈ ids, (added batch s).length = batch.length := by
  induction batch with
  | nil => simp [added]
  | cons t rest ih =>
    have hhead : ∀ s, (added (t :: rest) s).length =
        (if s = t.seq then 1 else 0) + (added rest s).length := by
      intro s
      by_cases hs : s = t.seq
      · simp [added, hs, Nat.add_comm]
      · simp [added, hs, Ne.symm hs]
    simp only [hhead, Finset.sum_add_distrib, Finset.sum_ite_eq', hids t List.mem_cons_self, if_true]
    rw [ih (fun u hu => hids u (List.mem_cons_of_mem _ hu)), List.length_cons, Nat.add_comm]

theorem Stores.highest {c : Causal} {s p : Int} {j : Nat} (h : c.Stores s p j) :
    ∃ top, c.highest s = some top ∧ p ≤ top := by
  obtain ⟨cell, hcell, hs, rfl⟩ := h
  have hmem : cell.pos ∈ (c.cells.filter fun cell => s ∈ cell.sequences).map CacheCell.pos :=
    List.mem_map.mpr ⟨cell, List.mem_filter.mpr ⟨List.mem_of_getElem? hcell, by simpa using hs⟩, rfl⟩
  cases hmax : c.highest s with
  | none =>
    rw [Causal.highest, List.max?_eq_none_iff] at hmax
    rw [hmax] at hmem
    cases hmem
  | some top => exact ⟨top, rfl, (List.max?_eq_some_iff.mp hmax).2 _ hmem⟩

/-- The run of positions that a batch adds for one of its sequences. -/
structure Segment (c : Causal) (capacity : Nat) (batch : List Token) (s start : Int) : Prop where
  mem : ∀ p, (⟨s, p⟩ : Token) ∈ batch ↔ start ≤ p ∧ p < start + (added batch s).length
  nodup : (added batch s).Nodup
  nonneg : 0 ≤ start
  le : start + (added batch s).length ≤ maxInt32 + 1
  full : c.swaMemorySize = maxInt32 → start + (added batch s).length ≤ capacity
  above : ∀ p j, c.Stores s p j → p < start

theorem Continues.segment {c : Causal} {capacity : Nat} {batch : List Token}
    (h : c.Continues capacity batch) {s : Int} (hs : ∃ t ∈ batch, t.seq = s) :
    ∃ start, c.Segment capacity batch s start := by
  obtain ⟨t, ht, rfl⟩ := hs
  obtain ⟨start, -, hperm, h0, hle, hfull, hhigh⟩ := h t ht
  refine ⟨start, ?_, ?_, h0, hle, hfull, ?_⟩
  · intro p
    rw [← mem_added, hperm.mem_iff, List.mem_map]
    constructor
    · rintro ⟨k, hk, rfl⟩
      rw [List.mem_range] at hk
      omega
    · intro hp
      refine ⟨(p - start).toNat, ?_, by omega⟩
      rw [List.mem_range]
      omega
  · rw [hperm.nodup_iff]
    exact (List.nodup_range).map (fun a b hab => by simpa using hab)
  · intro p j hst
    obtain ⟨top, htop, hp⟩ := hst.highest
    have := hhigh top (by rw [htop]; rfl)
    omega

/-- A batch that continues its sequences has no token twice. -/
theorem Continues.nodup {c : Causal} {capacity : Nat} {batch : List Token}
    (h : c.Continues capacity batch) : batch.Nodup := by
  rw [List.nodup_iff_count_le_one]
  intro t
  by_cases ht : t ∈ batch
  · obtain ⟨start, hseg⟩ := h.segment ⟨t, ht, rfl⟩
    have hnd : (batch.filter fun u => u.seq = t.seq).Nodup := List.Nodup.of_map _ hseg.nodup
    have := List.nodup_iff_count_le_one.mp hnd t
    rwa [List.count_filter (by simp)] at this
  · rw [List.count_eq_zero_of_not_mem ht]
    exact Nat.zero_le _

/-- A list without duplicates is zipped with at most one partner each. -/
theorem zip_unique {α β : Type*} {xs : List α} (hnd : xs.Nodup) {ys : List β} {a : α} {b b' : β}
    (h : (a, b) ∈ xs.zip ys) (h' : (a, b') ∈ xs.zip ys) : b = b' := by
  induction xs generalizing ys with
  | nil => simp at h
  | cons x rest ih =>
    cases ys with
    | nil => simp at h
    | cons y ys =>
      rw [List.nodup_cons] at hnd
      simp only [List.zip_cons_cons, List.mem_cons, Prod.mk.injEq] at h h'
      rcases h with ⟨rfl, rfl⟩ | h <;> rcases h' with ⟨hx, rfl⟩ | h'
      · rfl
      · exact absurd (List.of_mem_zip h').1 hnd.1
      · subst hx
        exact absurd (List.of_mem_zip h).1 hnd.1
      · exact ih hnd.2 h h'

/-! ## What is left before allocation -/

theorem lastPosition_foldl (c : Causal) (s : Int) (is : List Nat) (last : Int) :
    let out := is.foldl
      (fun last i => if s ∈ (c.cellAt i).sequences then max last (c.cellAt i).pos else last) last
    last ≤ out ∧ (∀ i ∈ is, s ∈ (c.cellAt i).sequences → (c.cellAt i).pos ≤ out) ∧
      (out = last ∨ ∃ i ∈ is, s ∈ (c.cellAt i).sequences ∧ out = (c.cellAt i).pos) := by
  induction is generalizing last with
  | nil => simp
  | cons i rest ih =>
    simp only [List.foldl_cons]
    obtain ⟨hle, hall, hatt⟩ :=
      ih (if s ∈ (c.cellAt i).sequences then max last (c.cellAt i).pos else last)
    by_cases hs : s ∈ (c.cellAt i).sequences
    · simp only [hs, if_true] at hle hall hatt ⊢
      refine ⟨le_trans (le_max_left _ _) hle, ?_, ?_⟩
      · intro k hk hks
        rcases List.mem_cons.mp hk with rfl | hk
        · exact le_trans (le_max_right _ _) hle
        · exact hall k hk hks
      · rcases hatt with h | ⟨k, hk, hks, h⟩
        · rcases max_choice last (c.cellAt i).pos with hm | hm
          · exact .inl (h.trans hm)
          · exact .inr ⟨i, List.mem_cons_self, hs, h.trans hm⟩
        · exact .inr ⟨k, List.mem_cons_of_mem _ hk, hks, h⟩
    · simp only [hs, if_false] at hle hall hatt ⊢
      refine ⟨hle, ?_, ?_⟩
      · intro k hk hks
        rcases List.mem_cons.mp hk with rfl | hk
        · exact absurd hks hs
        · exact hall k hk hks
      · rcases hatt with h | ⟨k, hk, hks, h⟩
        · exact .inl h
        · exact .inr ⟨k, List.mem_cons_of_mem _ hk, hks, h⟩

theorem Covered.le_lastPosition {c : Causal} (hcov : c.Covered) {s p : Int} {j : Nat}
    (hst : c.Stores s p j) {r : CellRange} (hr : c.cellRanges.lookup s = some r) :
    p ≤ c.lastPosition s r := by
  obtain ⟨r', hr', hhas⟩ := hcov s p j hst
  rw [hr] at hr'
  injection hr' with hr'
  subst hr'
  obtain ⟨cell, hcell, hs, rfl⟩ := hst
  rw [CellRange.has_iff] at hhas
  have hmem : j ∈ List.range' r.min (r.max + 1 - r.min) := by
    rw [List.mem_range'_1]
    omega
  have h := (lastPosition_foldl c s (List.range' r.min (r.max + 1 - r.min)) 0).2.1 j hmem
  rw [cellAt_eq hcell] at h
  exact h hs

theorem lastPosition_range {c : Causal} {s : Int} (hrange : ∀ p j, c.Stores s p j → p ≤ maxInt32)
    (r : CellRange) : 0 ≤ c.lastPosition s r ∧ c.lastPosition s r ≤ maxInt32 := by
  obtain ⟨hle, -, hatt⟩ := lastPosition_foldl c s (List.range' r.min (r.max + 1 - r.min)) 0
  refine ⟨hle, ?_⟩
  rcases hatt with h | ⟨i, -, hs, h⟩
  · exact h.le.trans (by decide)
  · refine h.le.trans ?_
    by_cases hi : i < c.cells.length
    · have hcell : c.cells[i]? = some (c.cells[i]) := List.getElem?_eq_getElem hi
      rw [cellAt_eq hcell] at hs ⊢
      exact hrange _ i ⟨_, hcell, hs, rfl⟩
    · rw [show c.cellAt i = ⟨0, []⟩ by simp [cellAt, List.getElem?_eq_none (not_lt.mp hi)]] at hs
      cases hs

section Allocation

variable {ids : Finset Int} {maxSequences capacity maxBatch : Nat} {c c' : Causal}
  {batch : List Token}

/-- With a window, a sequence keeps at most `swaMemorySize` cells. -/
theorem Updated.card_cellsOf_le (hcov : c.Covered)
    (hsize : Sufficient maxSequences capacity maxBatch c) (hplaced : c.Placed ids capacity none)
    (hcont : c.Continues capacity batch) (hupd : Updated (c.withBatch batch) c')
    (hsliding : c.swaMemorySize ≠ maxInt32) (s : Int) :
    (c'.cellsOf s).card ≤ c.swaMemorySize.toNat := by
  have hmax : maxInt32 = 2147483647 := rfl
  have hmem1 := hsize.memory_pos
  have hmem2 := hsize.memory_le
  have hold : ∀ p j, c'.Stores s p j →
      c.Stores s p j ∧ ¬(c.withBatch batch).Evicted s p := fun p j hst => (hupd.stores s p j).mp hst
  have hinj : ∀ p j j', c'.Stores s p j → c'.Stores s p j' → j = j' := fun p j j' h h' =>
    hplaced.distinct s (by simp) p j j' (hold p j h).1 (hold p j' h').1
  -- an interval of the length of the memory suffices
  suffices hwithin : ∃ top, ∀ p j, c'.Stores s p j → top - c.swaMemorySize ≤ p ∧ p < top by
    obtain ⟨top, htop⟩ := hwithin
    have := Causal.card_cellsOf_le hinj htop
    rwa [show top - (top - c.swaMemorySize) = c.swaMemorySize by omega] at this
  by_cases hs : ∃ t ∈ batch, t.seq = s
  · obtain ⟨start, hseg⟩ := hcont.segment hs
    obtain ⟨t, ht, rfl⟩ := hs
    obtain ⟨lowest, hl, hlow⟩ := lowestPos_batch (c.withBatch batch) ht
    obtain ⟨u, hu, hus, hup⟩ := hlow.attained
    have hu' : (⟨t.seq, lowest.pos⟩ : Token) ∈ batch := by
      rw [← hus, ← hup]
      exact hu
    have hin := (hseg.mem lowest.pos).mp hu'
    have hnonneg := hseg.nonneg
    have hle := hseg.le
    refine ⟨lowest.pos, fun p j hst => ?_⟩
    obtain ⟨hst, hkept⟩ := hold p j hst
    have habove := hseg.above p j hst
    refine ⟨?_, by omega⟩
    by_contra hlt
    refine hkept ⟨hsliding, lowest, hl, ?_⟩
    change p < i32 (lowest.pos - c.swaMemorySize)
    rw [i32_eq (by omega) (by omega)]
    omega
  · push Not at hs
    cases hr : c.cellRanges.lookup s with
    | none =>
      refine ⟨0, fun p j hst => ?_⟩
      obtain ⟨r, hr', -⟩ := hcov s p j (hold p j hst).1
      rw [hr] at hr'
      cases hr'
    | some r =>
      have hl := lowestPos_idle (c.withBatch batch) hs hr
      have hlast : (c.withBatch batch).lastPosition s r = c.lastPosition s r := rfl
      rw [hlast] at hl
      obtain ⟨hlast0, hlast1⟩ :=
        lastPosition_range (c := c) (s := s) (fun p j hst => (hplaced.range s p j hst).2) r
      refine ⟨c.lastPosition s r + 1, fun p j hst => ?_⟩
      obtain ⟨hst, hkept⟩ := hold p j hst
      have hle := hcov.le_lastPosition hst hr
      refine ⟨?_, by omega⟩
      by_contra hlt
      refine hkept ⟨hsliding, _, hl, ?_⟩
      change p < i32 (i32 (c.lastPosition s r + 1) - c.swaMemorySize)
      rw [i32_sub, i32_eq (by omega) (by omega)]
      omega

/-- Without one, a sequence leaves room for what the batch adds to it. -/
theorem Updated.card_cellsOf_add_le (hplaced : c.Placed ids capacity none)
    (hcont : c.Continues capacity batch) (hupd : Updated (c.withBatch batch) c')
    (hfull : c.swaMemorySize = maxInt32) (s : Int) :
    (c'.cellsOf s).card + (added batch s).length ≤ capacity := by
  have hold : ∀ p j, c'.Stores s p j → c.Stores s p j := fun p j hst =>
    ((hupd.stores s p j).mp hst).1
  by_cases hs : ∃ t ∈ batch, t.seq = s
  · obtain ⟨start, hseg⟩ := hcont.segment hs
    have hcard : (c'.cellsOf s).card ≤ (start - 0).toNat := by
      refine Causal.card_cellsOf_le (fun p j j' h h' => ?_) (fun p j hst => ?_)
      · exact hplaced.distinct s (by simp) p j j' (hold p j h) (hold p j' h')
      · exact ⟨(hplaced.range s p j (hold p j hst)).1, hseg.above p j (hold p j hst)⟩
    have hstart := hseg.full hfull
    have hnonneg := hseg.nonneg
    omega
  · have hnone : added batch s = [] := by
      rw [List.eq_nil_iff_forall_not_mem]
      exact fun p hp => hs ⟨_, mem_added.mp hp, rfl⟩
    have hsub : c'.cellsOf s ⊆ c.cellsOf s := by
      intro j hj
      obtain ⟨p, hst⟩ := mem_cellsOf.mp hj
      exact mem_cellsOf.mpr ⟨p, hold p j hst⟩
    rw [hnone]
    exact (Finset.card_le_card hsub).trans (hplaced.share hfull s)

/-- There is a cell for every token of the batch. -/
theorem Updated.findLocs_isSome (hcard : ids.card ≤ maxSequences) (hcov : c.Covered)
    (hsize : Sufficient maxSequences capacity maxBatch c) (hplaced : c.Placed ids capacity none)
    (hne : batch ≠ []) (hbatch : batch.length ≤ maxBatch) (hids : ∀ t ∈ batch, t.seq ∈ ids)
    (hcont : c.Continues capacity batch) (hupd : Updated (c.withBatch batch) c') :
    ∃ locs, c'.findLocs = some locs := by
  have hcur : c'.curBatch = batch := congrArg Prod.fst hupd.entry
  have hlen : c'.cells.length = c.cells.length := length_eq_of_frame hupd.frame
  have hids' : ∀ s p j, c'.Stores s p j → s ∈ ids :=
    fun s p j hst => hplaced.ids s p j ((hupd.stores s p j).mp hst).1
  have hinUse := inUse_le hids'
  refine findLocs_of_inUse (by rw [hcur]; exact hne) hinUse ?_
  rw [hcur, hlen]
  by_cases hfull : c.swaMemorySize = maxInt32
  · calc ∑ s ∈ ids, (c'.cellsOf s).card + batch.length
        = ∑ s ∈ ids, ((c'.cellsOf s).card + (added batch s).length) := by
          rw [Finset.sum_add_distrib, sum_added batch hids]
      _ ≤ ∑ _s ∈ ids, capacity :=
          Finset.sum_le_sum fun s _ => hupd.card_cellsOf_add_le hplaced hcont hfull s
      _ = ids.card * capacity := by simp
      _ ≤ maxSequences * capacity := Nat.mul_le_mul_right _ hcard
      _ ≤ c.cells.length := hsize.full hfull
  · have hsum : ∑ s ∈ ids, (c'.cellsOf s).card ≤ maxSequences * c.swaMemorySize.toNat :=
      calc ∑ s ∈ ids, (c'.cellsOf s).card
          ≤ ∑ _s ∈ ids, c.swaMemorySize.toNat :=
            Finset.sum_le_sum fun s _ => hupd.card_cellsOf_le hcov hsize hplaced hcont hfull s
        _ = ids.card * c.swaMemorySize.toNat := by simp
        _ ≤ maxSequences * c.swaMemorySize.toNat := Nat.mul_le_mul_right _ hcard
    have := hsize.sliding hfull
    omega

end Allocation

/-! ## Every call keeps the cells placed -/

section Calls

variable {ids : Finset Int} {capacity : Nat} {c : Causal}

theorem cellsOf_subset {c c' : Causal} {s s' : Int}
    (h : ∀ p j, c'.Stores s' p j → ∃ q, c.Stores s q j) : c'.cellsOf s' ⊆ c.cellsOf s := by
  intro j hj
  obtain ⟨p, hst⟩ := mem_cellsOf.mp hj
  exact mem_cellsOf.mpr (h p j hst)

theorem Placed.of_cells_eq {failed : Option Int} {c' : Causal} (hcells : c'.cells = c.cells)
    (hframe : c'.frame = c.frame) (h : c.Placed ids capacity failed) :
    c'.Placed ids capacity failed := by
  have hst := stores_of_cells_eq hcells
  have hmem := memory_eq_of_frame hframe
  refine ⟨fun s p j hs => h.ids s p j ((hst s p j).mp hs),
    fun s p j hs => h.range s p j ((hst s p j).mp hs),
    fun s hne p j j' hs hs' => h.distinct s hne p j j' ((hst s p j).mp hs) ((hst s p j').mp hs'),
    fun s j j' hs hs' => h.top s j j' ((hst s _ j).mp hs) ((hst s _ j').mp hs'), ?_⟩
  intro hfull s
  rw [hmem] at hfull
  exact (Finset.card_le_card (cellsOf_subset fun p j hs => ⟨p, (hst s p j).mp hs⟩)).trans
    (h.share hfull s)

theorem Stored.placed {c' : Causal} {batch : List Token} {locs : List Nat}
    (hplaced : c.Placed ids capacity none) (hids : ∀ t ∈ batch, t.seq ∈ ids)
    (hcont : c.Continues capacity batch) (hst : Stored c batch locs c') :
    c'.Placed ids capacity none := by
  -- a stored position is an old one or one of the batch
  have hcases : ∀ s p j, c'.Stores s p j →
      c.Stores s p j ∨ ((⟨s, p⟩ : Token), j) ∈ batch.zip locs := fun s p j h =>
    ((hst.stores s p j).mp h).imp And.left id
  have hsegment : ∀ s p j, ((⟨s, p⟩ : Token), j) ∈ batch.zip locs →
      ∃ start, c.Segment capacity batch s start ∧ start ≤ p ∧
        p < start + (added batch s).length := by
    intro s p j h
    have ht := (List.of_mem_zip h).1
    obtain ⟨start, hseg⟩ := hcont.segment ⟨_, ht, rfl⟩
    exact ⟨start, hseg, (hseg.mem p).mp ht⟩
  have hdistinct : ∀ s p j j', c'.Stores s p j → c'.Stores s p j' → j = j' := by
    intro s p j j' h h'
    rcases hcases s p j h with hold | hnew <;> rcases hcases s p j' h' with hold' | hnew'
    · exact hplaced.distinct s (by simp) p j j' hold hold'
    · obtain ⟨start, hseg, hle, -⟩ := hsegment s p j' hnew'
      have := hseg.above p j hold
      omega
    · obtain ⟨start, hseg, hle, -⟩ := hsegment s p j hnew
      have := hseg.above p j' hold'
      omega
    · exact zip_unique hcont.nodup hnew hnew'
  have hrange : ∀ s p j, c'.Stores s p j → 0 ≤ p ∧ p ≤ maxInt32 := by
    intro s p j h
    rcases hcases s p j h with hold | hnew
    · exact hplaced.range s p j hold
    · obtain ⟨start, hseg, hle, hlt⟩ := hsegment s p j hnew
      have h0 := hseg.nonneg
      have h1 := hseg.le
      omega
  refine ⟨?_, hrange, fun s _ => hdistinct s, fun s j j' => hdistinct s _ j j', ?_⟩
  · intro s p j h
    rcases hcases s p j h with hold | hnew
    · exact hplaced.ids s p j hold
    · exact hids _ (List.of_mem_zip hnew).1
  · intro hfull s
    rw [memory_eq_of_frame hst.frame] at hfull
    by_cases hs : ∃ t ∈ batch, t.seq = s
    · obtain ⟨start, hseg⟩ := hcont.segment hs
      have hcard : (c'.cellsOf s).card ≤ (start + (added batch s).length - 0).toNat := by
        refine Causal.card_cellsOf_le (hdistinct s) (fun p j h => ⟨(hrange s p j h).1, ?_⟩)
        rcases hcases s p j h with hold | hnew
        · have := hseg.above p j hold
          omega
        · exact ((hseg.mem p).mp (List.of_mem_zip hnew).1).2
      have := hseg.full hfull
      omega
    · refine (Finset.card_le_card (cellsOf_subset fun p j h => ⟨p, ?_⟩)).trans
        (hplaced.share hfull s)
      rcases hcases s p j h with hold | hnew
      · exact hold
      · exact absurd ⟨_, (List.of_mem_zip hnew).1, rfl⟩ hs

theorem copyPrefix_placed (hplaced : c.Placed ids capacity none) {srcSeq dstSeq : Int}
    (hne : srcSeq ≠ dstSeq) (hdst : dstSeq ∈ ids) (len : Int) :
    (c.copyPrefix srcSeq dstSeq len).Placed ids capacity none := by
  -- the positions of any sequence are those one sequence had before
  have hfrom : ∀ s, ∃ s', ∀ p j, (c.copyPrefix srcSeq dstSeq len).Stores s p j →
      c.Stores s' p j ∧ (s = dstSeq ∨ s = s') := by
    intro s
    by_cases hs : s = dstSeq
    · refine ⟨srcSeq, fun p j h => ?_⟩
      rw [copyPrefix_stores hne, if_pos hs] at h
      exact ⟨h.1, .inl hs⟩
    · refine ⟨s, fun p j h => ?_⟩
      rw [copyPrefix_stores hne, if_neg hs] at h
      exact ⟨h, .inr rfl⟩
  have hdistinct : ∀ s p j j', (c.copyPrefix srcSeq dstSeq len).Stores s p j →
      (c.copyPrefix srcSeq dstSeq len).Stores s p j' → j = j' := by
    intro s p j j' h h'
    obtain ⟨s', hs'⟩ := hfrom s
    exact hplaced.distinct s' (by simp) p j j' (hs' p j h).1 (hs' p j' h').1
  refine ⟨?_, ?_, fun s _ => hdistinct s, fun s j j' => hdistinct s _ j j', ?_⟩
  · intro s p j h
    obtain ⟨s', hs'⟩ := hfrom s
    obtain ⟨hold, rfl | rfl⟩ := hs' p j h
    · exact hdst
    · exact hplaced.ids _ p j hold
  · intro s p j h
    obtain ⟨s', hs'⟩ := hfrom s
    exact hplaced.range s' p j (hs' p j h).1
  · intro hfull s
    rw [memory_eq_of_frame (copyPrefix_frame c srcSeq dstSeq len)] at hfull
    obtain ⟨s', hs'⟩ := hfrom s
    exact (Finset.card_le_card (cellsOf_subset fun p j h => ⟨p, (hs' p j h).1⟩)).trans
      (hplaced.share hfull s')

/-- How far `Remove` moves a position beyond the range. -/
def shiftBy (b e : Int) : Int := if e ≠ maxInt32 then b - e else 0

/-- The shift does not wrap. -/
theorem i32_add_removeOffset {b e q : Int} (h0 : 0 ≤ q) (h1 : q ≤ maxInt32)
    (hkeep : e ≠ maxInt32 → 0 ≤ q + b - e ∧ q + b - e ≤ maxInt32) :
    i32 (q + removeOffset b e) = q + shiftBy b e := by
  unfold removeOffset shiftBy
  split
  · rename_i he
    obtain ⟨hlo, hhi⟩ := hkeep he
    rw [i32_add, i32_eq (by omega) (by omega)]
  · rw [Int.add_zero, i32_eq (by omega) h1]

/-- `Remove` moves positions; it neither adds cells to a sequence nor reaches
into another one. -/
theorem remove_stores_from {failed : Option Int} (hplaced : c.Placed ids capacity failed)
    {seq b e : Int} {backend : Option KvError} (hkeep : c.KeepsPositions (.remove seq b e backend))
    {s p : Int} {j : Nat} (h : (c.remove seq b e backend).1.Stores s p j) :
    ∃ q, c.Stores s q j ∧ (p = q ∨ s = seq ∧ e ≤ q ∧ p = q + shiftBy b e ∧ 0 ≤ p ∧ p ≤ maxInt32) := by
  by_cases hs : s = seq
  · subst hs
    rcases remove_stores_self h with hold | ⟨q, hold, hge, rfl⟩
    · exact ⟨p, hold, .inl rfl⟩
    · obtain ⟨h0, h1⟩ := hplaced.range s q j hold
      have hkeep' : e ≠ maxInt32 → 0 ≤ q + b - e ∧ q + b - e ≤ maxInt32 := by
        obtain ⟨cell, hcell, hs, rfl⟩ := hold
        exact hkeep cell (List.mem_of_getElem? hcell) hs hge
      refine ⟨q, hold, .inr ⟨rfl, hge, i32_add_removeOffset h0 h1 hkeep', ?_⟩⟩
      rw [i32_add_removeOffset h0 h1 hkeep']
      unfold shiftBy
      split
      · rename_i he
        have := hkeep' he
        omega
      · omega
  · exact ⟨p, (remove_stores_ne hs).mp h, .inl rfl⟩

/-- Two cells of the sequence end at one position only where they shared one. -/
theorem remove_distinct_of_ok {failed : Option Int} (hplaced : c.Placed ids capacity failed)
    {seq b e : Int} {backend : Option KvError} (hkeep : c.KeepsPositions (.remove seq b e backend))
    (hfailed : ∀ s ∈ failed, Clears s (.remove seq b e backend))
    (hok : c.removeFails seq b e = false) {p : Int} {j j' : Nat}
    (h : (c.remove seq b e backend).1.Stores seq p j)
    (h' : (c.remove seq b e backend).1.Stores seq p j') : j = j' := by
  have hnew : ∀ q i, c.Stores seq q i → e ≤ q → i32 (q + removeOffset b e) = q + shiftBy b e := by
    intro q i hq hge
    obtain ⟨h0, h1⟩ := hplaced.range seq q i hq
    refine i32_add_removeOffset h0 h1 ?_
    obtain ⟨cell, hcell, hs, rfl⟩ := hq
    exact hkeep cell (List.mem_of_getElem? hcell) hs hge
  obtain ⟨q, hq, hout, hp⟩ := (remove_stores_of_ok hok).mp h
  obtain ⟨q', hq', hout', hp'⟩ := (remove_stores_of_ok hok).mp h'
  have hsame : q = q' := by
    unfold shiftBy at hnew
    have h1 := hnew q j hq
    have h2 := hnew q' j' hq'
    split_ifs at hp hp' h1 h2 <;> omega
  subst hsame
  cases failed with
  | none => exact hplaced.distinct seq (by simp) q j j' hq hq'
  | some s =>
    -- everything below the top position has just been deleted
    obtain ⟨rfl, rfl, rfl⟩ := hfailed s rfl
    obtain ⟨h0, h1⟩ := hplaced.range seq q j hq
    have htop : q = maxInt32 := by omega
    subst htop
    exact hplaced.top seq j j' hq hq'

theorem remove_placed {failed : Option Int} (hplaced : c.Placed ids capacity failed)
    {seq b e : Int} {backend : Option KvError} (hkeep : c.KeepsPositions (.remove seq b e backend))
    (hfailed : ∀ s ∈ failed, Clears s (.remove seq b e backend)) :
    (c.remove seq b e backend).1.Placed ids capacity
      (if c.removeFails seq b e then some seq else none) := by
  have hfrom := fun s p j => remove_stores_from hplaced hkeep (s := s) (p := p) (j := j)
  refine ⟨?_, ?_, ?_, ?_, ?_⟩
  · intro s p j h
    obtain ⟨q, hq, -⟩ := hfrom s p j h
    exact hplaced.ids s q j hq
  · intro s p j h
    obtain ⟨q, hq, rfl | ⟨-, -, -, h0, h1⟩⟩ := hfrom s p j h
    · exact hplaced.range s p j hq
    · exact ⟨h0, h1⟩
  · intro s hs p j j' h h'
    by_cases hseq : s = seq
    · subst hseq
      cases hremove : c.removeFails s b e with
      | true => simp [hremove] at hs
      | false => exact remove_distinct_of_ok hplaced hkeep hfailed hremove h h'
    · have hne : failed ≠ some s := by
        rintro rfl
        exact hseq (hfailed s rfl).1.symm
      exact hplaced.distinct s hne p j j' ((remove_stores_ne hseq).mp h)
        ((remove_stores_ne hseq).mp h')
  · intro s j j' h h'
    obtain ⟨q, hq, hmove⟩ := hfrom s maxInt32 j h
    obtain ⟨q', hq', hmove'⟩ := hfrom s maxInt32 j' h'
    have hrange := hplaced.range s q j hq
    have hrange' := hplaced.range s q' j' hq'
    -- a position at the top was there before, or no position at or beyond `e` can be the top
    have hsame : q = q' := by
      have hkeepAt : ∀ i x, c.Stores seq x i → e ≤ x → e ≠ maxInt32 → x + b - e ≤ maxInt32 := by
        rintro i x ⟨cell, hcell, hmem, rfl⟩ hge hmax
        exact (hkeep cell (List.mem_of_getElem? hcell) hmem hge hmax).2
      rcases hmove with rfl | ⟨rfl, hge, heq, -⟩ <;> rcases hmove' with rfl | ⟨hs, hge', heq', -⟩
      · rfl
      · subst hs
        have := hkeepAt j _ hq
        unfold shiftBy at heq'
        split_ifs at heq' <;> omega
      · have := hkeepAt j' _ hq'
        unfold shiftBy at heq
        split_ifs at heq <;> omega
      · omega
    subst hsame
    cases failed with
    | none => exact hplaced.distinct s (by simp) q j j' hq hq'
    | some t =>
      obtain ⟨rfl, rfl, rfl⟩ := hfailed t rfl
      have htop : q = maxInt32 := by
        rcases hmove with h | ⟨-, hge, -⟩ <;> omega
      subst htop
      exact hplaced.top s j j' hq hq'
  · intro hfull s
    rw [memory_eq_of_frame (remove_frame c seq b e backend)] at hfull
    refine (Finset.card_le_card (cellsOf_subset fun p j h => ?_)).trans (hplaced.share hfull s)
    obtain ⟨q, hq, -⟩ := hfrom s p j h
    exact ⟨q, hq⟩

end Calls

/-! ## Runs -/

section Runs

variable {cfg : CausalConfig} {ids : Finset Int} {maxSequences capacity maxBatch : Nat}

/-- A batch that continues its sequences is stored. -/
theorem startForward_stores {c : Causal} (hcard : ids.card ≤ maxSequences) (hwf : c.Wf)
    (hsize : Sufficient maxSequences capacity maxBatch c) (hplaced : c.Placed ids capacity none)
    {batch : List Token} {order : List Int}
    (hadm : c.Admissible ids capacity maxBatch (.startForward batch order))
    (horder : c.IsOrder batch order) :
    ∃ locs c', c.startForward batch order false =
      (({ c' with curLoc := locs } : Causal).buildMask, none) ∧ Stored c batch locs c' := by
  obtain ⟨hne, hbatch, hids, hcont⟩ := hadm
  rcases startForward_cases hwf.covered hwf.ranges horder with ⟨c', -, hupd, hnone⟩ | hstored
  · obtain ⟨locs, hlocs⟩ :=
      hupd.findLocs_isSome hcard hwf.covered hsize hplaced hne hbatch hids hcont
    rw [hlocs] at hnone
    cases hnone
  · exact hstored

/-- The invariant of the load. -/
structure Load.Inv (ids : Finset Int) (maxSequences capacity maxBatch : Nat) (s : Load) : Prop where
  wf : s.1.Wf
  sufficient : Sufficient maxSequences capacity maxBatch s.1
  placed : s.1.Placed ids capacity s.2

theorem Load.apply_inv (hcard : ids.card ≤ maxSequences) {s : Load} {op : Op}
    (hinv : s.Inv ids maxSequences capacity maxBatch) (hop : s.Guard ids capacity maxBatch op) :
    (s.apply op).Inv ids maxSequences capacity maxBatch := by
  obtain ⟨c, failed⟩ := s
  obtain ⟨hwf, hsize, hplaced⟩ := hinv
  obtain ⟨henabled, hadm, hkeep, hclears⟩ := hop
  have hwf' := apply_wf hwf henabled
  cases op with
  | startForward batch order =>
    cases failed with
    | some seq => exact (hclears seq rfl).elim
    | none =>
      obtain ⟨locs, c', heq, hst⟩ := startForward_stores hcard hwf hsize hplaced hadm henabled
      have hfinal : c.apply (.startForward batch order) =
          ({ c' with curLoc := locs } : Causal).buildMask := by
        simp only [Causal.apply, heq]
      refine ⟨hwf', ?_, ?_⟩ <;> simp only [Load.apply, hfinal]
      · exact hsize.of_frame hst.frame
      · exact (hst.placed hplaced hadm.2.2.1 hadm.2.2.2).of_cells_eq (c := c') rfl rfl
  | setCausal except =>
    cases failed with
    | some seq => exact (hclears seq rfl).elim
    | none =>
      have hcells : (c.setCausal except).cells = c.cells ∧
          (c.setCausal except).frame = c.frame := by
        unfold setCausal
        split <;> exact ⟨rfl, rfl⟩
      exact ⟨hwf', hsize.of_frame hcells.2, hplaced.of_cells_eq hcells.1 hcells.2⟩
  | copyPrefix srcSeq dstSeq len =>
    cases failed with
    | some seq => exact (hclears seq rfl).elim
    | none =>
      exact ⟨hwf', hsize.of_frame (copyPrefix_frame c srcSeq dstSeq len),
        copyPrefix_placed hplaced henabled hadm.2 len⟩
  | remove seq b e backend =>
    exact ⟨hwf', hsize.of_frame (remove_frame c seq b e backend),
      remove_placed hplaced hkeep hclears⟩

theorem load_invariant (hcard : ids.card ≤ maxSequences) :
    (loadSys cfg ids maxSequences capacity maxBatch).Invariant
      (Load.Inv ids maxSequences capacity maxBatch) := by
  refine TSys.Inductive.invariant { init := ?_, step := ?_ }
  · rintro ⟨c, failed⟩ ⟨hinit, rfl⟩
    exact ⟨init_wf hinit, init_sufficient hinit, init_placed hinit ids⟩
  · rintro s op _ hinv ⟨hop, rfl⟩
    exact Load.apply_inv hcard hinv hop

/-- In no run does `StartForward` run out of cells. -/
theorem startForward_never_full (hcard : ids.card ≤ maxSequences) {c : Causal}
    (hreach : (loadSys cfg ids maxSequences capacity maxBatch).Reachable (c, none))
    {batch : List Token} {order : List Int}
    (hop : Load.Guard ids capacity maxBatch (c, none) (.startForward batch order)) :
    (c.startForward batch order false).2 = none := by
  obtain ⟨hwf, hsize, hplaced⟩ := load_invariant hcard _ hreach
  obtain ⟨locs, c', heq, -⟩ := startForward_stores hcard hwf hsize hplaced hop.2.1 hop.1
  rw [heq]

end Runs

/-- Two sequences in a window of three tokens: the second one forks off the
first, and both go on. -/
theorem startForward_never_full_fork :
    let cfg := newSWACache 2 0 true (by decide) (by decide)
    let c := (cfg.init 2 8 3).get (by decide)
    let ops : List Op := [.startForward [⟨1, 0⟩, ⟨1, 1⟩, ⟨1, 2⟩] [1], .copyPrefix 1 2 2,
      .startForward [⟨1, 3⟩, ⟨2, 2⟩, ⟨2, 3⟩] [2, 1]]
    ((ops.foldl Load.apply (c, none)).1.startForward [⟨2, 4⟩, ⟨2, 5⟩, ⟨1, 4⟩] [1, 2] false).2 =
      none := by
  intro cfg c ops
  have hinit : (loadSys cfg {1, 2} 2 8 3).Reachable (c, none) :=
    .init ⟨(Option.some_get _).symm, rfl⟩
  have hreach := TSys.Reachable.run hinit ops (by decide)
  have hfailed : ops.foldl Load.apply (c, none) = ((ops.foldl Load.apply (c, none)).1, none) := rfl
  rw [hfailed] at hreach
  exact startForward_never_full (by decide) hreach (by decide)

/-- Without those conditions a cache of two sequences of four tokens fills up:
`Remove(1, 0, 1)` twice stops at a shared cell with cells of sequence 1 already
shifted, so that it holds positions twice. And a begin below zero makes room
for positions that no capacity counts. -/
theorem half_removed_fills :
    (∃ c, (anyRemoveSys (newCausalCache 0 true) {1, 2} 2 4 4).Reachable c ∧
      c.Enabled (.startForward [⟨2, 0⟩, ⟨2, 1⟩, ⟨2, 2⟩, ⟨2, 3⟩] [1, 2]) ∧
      c.Admissible {1, 2} 4 4 (.startForward [⟨2, 0⟩, ⟨2, 1⟩, ⟨2, 2⟩, ⟨2, 3⟩] [1, 2]) ∧
      (c.startForward [⟨2, 0⟩, ⟨2, 1⟩, ⟨2, 2⟩, ⟨2, 3⟩] [1, 2] false).2 =
        some (.kvCacheFull 8 4)) ∧
    ∃ c, (anyRemoveSys (newCausalCache 0 true) {1} 1 2 2).Reachable c ∧
      c.Enabled (.startForward [⟨1, 1⟩] [1]) ∧
      c.Admissible {1} 2 2 (.startForward [⟨1, 1⟩] [1]) ∧
      (c.startForward [⟨1, 1⟩] [1] false).2 = some (.kvCacheFull 2 1) := by
  constructor
  · let c := ((newCausalCache 0 true).init 2 4 4).get rfl
    let ops : List Op := [.startForward [⟨2, 0⟩, ⟨2, 1⟩] [2], .startForward [⟨1, 0⟩, ⟨1, 1⟩] [2, 1],
      .remove 2 0 maxInt32 none, .startForward [⟨1, 2⟩, ⟨1, 3⟩] [1], .copyPrefix 1 2 2,
      .remove 1 0 1 none, .remove 1 0 1 none, .remove 2 0 maxInt32 none,
      .startForward [⟨1, 2⟩, ⟨1, 3⟩] [1]]
    have hinit : (anyRemoveSys (newCausalCache 0 true) {1, 2} 2 4 4).Reachable c := .init rfl
    exact ⟨_, TSys.Reachable.run hinit ops (by decide), by decide⟩
  · let c := ((newCausalCache 0 true).init 1 2 2).get rfl
    let ops : List Op := [.startForward [⟨1, 0⟩, ⟨1, 1⟩] [1], .remove 1 (-1) 0 none]
    have hinit : (anyRemoveSys (newCausalCache 0 true) {1} 1 2 2).Reachable c := .init rfl
    exact ⟨_, TSys.Reachable.run hinit ops (by decide), by decide⟩

end Causal

end Prismalama.Kvcache
