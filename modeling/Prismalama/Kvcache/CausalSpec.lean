import Prismalama.Kvcache.Causal

/-!
# What the cache stores

The cells seen as a relation: `c.Stores s p j` says that cell `j` references
sequence `s` at position `p`. Each operation of `Causal` gets one lemma that
says what it does to this relation, and one that says that the sizes `Init`
fixed (`frame`) stay; everything later is derived from these and never looks at
a cell list again.

`Covered` is the invariant the ranges are kept for: every cell that references
a sequence lies in that sequence's range.
-/

namespace Prismalama.Kvcache

open Prismalama.Lib

/-! ## Ranges -/

theorem extend_min_le (r : CellRange) (i : Nat) : (r.extend i).min ≤ r.min := Nat.min_le_left _ _

theorem le_extend_max (r : CellRange) (i : Nat) : r.max ≤ (r.extend i).max := Nat.le_max_left _ _

theorem extend_max_cases (r : CellRange) (i : Nat) :
    (r.extend i).max ≤ r.max ∨ (r.extend i).max = i := by
  simp only [CellRange.extend, Nat.max_def]
  split <;> omega

@[simp] theorem CellRange.has_iff (r : CellRange) (i : Nat) :
    r.has i = true ↔ r.min ≤ i ∧ i ≤ r.max := by
  simp [CellRange.has]

theorem extendFrom_grows (p : Nat → CacheCell → Bool) (i : Nat) (cells : List CacheCell)
    (r : CellRange) :
    (extendFrom p i cells r).min ≤ r.min ∧ r.max ≤ (extendFrom p i cells r).max := by
  induction cells generalizing i r with
  | nil => exact ⟨Nat.le_refl _, Nat.le_refl _⟩
  | cons cell rest ih =>
    simp only [extendFrom]
    split
    · obtain ⟨hmin, hmax⟩ := ih (i + 1) (r.extend i)
      exact ⟨hmin.trans (extend_min_le r i), (le_extend_max r i).trans hmax⟩
    · exact ih (i + 1) r

/-- Every visited cell that satisfies `p` is taken in. -/
theorem extendFrom_has (p : Nat → CacheCell → Bool) (i : Nat) (cells : List CacheCell)
    (r : CellRange) {k : Nat} {cell : CacheCell} (hk : cells[k]? = some cell)
    (hp : p (i + k) cell = true) : (extendFrom p i cells r).has (i + k) = true := by
  induction cells generalizing i r k with
  | nil => simp at hk
  | cons head rest ih =>
    cases k with
    | zero =>
      simp only [List.getElem?_cons_zero, Option.some.injEq] at hk
      subst hk
      simp only [Nat.add_zero] at hp ⊢
      simp only [extendFrom, hp, if_true, CellRange.has_iff]
      obtain ⟨hmin, hmax⟩ := extendFrom_grows p (i + 1) rest (r.extend i)
      exact ⟨hmin.trans (Nat.min_le_right _ _), (Nat.le_max_right _ _).trans hmax⟩
    | succ k =>
      simp only [List.getElem?_cons_succ] at hk
      rw [show i + (k + 1) = i + 1 + k by omega] at hp ⊢
      exact ih (i + 1) _ hk hp

/-- The upper end is the old one or an index that was taken in. -/
theorem extendFrom_max (p : Nat → CacheCell → Bool) (i : Nat) (cells : List CacheCell)
    (r : CellRange) :
    (extendFrom p i cells r).max ≤ r.max ∨ (extendFrom p i cells r).max < i + cells.length := by
  induction cells generalizing i r with
  | nil => exact .inl (Nat.le_refl _)
  | cons cell rest ih =>
    simp only [extendFrom, List.length_cons]
    have hhead : (if p i cell then r.extend i else r).max ≤ r.max ∨
        (if p i cell then r.extend i else r).max = i := by
      split
      · exact extend_max_cases r i
      · exact .inl (Nat.le_refl _)
    rcases ih (i + 1) (if p i cell then r.extend i else r) with h | h <;> omega

theorem extendWhere_grows (r : CellRange) (p : Nat → CacheCell → Bool) (cells : List CacheCell) :
    (extendWhere r p cells).min ≤ r.min ∧ r.max ≤ (extendWhere r p cells).max :=
  extendFrom_grows p 0 cells r

theorem extendWhere_has {r : CellRange} {p : Nat → CacheCell → Bool} {cells : List CacheCell}
    {k : Nat} {cell : CacheCell} (hk : cells[k]? = some cell) (hp : p k cell = true) :
    (extendWhere r p cells).has k = true := by
  have h := extendFrom_has p 0 cells r hk (by simpa using hp)
  simpa [extendWhere] using h

/-- A range that some cell was taken into is not the empty one. -/
theorem extendWhere_ne_newRange {p : Nat → CacheCell → Bool} {cells : List CacheCell}
    (hlen : cells.length ≤ maxInt) {k : Nat} {cell : CacheCell} (hk : cells[k]? = some cell)
    (hp : p k cell = true) : extendWhere newRange p cells ≠ newRange := by
  intro heq
  have hhas := extendWhere_has (r := newRange) hk hp
  have hlt : k < cells.length := (List.getElem?_eq_some_iff.mp hk).1
  rw [heq] at hhas
  simp only [CellRange.has_iff, newRange] at hhas
  omega

namespace Causal

/-! ## The relation and the frame -/

/-- Cell `j` references sequence `s` at position `p`. -/
def Stores (c : Causal) (s p : Int) (j : Nat) : Prop :=
  ∃ cell, c.cells[j]? = some cell ∧ s ∈ cell.sequences ∧ cell.pos = p

/-- Every cell that references a sequence lies in the sequence's range. -/
def Covered (c : Causal) : Prop :=
  ∀ s p j, c.Stores s p j → ∃ r, c.cellRanges.lookup s = some r ∧ r.has j = true

/-- What no operation after `Init` changes. -/
def frame (c : Causal) : Int × Int × Int × Nat × Nat × Bool × Nat :=
  (c.swaWindowSize, c.swaMemorySize, c.chunkSize, c.maxBatch, c.cachePadding, c.hasShift,
    c.cells.length)

theorem Stores.lt {c : Causal} {s p : Int} {j : Nat} (h : c.Stores s p j) :
    j < c.cells.length := by
  obtain ⟨cell, hcell, -, -⟩ := h
  exact (List.getElem?_eq_some_iff.mp hcell).1

theorem stores_of_cells_eq {c c' : Causal} (h : c'.cells = c.cells) (s p : Int) (j : Nat) :
    c'.Stores s p j ↔ c.Stores s p j := by
  unfold Stores
  rw [h]

@[simp] theorem mem_delete (cell : CacheCell) (seq s : Int) :
    s ∈ (cell.delete seq).sequences ↔ s ∈ cell.sequences ∧ s ≠ seq := by
  simp [CacheCell.delete]

@[simp] theorem delete_pos (cell : CacheCell) (seq : Int) : (cell.delete seq).pos = cell.pos := rfl

/-- Cells rewritten one by one: what is stored afterwards. -/
theorem stores_mapIdx {c c' : Causal} {f : Nat → CacheCell → CacheCell}
    (h : c'.cells = c.cells.mapIdx f) (s p : Int) (j : Nat) :
    c'.Stores s p j ↔
      ∃ cell, c.cells[j]? = some cell ∧ s ∈ (f j cell).sequences ∧ (f j cell).pos = p := by
  unfold Stores
  rw [h, List.getElem?_mapIdx]
  constructor
  · rintro ⟨cell', hcell', hs, hp⟩
    obtain ⟨cell, hcell, rfl⟩ := Option.map_eq_some_iff.mp hcell'
    exact ⟨cell, hcell, hs, hp⟩
  · rintro ⟨cell, hcell, hs, hp⟩
    exact ⟨f j cell, by rw [hcell]; rfl, hs, hp⟩

/-! ## `updateSlidingWindow` -/

theorem slideRange_frame (c : Causal) (seq : Int) (lowest : LowestPosition) (r : CellRange) :
    (c.slideRange seq lowest r).frame = c.frame := by
  simp [slideRange, frame]

theorem slideRange_stores (c : Causal) (seq : Int) (lowest : LowestPosition) (r : CellRange)
    (s p : Int) (j : Nat) :
    (c.slideRange seq lowest r).Stores s p j ↔
      c.Stores s p j ∧
        ¬(s = seq ∧ r.has j = true ∧ p < i32 (lowest.pos - c.swaMemorySize)) := by
  rw [stores_mapIdx (c := c) (f := fun i cell =>
    if r.has i && c.evicts seq lowest cell then cell.delete seq else cell) rfl]
  constructor
  · rintro ⟨cell, hcell, hs, hp⟩
    split at hs
    · rename_i hev
      rw [if_pos hev] at hp
      simp only [mem_delete] at hs
      exact ⟨⟨cell, hcell, hs.1, hp⟩, fun hbad => hs.2 hbad.1⟩
    · rename_i hev
      rw [if_neg hev] at hp
      refine ⟨⟨cell, hcell, hs, hp⟩, ?_⟩
      rintro ⟨rfl, hhas, hlt⟩
      subst hp
      exact hev (by simp [evicts, hhas, hs, hlt])
  · rintro ⟨⟨cell, hcell, hs, rfl⟩, hnot⟩
    refine ⟨cell, hcell, ?_⟩
    split
    · rename_i hev
      simp only [evicts, Bool.and_eq_true, List.contains_eq_mem, decide_eq_true_eq] at hev
      refine ⟨?_, rfl⟩
      rw [mem_delete]
      exact ⟨hs, fun heq => hnot ⟨heq, hev.1, hev.2.2⟩⟩
    · exact ⟨hs, rfl⟩

theorem slideRange_covered {c : Causal} (hcov : c.Covered) {seq : Int} {lowest : LowestPosition}
    {r : CellRange} (hr : c.cellRanges.lookup seq = some r) :
    (c.slideRange seq lowest r).Covered := by
  intro s p j hst
  obtain ⟨hold, hkept⟩ := (slideRange_stores c seq lowest r s p j).mp hst
  obtain ⟨r0, hr0, hhas⟩ := hcov s p j hold
  simp only [slideRange, GoMap.lookup_insert_ite]
  by_cases heq : s = seq
  · subst heq
    rw [hr] at hr0
    injection hr0 with hr0
    subst hr0
    rw [if_pos rfl]
    refine ⟨_, rfl, ?_⟩
    obtain ⟨cell, hcell, hs, rfl⟩ := hold
    refine extendWhere_has hcell ?_
    have hge : i32 (lowest.pos - c.swaMemorySize) ≤ cell.pos :=
      not_lt.mp fun hlt => hkept ⟨rfl, hhas, hlt⟩
    simp [evicts, hhas, hs, hge]
  · rw [if_neg heq]
    exact ⟨r0, hr0, hhas⟩

theorem slideSequence_frame (lowestPos : GoMap Int LowestPosition) (c : Causal) (seq : Int) :
    (slideSequence lowestPos c seq).frame = c.frame := by
  unfold slideSequence
  split
  · exact slideRange_frame _ _ _ _
  · rfl

theorem slideSequence_covered {c : Causal} (hcov : c.Covered)
    (lowestPos : GoMap Int LowestPosition) (seq : Int) :
    (slideSequence lowestPos c seq).Covered := by
  unfold slideSequence
  split
  · rename_i hr
    exact slideRange_covered hcov hr
  · exact hcov

/-- One sequence slides: exactly its cells below the kept memory go. -/
theorem slideSequence_stores {c : Causal} (hcov : c.Covered)
    (lowestPos : GoMap Int LowestPosition) (seq s p : Int) (j : Nat) :
    (slideSequence lowestPos c seq).Stores s p j ↔
      c.Stores s p j ∧ ¬(s = seq ∧ ∃ lowest, lowestPos.lookup seq = some lowest ∧
        p < i32 (lowest.pos - c.swaMemorySize)) := by
  unfold slideSequence
  split
  · rename_i lowest r hl hr
    rw [slideRange_stores]
    refine and_congr_right fun hst => not_congr (and_congr_right fun heq => ?_)
    subst heq
    obtain ⟨r0, hr0, hhas⟩ := hcov s p j hst
    rw [hr] at hr0
    injection hr0 with hr0
    subst hr0
    simp [hhas, hl]
  · rename_i hnone
    refine ⟨fun hst => ⟨hst, ?_⟩, fun h => h.1⟩
    rintro ⟨rfl, lowest, hl, -⟩
    obtain ⟨r, hr, -⟩ := hcov s p j hst
    exact hnone lowest r hl hr

theorem slide_frame (lowestPos : GoMap Int LowestPosition) (order : List Int) (c : Causal) :
    (order.foldl (slideSequence lowestPos) c).frame = c.frame := by
  induction order generalizing c with
  | nil => rfl
  | cons seq rest ih => rw [List.foldl_cons, ih, slideSequence_frame]

theorem slide_covered {c : Causal} (hcov : c.Covered) (lowestPos : GoMap Int LowestPosition)
    (order : List Int) : (order.foldl (slideSequence lowestPos) c).Covered := by
  induction order generalizing c with
  | nil => exact hcov
  | cons seq rest ih => exact ih (slideSequence_covered hcov lowestPos seq)

theorem memory_eq_of_frame {c c' : Causal} (h : c'.frame = c.frame) :
    c'.swaMemorySize = c.swaMemorySize := by
  simp only [frame, Prod.mk.injEq] at h
  exact h.2.1

theorem window_eq_of_frame {c c' : Causal} (h : c'.frame = c.frame) :
    c'.swaWindowSize = c.swaWindowSize := by
  simp only [frame, Prod.mk.injEq] at h
  exact h.1

theorem length_eq_of_frame {c c' : Causal} (h : c'.frame = c.frame) :
    c'.cells.length = c.cells.length := by
  simp only [frame, Prod.mk.injEq] at h
  exact h.2.2.2.2.2.2

/-- The last loop of `updateSlidingWindow`: exactly the cells below the kept
memory of the sequences it visits go. -/
theorem slide_stores {c : Causal} (hcov : c.Covered) (lowestPos : GoMap Int LowestPosition)
    (order : List Int) (s p : Int) (j : Nat) :
    (order.foldl (slideSequence lowestPos) c).Stores s p j ↔
      c.Stores s p j ∧ ¬(s ∈ order ∧ ∃ lowest, lowestPos.lookup s = some lowest ∧
        p < i32 (lowest.pos - c.swaMemorySize)) := by
  induction order generalizing c with
  | nil => simp
  | cons seq rest ih =>
    rw [List.foldl_cons, ih (slideSequence_covered hcov lowestPos seq),
      slideSequence_stores hcov,
      memory_eq_of_frame (slideSequence_frame lowestPos c seq), List.mem_cons]
    constructor
    · rintro ⟨⟨hst, h1⟩, h2⟩
      refine ⟨hst, ?_⟩
      rintro ⟨heq | hmem, hex⟩
      · exact h1 ⟨heq, heq ▸ hex⟩
      · exact h2 ⟨hmem, hex⟩
    · rintro ⟨hst, hnot⟩
      refine ⟨⟨hst, ?_⟩, fun h => hnot ⟨.inr h.1, h.2⟩⟩
      rintro ⟨heq, hex⟩
      exact hnot ⟨.inl heq, heq ▸ hex⟩

/-! ## The lowest positions -/

theorem noteLowest_lookup (m : GoMap Int LowestPosition) (t : Token) (s : Int) :
    (noteLowest m t).lookup s =
      if s = t.seq then
        some (match m.lookup s with
          | none => ⟨t.pos, true⟩
          | some l => if t.pos < l.pos then { l with pos := t.pos } else l)
      else m.lookup s := by
  unfold noteLowest
  split <;> rename_i hm <;> rw [GoMap.lookup_insert_ite] <;> split
  · rename_i heq
    rw [heq, hm]
  · rfl
  · rename_i heq
    rw [heq, hm]
  · rfl

/-- What `lowestOfBatch` knows of a sequence after the entries `batch`. -/
structure LowestOf (batch : List Token) (s : Int) (lowest : LowestPosition) : Prop where
  curBatch : lowest.curBatch = true
  attained : ∃ t ∈ batch, t.seq = s ∧ t.pos = lowest.pos
  le : ∀ t ∈ batch, t.seq = s → lowest.pos ≤ t.pos

theorem LowestOf.single (batch : List Token) (t : Token) (hnew : ∀ u ∈ batch, u.seq ≠ t.seq) :
    LowestOf (batch ++ [t]) t.seq ⟨t.pos, true⟩ where
  curBatch := rfl
  attained := ⟨t, by simp, rfl, rfl⟩
  le := by
    intro u hu heq
    rcases List.mem_append.mp hu with hu | hu
    · exact absurd heq (hnew u hu)
    · rw [List.mem_singleton.mp hu]

theorem LowestOf.snoc {batch : List Token} {s : Int} {l : LowestPosition}
    (h : LowestOf batch s l) (t : Token) (ht : t.seq = s) :
    LowestOf (batch ++ [t]) s (if t.pos < l.pos then { l with pos := t.pos } else l) := by
  obtain ⟨hcur, ⟨u, hu, hus, hup⟩, hle⟩ := h
  split
  · rename_i hlt
    refine ⟨hcur, ⟨t, by simp, ht, rfl⟩, ?_⟩
    intro v hv heq
    rcases List.mem_append.mp hv with hv | hv
    · exact (le_of_lt hlt).trans (hle v hv heq)
    · rw [List.mem_singleton.mp hv]
  · rename_i hge
    refine ⟨hcur, ⟨u, by simp [hu], hus, hup⟩, ?_⟩
    intro v hv heq
    rcases List.mem_append.mp hv with hv | hv
    · exact hle v hv heq
    · rw [List.mem_singleton.mp hv]
      exact not_lt.mp hge

/-- The first loop finds the lowest position of each sequence of the batch. -/
theorem lowestOfBatch_lookup (batch : List Token) (s : Int) :
    (∀ l, (lowestOfBatch batch).lookup s = some l → LowestOf batch s l) ∧
      ((lowestOfBatch batch).lookup s = none → ∀ t ∈ batch, t.seq ≠ s) := by
  unfold lowestOfBatch
  induction batch using List.reverseRecOn with
  | nil => simp
  | append_singleton batch t ih =>
    rw [List.foldl_append, List.foldl_cons, List.foldl_nil, noteLowest_lookup]
    obtain ⟨hsome, hnone⟩ := ih
    by_cases hs : s = t.seq
    · rw [if_pos hs]
      refine ⟨?_, by simp⟩
      intro l hl
      injection hl with hl
      subst hl
      split
      · rename_i hm
        subst hs
        exact LowestOf.single batch t (hnone hm)
      · rename_i l hm
        exact (hsome l hm).snoc t hs.symm
    · rw [if_neg hs]
      constructor
      · intro l hl
        obtain ⟨hcur, ⟨u, hu, hus, hup⟩, hle⟩ := hsome l hl
        refine ⟨hcur, ⟨u, by simp [hu], hus, hup⟩, ?_⟩
        intro v hv heq
        rcases List.mem_append.mp hv with hv | hv
        · exact hle v hv heq
        · rw [List.mem_singleton.mp hv] at heq
          exact absurd heq.symm hs
      · intro hm v hv heq
        rcases List.mem_append.mp hv with hv | hv
        · exact hnone hm v hv heq
        · rw [List.mem_singleton.mp hv] at heq
          exact hs heq.symm

theorem noteIdle_lookup (c : Causal) (m : GoMap Int LowestPosition) (e : (_ : Int) × CellRange)
    (s : Int) :
    (c.noteIdle m e).lookup s =
      (m.lookup s).or (if s = e.1 then some ⟨i32 (c.lastPosition e.1 e.2 + 1), false⟩ else none) := by
  unfold noteIdle
  split <;> rename_i hm
  · split
    · rename_i heq
      rw [heq, hm]
      rfl
    · rw [Option.or_none]
  · rw [GoMap.lookup_insert_ite]
    split
    · rename_i heq
      rw [heq, hm]
      rfl
    · rw [Option.or_none]

/-- The second loop adds the sequences that only the cache knows. -/
theorem noteIdle_foldl_lookup (c : Causal) (es : List ((_ : Int) × CellRange))
    (m : GoMap Int LowestPosition) (s : Int) :
    (es.foldl c.noteIdle m).lookup s =
      (m.lookup s).or ((es.dlookup s).map fun r => ⟨i32 (c.lastPosition s r + 1), false⟩) := by
  induction es generalizing m with
  | nil => simp
  | cons e rest ih =>
    rw [List.foldl_cons, ih, noteIdle_lookup, Option.or_assoc]
    congr 1
    obtain ⟨k, r⟩ := e
    by_cases hs : s = k
    · subst hs
      simp
    · rw [List.dlookup_cons_ne _ _ hs]
      simp [hs]

theorem lowestPos_lookup (c : Causal) (s : Int) :
    c.lowestPos.lookup s =
      ((lowestOfBatch c.curBatch).lookup s).or
        ((c.cellRanges.lookup s).map fun r => ⟨i32 (c.lastPosition s r + 1), false⟩) :=
  noteIdle_foldl_lookup c c.cellRanges.entries _ s

/-- A sequence of the batch is visited with its lowest position there. -/
theorem lowestPos_batch (c : Causal) {t : Token} (ht : t ∈ c.curBatch) :
    ∃ lowest, c.lowestPos.lookup t.seq = some lowest ∧ LowestOf c.curBatch t.seq lowest := by
  obtain ⟨hsome, hnone⟩ := lowestOfBatch_lookup c.curBatch t.seq
  cases hl : (lowestOfBatch c.curBatch).lookup t.seq with
  | none => exact absurd rfl (hnone hl t ht)
  | some l => exact ⟨l, by rw [lowestPos_lookup, hl]; rfl, hsome l hl⟩

/-- A stored sequence outside the batch is visited one past its last position. -/
theorem lowestPos_idle (c : Causal) {s : Int} (hs : ∀ t ∈ c.curBatch, t.seq ≠ s) {r : CellRange}
    (hr : c.cellRanges.lookup s = some r) :
    c.lowestPos.lookup s = some ⟨i32 (c.lastPosition s r + 1), false⟩ := by
  obtain ⟨hsome, -⟩ := lowestOfBatch_lookup c.curBatch s
  rw [lowestPos_lookup, hr]
  cases hl : (lowestOfBatch c.curBatch).lookup s with
  | none => rfl
  | some l =>
    obtain ⟨t, ht, heq, -⟩ := (hsome l hl).attained
    exact absurd heq (hs t ht)

/-! ## The current range -/

theorem slideSequence_grows (lowestPos : GoMap Int LowestPosition) (c : Causal) (seq : Int) :
    (slideSequence lowestPos c seq).curCellRange.min ≤ c.curCellRange.min ∧
      c.curCellRange.max ≤ (slideSequence lowestPos c seq).curCellRange.max := by
  unfold slideSequence
  split
  · exact extendWhere_grows _ _ _
  · exact ⟨Nat.le_refl _, Nat.le_refl _⟩

theorem slide_grows (lowestPos : GoMap Int LowestPosition) (order : List Int) (c : Causal) :
    (order.foldl (slideSequence lowestPos) c).curCellRange.min ≤ c.curCellRange.min ∧
      c.curCellRange.max ≤ (order.foldl (slideSequence lowestPos) c).curCellRange.max := by
  induction order generalizing c with
  | nil => exact ⟨Nat.le_refl _, Nat.le_refl _⟩
  | cons seq rest ih =>
    obtain ⟨hmin, hmax⟩ := ih (slideSequence lowestPos c seq)
    obtain ⟨hmin', hmax'⟩ := slideSequence_grows lowestPos c seq
    exact ⟨hmin.trans hmin', hmax'.trans hmax⟩

/-- Sliding a sequence of the batch takes in the cells of its window. -/
theorem slideSequence_window {c : Causal} (hcov : c.Covered)
    {lowestPos : GoMap Int LowestPosition} {s p : Int} {j : Nat} {lowest : LowestPosition}
    (hl : lowestPos.lookup s = some lowest) (hcur : lowest.curBatch = true)
    (hst : c.Stores s p j) (hp : i32 (lowest.pos - c.swaWindowSize) ≤ p) :
    (slideSequence lowestPos c s).curCellRange.has j = true := by
  obtain ⟨r, hr, hhas⟩ := hcov s p j hst
  obtain ⟨cell, hcell, hs, rfl⟩ := hst
  unfold slideSequence
  rw [hl, hr]
  refine extendWhere_has hcell ?_
  simp [hhas, hs, hcur, hp]

theorem slide_window {c : Causal} (hcov : c.Covered) {lowestPos : GoMap Int LowestPosition}
    {order : List Int} {s p : Int} {j : Nat} {lowest : LowestPosition} (hmem : s ∈ order)
    (hl : lowestPos.lookup s = some lowest) (hcur : lowest.curBatch = true)
    (hst : (order.foldl (slideSequence lowestPos) c).Stores s p j)
    (hp : i32 (lowest.pos - c.swaWindowSize) ≤ p) :
    (order.foldl (slideSequence lowestPos) c).curCellRange.has j = true := by
  induction order generalizing c with
  | nil => simp at hmem
  | cons seq rest ih =>
    rw [List.foldl_cons] at hst ⊢
    have hcov' := slideSequence_covered hcov lowestPos seq
    rcases List.mem_cons.mp hmem with rfl | hrest
    · have hst0 : c.Stores s p j :=
        ((slideSequence_stores hcov lowestPos s s p j).mp
          ((slide_stores hcov' lowestPos rest s p j).mp hst).1).1
      have hhas := slideSequence_window hcov hl hcur hst0 hp
      have hgrow := slide_grows lowestPos rest (slideSequence lowestPos c s)
      simp only [CellRange.has_iff] at hhas ⊢
      omega
    · refine ih hcov' hrest hst ?_
      rw [window_eq_of_frame (slideSequence_frame lowestPos c seq)]
      exact hp

theorem coverSequence_eq (c : Causal) (t : Token) :
    coverSequence c t = { c with curCellRange := (coverSequence c t).curCellRange } := by
  unfold coverSequence
  split <;> rfl

/-- The full-cache loop only moves the current range, and takes in every range of the batch. -/
theorem cover_foldl (batch : List Token) (c : Causal) :
    batch.foldl coverSequence c =
        { c with curCellRange := (batch.foldl coverSequence c).curCellRange } ∧
      (batch.foldl coverSequence c).curCellRange.min ≤ c.curCellRange.min ∧
      c.curCellRange.max ≤ (batch.foldl coverSequence c).curCellRange.max ∧
      ∀ t ∈ batch, ∀ r, c.cellRanges.lookup t.seq = some r →
        (batch.foldl coverSequence c).curCellRange.min ≤ r.min ∧
          r.max ≤ (batch.foldl coverSequence c).curCellRange.max := by
  induction batch generalizing c with
  | nil => simp
  | cons t rest ih =>
    rw [List.foldl_cons]
    obtain ⟨heq, hmin, hmax, hall⟩ := ih (coverSequence c t)
    have hfirst := coverSequence_eq c t
    have hgrow : (coverSequence c t).curCellRange.min ≤ c.curCellRange.min ∧
        c.curCellRange.max ≤ (coverSequence c t).curCellRange.max ∧
        ∀ r, c.cellRanges.lookup t.seq = some r →
          (coverSequence c t).curCellRange.min ≤ r.min ∧
            r.max ≤ (coverSequence c t).curCellRange.max := by
      unfold coverSequence
      split
      · rename_i hnone
        refine ⟨Nat.le_refl _, Nat.le_refl _, fun r hr => ?_⟩
        rw [hnone] at hr
        cases hr
      · rename_i r hr
        refine ⟨Nat.min_le_left _ _, Nat.le_max_left _ _, fun r' hr' => ?_⟩
        rw [hr] at hr'
        injection hr' with hr'
        subst hr'
        exact ⟨Nat.min_le_right _ _, Nat.le_max_right _ _⟩
    refine ⟨?_, hmin.trans hgrow.1, hgrow.2.1.trans hmax, ?_⟩
    · rw [heq, hfirst]
    · intro u hu r hr
      rcases List.mem_cons.mp hu with rfl | hu
      · have := hgrow.2.2 r hr
        omega
      · refine hall u hu r ?_
        rw [hfirst]
        exact hr

/-! ## `findLocs` -/

/-- Cell `i` holds nothing. -/
def Free (c : Causal) (i : Nat) : Prop :=
  ∃ cell, c.cells[i]? = some cell ∧ cell.sequences = []

theorem Free.lt {c : Causal} {i : Nat} (h : c.Free i) : i < c.cells.length := by
  obtain ⟨cell, hcell, -⟩ := h
  exact (List.getElem?_eq_some_iff.mp hcell).1

theorem Free.not_stores {c : Causal} {i : Nat} (h : c.Free i) (s p : Int) : ¬c.Stores s p i := by
  rintro ⟨cell, hcell, hs, -⟩
  obtain ⟨cell', hcell', hfree⟩ := h
  rw [hcell] at hcell'
  injection hcell' with heq
  rw [heq, hfree] at hs
  exact absurd hs (List.not_mem_nil)

/-- The locations found are distinct free cells, as many as were asked for. -/
theorem findLocsFrom_spec (n i : Nat) (cells : List CacheCell) (loc locs : List Nat)
    (hloc : ∀ l ∈ loc, l < i) (hnd : loc.Nodup) (hlt : loc.length < n)
    (h : findLocsFrom n i cells loc = some locs) :
    locs.length = n ∧ locs.Nodup ∧
      ∀ l ∈ locs, l ∈ loc ∨ ∃ k cell, cells[k]? = some cell ∧ cell.sequences = [] ∧ l = i + k := by
  induction cells generalizing i loc with
  | nil => simp [findLocsFrom] at h
  | cons cell rest ih =>
    have hshift : ∀ l, (∃ k cell', rest[k]? = some cell' ∧ cell'.sequences = [] ∧ l = i + 1 + k) →
        ∃ k cell', (cell :: rest)[k]? = some cell' ∧ cell'.sequences = [] ∧ l = i + k := by
      rintro l ⟨k, cell', hk, hfree, rfl⟩
      exact ⟨k + 1, cell', by simpa using hk, hfree, by omega⟩
    simp only [findLocsFrom] at h
    by_cases hfree : cell.sequences = []
    · rw [if_pos hfree] at h
      have hmem : ∀ l ∈ loc ++ [i], l < i + 1 := by
        intro l hl
        rcases List.mem_append.mp hl with hl | hl
        · have := hloc l hl
          omega
        · rw [List.mem_singleton.mp hl]
          omega
      have hnd' : (loc ++ [i]).Nodup := by
        rw [List.nodup_append]
        refine ⟨hnd, by simp, ?_⟩
        intro a ha b hb
        rw [List.mem_singleton.mp hb]
        have := hloc a ha
        omega
      have hhead : ∀ l ∈ loc ++ [i], l ∈ loc ∨
          ∃ k cell', (cell :: rest)[k]? = some cell' ∧ cell'.sequences = [] ∧ l = i + k := by
        intro l hl
        rcases List.mem_append.mp hl with hl | hl
        · exact .inl hl
        · exact .inr ⟨0, cell, rfl, hfree, by rw [List.mem_singleton.mp hl, Nat.add_zero]⟩
      split at h
      · rename_i hdone
        injection h with h
        subst h
        refine ⟨?_, hnd', hhead⟩
        simp only [List.length_append, List.length_singleton] at hdone ⊢
        omega
      · rename_i hmore
        obtain ⟨hlen, hnodup, hall⟩ := ih (i + 1) (loc ++ [i]) hmem hnd' (by omega) h
        refine ⟨hlen, hnodup, fun l hl => ?_⟩
        rcases hall l hl with hl | hl
        · exact hhead l hl
        · exact .inr (hshift l hl)
    · rw [if_neg hfree] at h
      obtain ⟨hlen, hnodup, hall⟩ :=
        ih (i + 1) loc (fun l hl => (hloc l hl).trans (Nat.lt_succ_self i)) hnd hlt h
      exact ⟨hlen, hnodup, fun l hl => (hall l hl).imp id (hshift l)⟩

/-- Enough free cells and the search succeeds. -/
theorem findLocsFrom_isSome (n i : Nat) (cells : List CacheCell) (loc : List Nat)
    (hlt : loc.length < n)
    (h : n ≤ loc.length + cells.countP (fun cell => cell.sequences = [])) :
    ∃ locs, findLocsFrom n i cells loc = some locs := by
  induction cells generalizing i loc with
  | nil =>
    simp only [List.countP_nil] at h
    omega
  | cons cell rest ih =>
    simp only [findLocsFrom]
    by_cases hfree : cell.sequences = []
    · rw [if_pos hfree]
      rw [List.countP_cons_of_pos (by simp [hfree])] at h
      split
      · exact ⟨_, rfl⟩
      · rename_i hmore
        refine ih (i + 1) (loc ++ [i]) (by omega) ?_
        simp only [List.length_append, List.length_singleton]
        omega
    · rw [if_neg hfree]
      rw [List.countP_cons_of_neg (by simp [hfree])] at h
      exact ih (i + 1) loc hlt h

theorem findLocs_spec {c : Causal} {locs : List Nat} (hne : c.curBatch ≠ [])
    (h : c.findLocs = some locs) :
    locs.length = c.curBatch.length ∧ locs.Nodup ∧ ∀ l ∈ locs, c.Free l := by
  obtain ⟨hlen, hnd, hall⟩ := findLocsFrom_spec c.curBatch.length 0 c.cells [] locs
    (by simp) List.nodup_nil (List.length_pos_iff.mpr hne) h
  refine ⟨hlen, hnd, fun l hl => ?_⟩
  rcases hall l hl with hl | ⟨k, cell, hk, hfree, rfl⟩
  · simp at hl
  · rw [Nat.zero_add]
    exact ⟨cell, hk, hfree⟩

/-! ## Storing the batch -/

theorem storeToken_frame (c : Causal) (t : Token) (loc : Nat) :
    (c.storeToken t loc).frame = c.frame := by
  simp [storeToken, frame]

theorem storeToken_stores {c : Causal} {loc : Nat} (hfree : c.Free loc) (t : Token) (s p : Int)
    (j : Nat) :
    (c.storeToken t loc).Stores s p j ↔
      c.Stores s p j ∨ (j = loc ∧ s = t.seq ∧ p = t.pos) := by
  have hlt := hfree.lt
  unfold Stores
  simp only [storeToken]
  by_cases hj : loc = j
  · subst hj
    rw [List.getElem?_set_self hlt]
    constructor
    · rintro ⟨cell, hcell, hs, rfl⟩
      injection hcell with hcell
      subst hcell
      exact .inr ⟨rfl, by simpa using hs, rfl⟩
    · rintro (hst | ⟨-, rfl, rfl⟩)
      · exact absurd hst (hfree.not_stores s p)
      · exact ⟨_, rfl, by simp, rfl⟩
  · rw [List.getElem?_set_ne hj]
    constructor
    · exact .inl
    · rintro (hst | ⟨rfl, -, -⟩)
      · exact hst
      · exact absurd rfl hj

theorem storeToken_free {c : Causal} {t : Token} {loc i : Nat} (hne : i ≠ loc) (h : c.Free i) :
    (c.storeToken t loc).Free i := by
  obtain ⟨cell, hcell, hfree⟩ := h
  exact ⟨cell, by simpa [storeToken, List.getElem?_set_ne (Ne.symm hne)] using hcell, hfree⟩

theorem storeToken_covered {c : Causal} (hcov : c.Covered) {loc : Nat} (hfree : c.Free loc)
    (t : Token) : (c.storeToken t loc).Covered := by
  intro s p j hst
  simp only [storeToken, GoMap.lookup_insert_ite]
  rcases (storeToken_stores hfree t s p j).mp hst with hold | ⟨rfl, rfl, rfl⟩
  · obtain ⟨r, hr, hhas⟩ := hcov s p j hold
    by_cases heq : s = t.seq
    · subst heq
      rw [if_pos rfl, hr]
      refine ⟨_, rfl, ?_⟩
      have hmin := extend_min_le r loc
      have hmax := le_extend_max r loc
      simp only [Option.getD_some, CellRange.has_iff] at hhas ⊢
      omega
    · rw [if_neg heq]
      exact ⟨r, hr, hhas⟩
  · rw [if_pos rfl]
    refine ⟨_, rfl, ?_⟩
    simp only [CellRange.has_iff, CellRange.extend]
    exact ⟨Nat.min_le_right _ _, Nat.le_max_right _ _⟩

/-- Distinct free cells take the tokens; nothing else changes. -/
theorem storeBatch_spec (xs : List (Token × Nat)) :
    ∀ c : Causal, (xs.map Prod.snd).Nodup → (∀ x ∈ xs, c.Free x.2) →
      (c.storeBatch xs).frame = c.frame ∧
      (c.Covered → (c.storeBatch xs).Covered) ∧
      (∀ s p j, (c.storeBatch xs).Stores s p j ↔ c.Stores s p j ∨ (⟨s, p⟩, j) ∈ xs) ∧
      (c.storeBatch xs).curCellRange.min ≤ c.curCellRange.min ∧
      c.curCellRange.max ≤ (c.storeBatch xs).curCellRange.max ∧
      ∀ x ∈ xs, (c.storeBatch xs).curCellRange.has x.2 = true := by
  induction xs with
  | nil =>
    intro c _ _
    simp [storeBatch]
  | cons x rest ih =>
    intro c hnd hfree
    obtain ⟨t, loc⟩ := x
    simp only [List.map_cons, List.nodup_cons] at hnd
    have hloc : c.Free loc := hfree (t, loc) List.mem_cons_self
    have hrest : ∀ x ∈ rest, (c.storeToken t loc).Free x.2 := by
      intro x hx
      refine storeToken_free ?_ (hfree x (List.mem_cons_of_mem _ hx))
      exact fun heq => hnd.1 (heq ▸ List.mem_map_of_mem hx)
    obtain ⟨hframe, hcov, hst, hmin, hmax, hhas⟩ := ih (c.storeToken t loc) hnd.2 hrest
    change ((c.storeToken t loc).storeBatch rest).frame = c.frame ∧ _
    have hmin0 : (c.storeToken t loc).curCellRange.min ≤ c.curCellRange.min :=
      extend_min_le c.curCellRange loc
    have hmax0 : c.curCellRange.max ≤ (c.storeToken t loc).curCellRange.max :=
      le_extend_max c.curCellRange loc
    refine ⟨hframe.trans (storeToken_frame c t loc),
      fun h => hcov (storeToken_covered h hloc t), ?_, hmin.trans hmin0, hmax0.trans hmax, ?_⟩
    · intro s p j
      change ((c.storeToken t loc).storeBatch rest).Stores s p j ↔ _
      rw [hst, storeToken_stores hloc, List.mem_cons, or_assoc]
      refine or_congr_right (or_congr_left ?_)
      rw [Prod.mk.injEq]
      constructor
      · rintro ⟨rfl, rfl, rfl⟩
        exact ⟨rfl, rfl⟩
      · rintro ⟨rfl, rfl⟩
        exact ⟨rfl, rfl, rfl⟩
    · intro x hx
      change ((c.storeToken t loc).storeBatch rest).curCellRange.has x.2 = true
      rcases List.mem_cons.mp hx with rfl | hx
      · have h1 : (c.storeToken t loc).curCellRange.min ≤ loc := Nat.min_le_right _ _
        have h2 : loc ≤ (c.storeToken t loc).curCellRange.max := Nat.le_max_right _ _
        simp only [CellRange.has_iff]
        omega
      · exact hhas x hx

/-! ## `CopyPrefix` -/

theorem mem_copyCell {srcSeq dstSeq : Int} (hne : srcSeq ≠ dstSeq) (len : Int)
    (cell : CacheCell) (s : Int) :
    s ∈ (copyCell srcSeq dstSeq len cell).sequences ↔
      if s = dstSeq then srcSeq ∈ cell.sequences ∧ cell.pos < len else s ∈ cell.sequences := by
  have hcond : srcSeq ∈ (cell.delete dstSeq).sequences ∧ (cell.delete dstSeq).pos < len ↔
      srcSeq ∈ cell.sequences ∧ cell.pos < len := by
    simp [hne]
  simp only [copyCell]
  by_cases hcopy : srcSeq ∈ cell.sequences ∧ cell.pos < len
  · rw [if_pos (hcond.mpr hcopy)]
    by_cases hs : s = dstSeq <;> simp [hs, hcopy]
  · rw [if_neg (fun h => hcopy (hcond.mp h))]
    by_cases hs : s = dstSeq <;> simp [hs, hcopy]

@[simp] theorem copyCell_pos (srcSeq dstSeq len : Int) (cell : CacheCell) :
    (copyCell srcSeq dstSeq len cell).pos = cell.pos := by
  simp only [copyCell]
  split <;> rfl

theorem copyPrefix_frame (c : Causal) (srcSeq dstSeq len : Int) :
    (c.copyPrefix srcSeq dstSeq len).frame = c.frame := by
  simp [copyPrefix, frame]

theorem map_eq_mapIdx {α β : Type*} (f : α → β) (xs : List α) :
    xs.map f = xs.mapIdx fun _ => f := by
  induction xs with
  | nil => rfl
  | cons x rest ih => rw [List.map_cons, List.mapIdx_cons, ih]

theorem stores_map {c c' : Causal} {f : CacheCell → CacheCell} (h : c'.cells = c.cells.map f)
    (s p : Int) (j : Nat) :
    c'.Stores s p j ↔ ∃ cell, c.cells[j]? = some cell ∧ s ∈ (f cell).sequences ∧ (f cell).pos = p :=
  stores_mapIdx (f := fun _ => f) (h.trans (map_eq_mapIdx f c.cells)) s p j

/-- The destination holds the source's positions below `len` and nothing else. -/
theorem copyPrefix_stores {srcSeq dstSeq : Int} (hne : srcSeq ≠ dstSeq) (c : Causal)
    (len s p : Int) (j : Nat) :
    (c.copyPrefix srcSeq dstSeq len).Stores s p j ↔
      if s = dstSeq then c.Stores srcSeq p j ∧ p < len else c.Stores s p j := by
  rw [stores_map (c := c) (f := copyCell srcSeq dstSeq len) rfl]
  simp only [mem_copyCell hne, copyCell_pos]
  by_cases hs : s = dstSeq
  · simp only [hs, if_true]
    constructor
    · rintro ⟨cell, hcell, ⟨hsrc, hlt⟩, rfl⟩
      exact ⟨⟨cell, hcell, hsrc, rfl⟩, hlt⟩
    · rintro ⟨⟨cell, hcell, hsrc, rfl⟩, hlt⟩
      exact ⟨cell, hcell, ⟨hsrc, hlt⟩, rfl⟩
  · simp only [hs, if_false]
    rfl

theorem copyPrefix_covered {c : Causal} (hcov : c.Covered) {srcSeq dstSeq : Int}
    (hne : srcSeq ≠ dstSeq) (len : Int) : (c.copyPrefix srcSeq dstSeq len).Covered := by
  intro s p j hst
  have hold := (copyPrefix_stores hne c len s p j).mp hst
  obtain ⟨cell, hcell, hs, rfl⟩ := hst
  simp only [copyPrefix, GoMap.lookup_insert_ite] at hcell ⊢
  by_cases heq : s = dstSeq
  · rw [if_pos heq]
    exact ⟨_, rfl, extendWhere_has hcell (by simpa [heq] using hs)⟩
  · rw [if_neg heq]
    rw [if_neg heq] at hold
    exact hcov s _ j hold

/-! ## `Remove` -/

/-- What the loop of `Remove` does to a cell it passes. -/
def removeCell (seq beginIndex endIndex offset : Int) (cell : CacheCell) : CacheCell :=
  if seq ∈ cell.sequences then
    if beginIndex ≤ cell.pos ∧ cell.pos < endIndex then cell.delete seq
    else if endIndex ≤ cell.pos then { cell with pos := i32 (cell.pos + offset) }
    else cell
  else cell

/-- The loop rewrites a prefix of the cells, all of them unless it fails, and
shifts only cells that no other sequence references. -/
theorem removeLoop_eq (seq b e offset : Int) (cells : List CacheCell) :
    ∃ k, (removeLoop seq b e offset cells).1 =
        cells.mapIdx (fun i cell => if i < k then removeCell seq b e offset cell else cell) ∧
      ((removeLoop seq b e offset cells).2 = false → cells.length ≤ k) ∧
      ∀ i cell, cells[i]? = some cell → i < k → seq ∈ cell.sequences → e ≤ cell.pos →
        ∀ s ∈ cell.sequences, s = seq := by
  induction cells with
  | nil => exact ⟨0, rfl, fun _ => Nat.le_refl _, by simp⟩
  | cons cell rest ih =>
    obtain ⟨k, hk, hlen, hown⟩ := ih
    -- a cell that the loop passes
    have hpass : ∀ out : CacheCell, out = removeCell seq b e offset cell →
        (seq ∈ cell.sequences → e ≤ cell.pos → ∀ s ∈ cell.sequences, s = seq) →
        ∃ k, out :: (removeLoop seq b e offset rest).1 =
            (cell :: rest).mapIdx (fun i c => if i < k then removeCell seq b e offset c else c) ∧
          ((removeLoop seq b e offset rest).2 = false → (cell :: rest).length ≤ k) ∧
          ∀ i c, (cell :: rest)[i]? = some c → i < k → seq ∈ c.sequences → e ≤ c.pos →
            ∀ s ∈ c.sequences, s = seq := by
      rintro out rfl hhead
      refine ⟨k + 1, ?_, fun hok => Nat.succ_le_succ (hlen hok), ?_⟩
      · rw [List.mapIdx_cons, hk, if_pos (Nat.succ_pos k)]
        simp
      · intro i c hc hi
        cases i with
        | zero =>
          simp only [List.getElem?_cons_zero, Option.some.injEq] at hc
          subst hc
          exact hhead
        | succ i => exact hown i c (by simpa using hc) (by omega)
    simp only [removeLoop]
    split
    · rename_i hmem
      simp only [List.contains_eq_mem, decide_eq_true_eq] at hmem
      split
      · rename_i hin
        exact hpass _ (by simp [removeCell, hmem, hin]) (fun _ hle => by omega)
      · rename_i hout
        split
        · rename_i hge
          split
          · exact ⟨0, by simp [List.mapIdx_eq_zipIdx_map], by simp, by simp⟩
          · rename_i hsole
            refine hpass _ (by simp [removeCell, hmem, hge, hout]) ?_
            intro _ _ s hs
            simp only [List.any_eq_true, not_exists, not_and, bne_iff_ne, ne_eq, not_not] at hsole
            exact hsole s hs
        · rename_i hlt
          exact hpass _ (by simp [removeCell, hmem, hlt, hout]) (fun _ hle => absurd hle hlt)
    · rename_i hmem
      simp only [List.contains_eq_mem, decide_eq_true_eq] at hmem
      exact hpass _ (by simp [removeCell, hmem]) (fun hin => absurd hin hmem)

theorem resetRange_cells (c : Causal) (seq e : Int) (backend : Option KvError) :
    (c.resetRange seq e backend).1.cells = c.cells := by
  simp only [resetRange]
  split <;> rfl

theorem resetRange_frame (c : Causal) (seq e : Int) (backend : Option KvError) :
    (c.resetRange seq e backend).1.frame = c.frame := by
  simp only [resetRange]
  split <;> rfl

/-- Only the loop reports a shared cell, unless the backend does. -/
theorem resetRange_error (c : Causal) (seq e : Int) {backend : Option KvError}
    (hbackend : backend ≠ some .sharedCells) :
    (c.resetRange seq e backend).2 ≠ some .sharedCells := by
  simp only [resetRange, shift]
  split
  · simp
  · split
    · split
      · exact hbackend
      · simp
    · simp

/-- The call failed on a shared cell, before it was through the cells. -/
def removeFails (c : Causal) (seq b e : Int) : Bool :=
  (removeLoop seq b e (removeOffset b e) c.cells).2

theorem remove_of_fails {c : Causal} {seq b e : Int} (backend : Option KvError)
    (hfail : c.removeFails seq b e = true) :
    c.remove seq b e backend =
      ({ c with cells := (removeLoop seq b e (removeOffset b e) c.cells).1 }, some .sharedCells) :=
  if_pos hfail

theorem remove_of_ok {c : Causal} {seq b e : Int} (backend : Option KvError)
    (hok : c.removeFails seq b e = false) :
    c.remove seq b e backend =
      ({ c with cells := (removeLoop seq b e (removeOffset b e) c.cells).1 } : Causal).resetRange
        seq e backend := by
  unfold removeFails at hok
  simp [remove, hok]

theorem remove_cells (c : Causal) (seq b e : Int) (backend : Option KvError) :
    (c.remove seq b e backend).1.cells = (removeLoop seq b e (removeOffset b e) c.cells).1 := by
  cases h : c.removeFails seq b e with
  | true => rw [remove_of_fails backend h]
  | false => rw [remove_of_ok backend h, resetRange_cells]

theorem remove_frame (c : Causal) (seq b e : Int) (backend : Option KvError) :
    (c.remove seq b e backend).1.frame = c.frame := by
  obtain ⟨k, hk, -⟩ := removeLoop_eq seq b e (removeOffset b e) c.cells
  cases h : c.removeFails seq b e with
  | true =>
    rw [remove_of_fails backend h]
    simp [frame, hk]
  | false =>
    rw [remove_of_ok backend h, resetRange_frame]
    simp [frame, hk]

theorem remove_error {c : Causal} {seq b e : Int} {backend : Option KvError}
    (hbackend : backend ≠ some .sharedCells) :
    (c.remove seq b e backend).2 = some .sharedCells ↔ c.removeFails seq b e = true := by
  cases h : c.removeFails seq b e with
  | true => simp [remove_of_fails backend h]
  | false =>
    rw [remove_of_ok backend h]
    simpa using resetRange_error _ _ _ hbackend

/-- Whatever becomes of the call, other sequences keep their cells. -/
theorem remove_stores_ne {c : Causal} {seq b e s p : Int} {j : Nat} {backend : Option KvError}
    (hs : s ≠ seq) : (c.remove seq b e backend).1.Stores s p j ↔ c.Stores s p j := by
  obtain ⟨k, hk, -, hown⟩ := removeLoop_eq seq b e (removeOffset b e) c.cells
  rw [stores_mapIdx ((remove_cells c seq b e backend).trans hk)]
  unfold Stores
  refine exists_congr fun cell => and_congr_right fun hcell => ?_
  split
  · rename_i hj
    unfold removeCell
    split
    · rename_i hmem
      split
      · simp [hs]
      · split
        · rename_i hge
          have hsole : s ∉ cell.sequences :=
            fun hin => hs (hown j cell hcell hj hmem hge s hin)
          simp [hsole]
        · rfl
    · rfl
  · rfl

/-- What may be left of the sequence itself, also when the call fails half-way. -/
theorem remove_stores_self {c : Causal} {seq b e p : Int} {j : Nat} {backend : Option KvError}
    (h : (c.remove seq b e backend).1.Stores seq p j) :
    c.Stores seq p j ∨ ∃ q, c.Stores seq q j ∧ e ≤ q ∧ p = i32 (q + removeOffset b e) := by
  obtain ⟨k, hk, -⟩ := removeLoop_eq seq b e (removeOffset b e) c.cells
  obtain ⟨cell, hcell, hs, rfl⟩ := (stores_mapIdx ((remove_cells c seq b e backend).trans hk) _ _ _).mp h
  split at hs
  · rename_i hj
    rw [if_pos hj]
    unfold removeCell at hs ⊢
    split at hs
    · rename_i hmem
      rw [if_pos hmem]
      split at hs
      · simp at hs
      · rename_i hout
        rw [if_neg hout]
        split at hs
        · rename_i hge
          rw [if_pos hge]
          exact .inr ⟨cell.pos, ⟨cell, hcell, hmem, rfl⟩, hge, rfl⟩
        · rename_i hge
          rw [if_neg hge]
          exact .inl ⟨cell, hcell, hmem, rfl⟩
    · rename_i hmem
      exact absurd hs hmem
  · rename_i hj
    rw [if_neg hj]
    exact .inl ⟨cell, hcell, hs, rfl⟩

/-- A call that gets through deletes `[b, e)` and shifts what lies beyond. -/
theorem remove_stores_of_ok {c : Causal} {seq b e p : Int} {j : Nat} {backend : Option KvError}
    (hok : c.removeFails seq b e = false) :
    (c.remove seq b e backend).1.Stores seq p j ↔
      ∃ q, c.Stores seq q j ∧ ¬(b ≤ q ∧ q < e) ∧
        p = if e ≤ q then i32 (q + removeOffset b e) else q := by
  obtain ⟨k, hk, hlen, -⟩ := removeLoop_eq seq b e (removeOffset b e) c.cells
  have hall := hlen hok
  rw [stores_mapIdx ((remove_cells c seq b e backend).trans hk)]
  constructor
  · rintro ⟨cell, hcell, hs, rfl⟩
    have hj : j < k := (List.getElem?_eq_some_iff.mp hcell).1.trans_le hall
    simp only [hj, if_true] at hs ⊢
    unfold removeCell at hs ⊢
    split at hs
    · rename_i hmem
      rw [if_pos hmem]
      split at hs
      · simp at hs
      · rename_i hout
        rw [if_neg hout]
        refine ⟨cell.pos, ⟨cell, hcell, hmem, rfl⟩, hout, ?_⟩
        split <;> rfl
    · rename_i hmem
      exact absurd hs hmem
  · rintro ⟨q, ⟨cell, hcell, hmem, rfl⟩, hout, rfl⟩
    have hj : j < k := (List.getElem?_eq_some_iff.mp hcell).1.trans_le hall
    refine ⟨cell, hcell, ?_⟩
    simp only [hj, if_true, removeCell, hmem, hout, if_false]
    split <;> exact ⟨hmem, rfl⟩

/-- A call that gets through shifted only cells of this sequence alone. -/
theorem remove_unshared_of_ok {c : Causal} {seq b e q s : Int} {j : Nat}
    (hok : c.removeFails seq b e = false) (hst : c.Stores seq q j) (hge : e ≤ q)
    (hs : c.Stores s q j) : s = seq := by
  obtain ⟨k, -, hlen, hown⟩ := removeLoop_eq seq b e (removeOffset b e) c.cells
  obtain ⟨cell, hcell, hmem, rfl⟩ := hst
  obtain ⟨cell', hcell', hmem', -⟩ := hs
  rw [hcell] at hcell'
  injection hcell' with heq
  subst heq
  have hj : j < k := (List.getElem?_eq_some_iff.mp hcell).1.trans_le (hlen hok)
  exact hown j cell hcell hj hmem hge s hmem'

theorem remove_covered {c : Causal} (hcov : c.Covered) (hlen : c.cells.length ≤ maxInt)
    (seq b e : Int) (backend : Option KvError) : (c.remove seq b e backend).1.Covered := by
  intro s p j hst
  have hframe := length_eq_of_frame (remove_frame c seq b e backend)
  by_cases hs : s = seq
  · subst hs
    cases hremove : c.removeFails s b e with
    | true =>
      -- the early return leaves the ranges alone, and no cell joins the sequence
      have hranges : (c.remove s b e backend).1.cellRanges = c.cellRanges := by
        rw [remove_of_fails backend hremove]
      rw [hranges]
      rcases remove_stores_self hst with h | ⟨q, h, -, -⟩
      · exact hcov s p j h
      · exact hcov s q j h
    | false =>
      obtain ⟨cell, hcell, hmem, -⟩ := hst
      have hmem' : cell.sequences.contains s = true := by simpa using hmem
      rw [remove_cells] at hcell hframe
      rw [remove_of_ok backend hremove]
      simp only [resetRange]
      rw [if_neg (extendWhere_ne_newRange (by rw [hframe]; exact hlen) hcell hmem')]
      simp only [GoMap.lookup_insert_ite, if_true]
      exact ⟨_, rfl, extendWhere_has hcell hmem'⟩
  · obtain ⟨r, hr, hhas⟩ := hcov s p j ((remove_stores_ne hs).mp hst)
    refine ⟨r, ?_, hhas⟩
    cases hremove : c.removeFails seq b e with
    | true =>
      rw [remove_of_fails backend hremove]
      exact hr
    | false =>
      rw [remove_of_ok backend hremove]
      simp only [resetRange]
      split
      · simp only [GoMap.lookup_erase_ite, hs, if_false]
        exact hr
      · simp only [GoMap.lookup_insert_ite, hs, if_false]
        exact hr

/-! ## Ranges in bounds -/

/-- The ranges kept for the sequences end within the cells. -/
def RangesLe (c : Causal) (bound : Nat) : Prop :=
  ∀ s r, c.cellRanges.lookup s = some r → r.max ≤ bound

theorem extendWhere_max_le {r : CellRange} {p : Nat → CacheCell → Bool} {cells : List CacheCell}
    (h : r.max ≤ cells.length - 1) : (extendWhere r p cells).max ≤ cells.length - 1 := by
  rcases extendFrom_max p 0 cells r with h' | h' <;> unfold extendWhere <;> omega

theorem rangesLe_insert {c c' : Causal} {bound : Nat} {seq : Int} {r : CellRange}
    (hins : c'.cellRanges = c.cellRanges.insert seq r) (hr : r.max ≤ bound)
    (h : c.RangesLe bound) : c'.RangesLe bound := by
  intro s r' hr'
  rw [hins, GoMap.lookup_insert_ite] at hr'
  split at hr'
  · injection hr' with hr'
    rw [← hr']
    exact hr
  · exact h s r' hr'

theorem slideSequence_bounds (lowestPos : GoMap Int LowestPosition) (c : Causal) (seq : Int)
    (hcur : c.curCellRange.max ≤ c.cells.length - 1) (h : c.RangesLe (c.cells.length - 1)) :
    (slideSequence lowestPos c seq).curCellRange.max ≤ c.cells.length - 1 ∧
      (slideSequence lowestPos c seq).RangesLe (c.cells.length - 1) := by
  unfold slideSequence
  split
  · exact ⟨extendWhere_max_le hcur,
      rangesLe_insert rfl (extendWhere_max_le (Nat.zero_le _)) h⟩
  · exact ⟨hcur, h⟩

theorem slide_bounds (lowestPos : GoMap Int LowestPosition) (order : List Int) (c : Causal)
    (hcur : c.curCellRange.max ≤ c.cells.length - 1) (h : c.RangesLe (c.cells.length - 1)) :
    (order.foldl (slideSequence lowestPos) c).curCellRange.max ≤ c.cells.length - 1 ∧
      (order.foldl (slideSequence lowestPos) c).RangesLe (c.cells.length - 1) := by
  induction order generalizing c with
  | nil => exact ⟨hcur, h⟩
  | cons seq rest ih =>
    obtain ⟨hcur', h'⟩ := slideSequence_bounds lowestPos c seq hcur h
    have hlen := length_eq_of_frame (slideSequence_frame lowestPos c seq)
    have := ih (slideSequence lowestPos c seq) (by rw [hlen]; exact hcur') (by rw [hlen]; exact h')
    rwa [hlen] at this

theorem cover_bounds (batch : List Token) (c : Causal) {bound : Nat}
    (hcur : c.curCellRange.max ≤ bound) (h : c.RangesLe bound) :
    (batch.foldl coverSequence c).curCellRange.max ≤ bound := by
  induction batch generalizing c with
  | nil => exact hcur
  | cons t rest ih =>
    rw [List.foldl_cons]
    refine ih _ ?_ ?_
    · unfold coverSequence
      split
      · exact hcur
      · rename_i r hr
        exact Nat.max_le.mpr ⟨hcur, h _ r hr⟩
    · rw [coverSequence_eq]
      exact h

theorem storeBatch_bounds (xs : List (Token × Nat)) (c : Causal) {bound : Nat}
    (hcur : c.curCellRange.max ≤ bound) (h : c.RangesLe bound) (hxs : ∀ x ∈ xs, x.2 ≤ bound) :
    (c.storeBatch xs).curCellRange.max ≤ bound ∧ (c.storeBatch xs).RangesLe bound := by
  induction xs generalizing c with
  | nil => exact ⟨hcur, h⟩
  | cons x rest ih =>
    have hx : x.2 ≤ bound := hxs x List.mem_cons_self
    refine ih (c.storeToken x.1 x.2) (Nat.max_le.mpr ⟨hcur, hx⟩) ?_
      (fun y hy => hxs y (List.mem_cons_of_mem _ hy))
    refine rangesLe_insert rfl (Nat.max_le.mpr ⟨?_, hx⟩) h
    cases hr : c.cellRanges.lookup x.1.seq with
    | none => exact Nat.zero_le _
    | some r => exact h _ r hr

/-! ## `updateSlidingWindow` as a whole -/

/-- The batch and the options of the current pass. -/
def entry (c : Causal) : List Token × List Nat := (c.curBatch, c.except)

theorem storeBatch_entry (xs : List (Token × Nat)) (c : Causal) :
    (c.storeBatch xs).entry = c.entry := by
  induction xs generalizing c with
  | nil => rfl
  | cons x rest ih => exact ih (c.storeToken x.1 x.2)

theorem slide_entry (lowestPos : GoMap Int LowestPosition) (order : List Int) (c : Causal) :
    (order.foldl (slideSequence lowestPos) c).entry = c.entry := by
  induction order generalizing c with
  | nil => rfl
  | cons seq rest ih =>
    rw [List.foldl_cons, ih]
    unfold slideSequence
    split <;> rfl

/-- A sliding-window cache deletes position `p` from sequence `s` in this pass. -/
def Evicted (c : Causal) (s p : Int) : Prop :=
  c.swaMemorySize ≠ maxInt32 ∧ ∃ lowest, c.lowestPos.lookup s = some lowest ∧
    p < i32 (lowest.pos - c.swaMemorySize)

/-- The pass before the search for cells: what is kept, and that the range of
the pass takes in every kept cell that a token of the batch may attend to. -/
structure Updated (c c' : Causal) : Prop where
  frame : c'.frame = c.frame
  entry : c'.entry = c.entry
  covered : c'.Covered
  stores : ∀ s p j, c'.Stores s p j ↔ c.Stores s p j ∧ ¬c.Evicted s p
  window : ∀ t ∈ c.curBatch, ∀ p j, c'.Stores t.seq p j →
    (∀ lowest, c.lowestPos.lookup t.seq = some lowest → i32 (lowest.pos - c.swaWindowSize) ≤ p) →
    c'.curCellRange.has j = true
  current : c'.curCellRange.max ≤ c.cells.length - 1
  ranges : c'.RangesLe (c.cells.length - 1)

theorem updateSlidingWindow_updated {c : Causal} (hcov : c.Covered)
    (hranges : c.RangesLe (c.cells.length - 1)) {order : List Int}
    (horder : order.Perm c.lowestPos.keys) : Updated c (c.updateSlidingWindow order) := by
  -- the passes start from the empty range
  have hcov0 : ({ c with curCellRange := newRange } : Causal).Covered := hcov
  unfold updateSlidingWindow
  by_cases hfull : c.swaMemorySize = maxInt32
  · simp only [hfull, if_true]
    obtain ⟨heq, -, -, hall⟩ := cover_foldl c.curBatch { c with curCellRange := newRange }
    have hzero : newRange.max ≤ c.cells.length - 1 := Nat.zero_le _
    have hcur := cover_bounds c.curBatch { c with curCellRange := newRange } hzero hranges
    rw [← hfull]
    refine ⟨by rw [heq]; rfl, by rw [heq]; rfl, ?_, ?_, ?_, hcur, by rw [heq]; exact hranges⟩
    · rw [heq]
      exact hcov
    · intro s p j
      rw [heq]
      exact ⟨fun hst => ⟨hst, fun hev => hev.1 hfull⟩, fun h => h.1⟩
    · intro t ht p j hst _
      rw [heq] at hst
      obtain ⟨r, hr, hhas⟩ := hcov t.seq p j hst
      have hr' := hall t ht r hr
      simp only [CellRange.has_iff] at hhas ⊢
      omega
  · simp only [hfull, if_false]
    have hlow : ({ c with curCellRange := newRange } : Causal).lowestPos = c.lowestPos := rfl
    rw [hlow]
    have hbounds := slide_bounds c.lowestPos order { c with curCellRange := newRange }
      (Nat.zero_le _) hranges
    refine ⟨slide_frame _ _ _, slide_entry _ _ _, slide_covered hcov0 _ _, ?_, ?_,
      hbounds.1, hbounds.2⟩
    · intro s p j
      rw [slide_stores hcov0]
      refine and_congr_right fun _ => not_congr ?_
      constructor
      · rintro ⟨-, lowest, hl, hlt⟩
        exact ⟨hfull, lowest, hl, hlt⟩
      · rintro ⟨-, lowest, hl, hlt⟩
        exact ⟨horder.mem_iff.mpr ((GoMap.mem_keys_iff _ _).mpr ⟨lowest, hl⟩), lowest, hl, hlt⟩
    · intro t ht p j hst hp
      obtain ⟨lowest, hl, hlow⟩ := lowestPos_batch c ht
      exact slide_window hcov0 (horder.mem_iff.mpr ((GoMap.mem_keys_iff _ _).mpr ⟨lowest, hl⟩)) hl
        hlow.curBatch hst (hp lowest hl)

/-! ## `StartForward` as a whole -/

theorem buildMask_frame (c : Causal) : c.buildMask.frame = c.frame := rfl

/-- A pass that finds cells for its batch: the state `c'` before `buildMask`. -/
structure Stored (c : Causal) (batch : List Token) (locs : List Nat) (c' : Causal) : Prop where
  frame : c'.frame = c.frame
  entry : c'.entry = (batch, [])
  covered : c'.Covered
  length : batch ≠ [] → locs.length = batch.length
  nodup : ((batch.zip locs).map Prod.snd).Nodup
  free : ∀ x ∈ batch.zip locs, x.2 < c.cells.length ∧
    ∀ s p, c.Stores s p x.2 → (c.withBatch batch).Evicted s p
  stores : ∀ s p j, c'.Stores s p j ↔
    (c.Stores s p j ∧ ¬(c.withBatch batch).Evicted s p) ∨ (⟨s, p⟩, j) ∈ batch.zip locs
  window : ∀ t ∈ batch, ∀ p j, c'.Stores t.seq p j →
    (∀ lowest, (c.withBatch batch).lowestPos.lookup t.seq = some lowest →
      i32 (lowest.pos - c.swaWindowSize) ≤ p) → c'.curCellRange.has j = true
  current : c'.curCellRange.max ≤ c.cells.length - 1
  ranges : c'.RangesLe (c.cells.length - 1)

theorem mem_zip_snd {α β : Type*} {xs : List α} {ys : List β} {x : α × β} (h : x ∈ xs.zip ys) :
    x.2 ∈ ys :=
  (List.of_mem_zip h).2

theorem map_snd_zip_sublist {α β : Type*} (xs : List α) (ys : List β) :
    ((xs.zip ys).map Prod.snd).Sublist ys := by
  induction xs generalizing ys with
  | nil => simp
  | cons x rest ih =>
    cases ys with
    | nil => simp
    | cons y ys => exact (ih ys).cons_cons y

/-- The locations `findLocs` returns fit the batch. -/
theorem findLocs_zip {c : Causal} {locs : List Nat} (h : c.findLocs = some locs) :
    (c.curBatch ≠ [] → locs.length = c.curBatch.length) ∧
      ((c.curBatch.zip locs).map Prod.snd).Nodup ∧ ∀ x ∈ c.curBatch.zip locs, c.Free x.2 := by
  by_cases hne : c.curBatch = []
  · simp [hne]
  · obtain ⟨hlen, hnd, hfree⟩ := findLocs_spec hne h
    exact ⟨fun _ => hlen, hnd.sublist (map_snd_zip_sublist _ _), fun x hx => hfree _ (mem_zip_snd hx)⟩

theorem Updated.stored {c c' : Causal} {batch : List Token} (h : Updated (c.withBatch batch) c')
    {locs : List Nat} (hlocs : c'.findLocs = some locs) :
    Stored c batch locs (c'.storeBatch (batch.zip locs)) := by
  have hbatch : c'.curBatch = batch := congrArg Prod.fst h.entry
  have hlenEq : c'.cells.length = c.cells.length := length_eq_of_frame h.frame
  obtain ⟨hlen, hnd, hfree⟩ := findLocs_zip hlocs
  rw [hbatch] at hlen hnd hfree
  obtain ⟨hframe, hcov, hst, hmin, hmax, hhas⟩ := storeBatch_spec (batch.zip locs) c' hnd hfree
  have hin : ∀ x ∈ batch.zip locs, x.2 < c.cells.length := fun x hx => by
    have := (hfree x hx).lt
    omega
  have hbounds := storeBatch_bounds (batch.zip locs) c' h.current h.ranges
    (fun x hx => by
      have := hin x hx
      change x.2 ≤ c.cells.length - 1
      omega)
  refine
    { frame := hframe.trans h.frame
      entry := ?_
      covered := hcov h.covered
      length := hlen
      nodup := hnd
      free := ?_
      stores := ?_
      window := ?_
      current := hbounds.1
      ranges := hbounds.2 }
  · rw [storeBatch_entry]
    exact h.entry
  · intro x hx
    refine ⟨hin x hx, fun s p hold => ?_⟩
    by_contra hkept
    exact (hfree x hx).not_stores s p ((h.stores s p x.2).mpr ⟨hold, hkept⟩)
  · intro s p j
    rw [hst, h.stores]
    rfl
  · intro t ht p j hstored hp
    rcases (hst _ _ _).mp hstored with hold | hnew
    · have := h.window t ht p j hold hp
      simp only [CellRange.has_iff] at this ⊢
      omega
    · exact hhas _ hnew

/-- The outcomes of `StartForward`: no cells for the batch, or the batch stored
and the mask built. -/
theorem startForward_cases {c : Causal} (hcov : c.Covered)
    (hranges : c.RangesLe (c.cells.length - 1)) {batch : List Token} {order : List Int}
    (horder : c.IsOrder batch order) :
    (∃ c', c.startForward batch order false =
        (c', some (.kvCacheFull c.cells.length batch.length)) ∧
        Updated (c.withBatch batch) c' ∧ c'.findLocs = none) ∨
      ∃ locs c', c.startForward batch order false =
        (({ c' with curLoc := locs } : Causal).buildMask, none) ∧ Stored c batch locs c' := by
  have hupd := updateSlidingWindow_updated (c := c.withBatch batch) hcov hranges horder
  cases hlocs : ((c.withBatch batch).updateSlidingWindow order).findLocs with
  | none =>
    refine .inl ⟨_, ?_, hupd, hlocs⟩
    have hlen : ((c.withBatch batch).updateSlidingWindow order).cells.length = c.cells.length :=
      length_eq_of_frame hupd.frame
    simp [startForward, hlocs, hlen]
  | some locs =>
    refine .inr ⟨locs, _, ?_, hupd.stored hlocs⟩
    simp [startForward, hlocs]

end Causal

end Prismalama.Kvcache
