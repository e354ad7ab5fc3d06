import Prismalama.Mlxrunner.RotatingSnapshots
import Prismalama.Lib.TSys

/-!
# The sliding window of the rotating cache

Beside the cache a run keeps the tokens fed to it, cut back by every restore, and the
tokens each snapshot was taken of. The buffer holds the end of these tokens (`Tracks`),
and every query of an `Update` is shown the window that ends at its own position
(`update_exposes`).
-/

namespace Prismalama.Mlxrunner

open Prismalama.Lib

namespace RotatingKVCache

variable {α : Type*}

/-- The cache holds the end of `seq`. -/
structure Tracks (window : Nat) (c : RotatingKVCache α) (seq : List α) : Prop where
  step : 0 < c.step
  maxSize : c.maxSize = window
  offset : c.offset = seq.length
  holds : Holds window c.buffer c.idx seq

theorem Tracks.of_live {window : Nat} {c c' : RotatingKVCache α} {seq : List α}
    (h : Tracks window c seq) (hlive : c'.live = c.live) : Tracks window c' seq where
  step := (step_of_live hlive).symm ▸ h.step
  maxSize := (maxSize_of_live hlive).trans h.maxSize
  offset := (offset_of_live hlive).trans h.offset
  holds := by
    rw [buffer_of_live hlive, idx_of_live hlive]
    exact h.holds

/-- A cache without a buffer holds nothing. -/
theorem Tracks.eq_nil {window : Nat} {c : RotatingKVCache α} {seq : List α}
    (h : Tracks window c seq) (hpos : 0 < window) (hkeys : c.keys = none) :
    seq = [] ∧ c.idx = 0 := by
  have hbuf : c.buffer = [] := by
    rw [buffer, hkeys]
    rfl
  have hholds := h.holds
  rw [hbuf] at hholds
  rcases hholds with hs | hr
  · have hle := hs.le
    have hfull := hs.full
    rw [List.length_nil] at hle
    exact ⟨List.eq_nil_of_length_eq_zero (by omega), by omega⟩
  · have hlen := hr.length
    rw [List.length_nil] at hlen
    omega

/-! ## Several rows -/

/-- The buffer is put in order, cut, and appended to. -/
theorem concat_spec {window : Nat} {c : RotatingKVCache α} {seq : List α}
    (h : Tracks window c seq) (hpos : 0 < window) (keys : List α) :
    ∃ b, b ≤ seq.length + 1 - window ∧ (c.concat keys).2 = (seq ++ keys).drop b ∧
      (c.concat keys).1.keys = some (c.concat keys).2 ∧
      (c.concat keys).1.offset = seq.length + keys.length ∧
      (c.concat keys).1.idx = (c.concat keys).2.length ∧
      (c.concat keys).1.maxSize = c.maxSize ∧ (c.concat keys).1.step = c.step := by
  have hcopied := copyOutLazySnapshots_spec c
  have ht := h.of_live hcopied.live
  have hmax := maxSize_of_live hcopied.live
  have hstep := step_of_live hcopied.live
  unfold concat
  generalize c.copyOutLazySnapshots = c' at ht hmax hstep
  have hwindow := ht.maxSize
  have hoffset := ht.offset
  cases hkeys : c'.keys with
  | none =>
    obtain ⟨rfl, -⟩ := ht.eq_nil hpos hkeys
    refine ⟨0, Nat.zero_le _, ?_, rfl, ?_, rfl, hmax, hstep⟩
    · simp only [hkeys]
      rfl
    · show c'.offset + keys.length = _
      rw [ht.offset]
  | some rows =>
    have hbuf : c'.buffer = rows := by
      rw [buffer, hkeys]
      rfl
    have hholds := ht.holds
    rw [hbuf] at hholds
    obtain ⟨k, hk, hfull, hle⟩ := hholds.straighten_eq
    rw [Holds.straighten, ← ht.offset, ← ht.maxSize] at hk
    -- in order, `idx` is the number of rows
    have hidx : (if (decide (c'.idx < rows.length) && decide (c'.maxSize < c'.offset)) = true
        then rows.length else c'.idx) = k := by
      have hlen := congrArg List.length hk
      rw [List.length_drop, ht.offset] at hlen
      rcases hholds with hs | hr
      · have hsle := hs.le
        have hsidx := hs.idx_le
        by_cases hlt : c'.idx < rows.length
        · have hshort := (hs.unused hlt).1
          have hnot : ¬ c'.maxSize < c'.offset := by
            rw [ht.maxSize, ht.offset]
            omega
          rw [if_pos hlt, if_pos (by omega), List.length_take] at hlen
          rw [if_neg (by simp [hnot])]
          omega
        · rw [if_neg hlt] at hlen
          rw [if_neg (by simp [hlt])]
          omega
      · have hlong := hr.long
        have hlt := hr.lt
        have hwin := hr.length
        have hwrapped : c'.maxSize < c'.offset := by
          rw [ht.maxSize, ht.offset]
          exact hlong
        rw [if_pos (by omega), if_neg (by omega), List.length_append, List.length_drop,
          List.length_take] at hlen
        rw [if_pos (by simp [hwrapped]; omega)]
        omega
    refine ⟨seq.length - k + (k + 1 - window), by omega, ?_, rfl, ?_, rfl, hmax, hstep⟩
    · simp only [hkeys]
      rw [hidx, hk, ht.offset, ht.maxSize, List.drop_drop,
        List.drop_append_of_le_length (by omega)]
    · show c'.offset + keys.length = _
      rw [ht.offset]

/-! ## One row -/

theorem grow_spec [Inhabited α] {window : Nat} {c : RotatingKVCache α} {seq : List α}
    (h : Tracks window c seq) (hpos : 0 < window) :
    Tracks window c.grow seq ∧ (c.grow.idx < c.grow.buffer.length ∨
      window ≤ c.grow.buffer.length) := by
  have hstep := h.step
  have hmax := h.maxSize
  have hoff := h.offset
  have hholds := h.holds
  unfold grow
  cases hkeys : c.keys with
  | none =>
    obtain ⟨rfl, -⟩ := h.eq_nil hpos hkeys
    have hgrown : Holds window
        ([] ++ List.replicate (min c.step (c.maxSize - c.offset)) (default : α)) 0 [] :=
      (holds_nil window).grow (Nat.le_refl 0) hpos
        (by rw [List.length_replicate, List.length_nil]; omega)
    refine ⟨⟨hstep, hmax, hoff, ?_⟩, .inl ?_⟩
    · show Holds window (List.replicate _ default) c.offset []
      rw [hoff] at hgrown ⊢
      exact hgrown
    · show c.offset < (List.replicate _ default).length
      rw [List.length_replicate, hoff, List.length_nil]
      omega
  | some rows =>
    have hbuf : c.buffer = rows := by
      rw [buffer, hkeys]
      rfl
    rw [hbuf] at hholds
    simp only
    split
    · rename_i hroom
      have hlt : rows.length < window := by omega
      have hle : rows.length ≤ seq.length := by omega
      have hgrown : Holds window
          (rows ++ List.replicate (min c.step (c.maxSize - c.offset)) default) seq.length seq :=
        hholds.grow hle hlt (by rw [List.length_replicate]; omega)
      have hshort : seq.length ≤ window := by
        rcases hholds with hs | hr
        · have := hs.le
          have := hs.full
          omega
        · exact absurd hr.length (by omega)
      have hall := (hholds.of_short hshort).2.2.2
      have heq := (hholds.of_short hshort).1
      refine ⟨⟨hstep, hmax, hoff, ?_⟩, .inl ?_⟩
      · show Holds window (rows ++ List.replicate _ default) c.offset seq
        rw [hoff] at hgrown ⊢
        exact hgrown
      · show c.offset < (rows ++ List.replicate _ default).length
        rw [List.length_append, List.length_replicate, hoff]
        omega
    · rename_i hroom
      refine ⟨h, ?_⟩
      rw [hbuf]
      rcases hholds with hs | hr
      · have := hs.idx_le
        omega
      · exact .inr hr.length.ge

theorem trim_spec {window : Nat} {c : RotatingKVCache α} {seq : List α}
    (h : Tracks window c seq)
    (hroom : c.idx < c.buffer.length ∨ window ≤ c.buffer.length) :
    Tracks window c.trim seq ∧ c.trim.buffer.length ≤ window ∧
      (c.trim.idx < c.trim.buffer.length ∨ c.trim.buffer.length = window) := by
  have hmax := h.maxSize
  unfold trim
  split
  · rename_i hlt
    have hlen : (c.buffer.drop (c.buffer.length - c.maxSize)).length = window := by
      rw [List.length_drop]
      omega
    refine ⟨⟨h.step, hmax, h.offset, ?_⟩, hlen.le, .inr hlen⟩
    show Holds window (c.buffer.drop (c.buffer.length - c.maxSize)) c.maxSize seq
    rw [hmax]
    exact h.holds.trim (by omega)
  · exact ⟨h, by omega, by omega⟩

/-- The row goes to the ring position. -/
theorem updateRing_spec [Inhabited α] {window : Nat} {c : RotatingKVCache α} {seq : List α}
    (h : Tracks window c seq) (hpos : 0 < window) (t : α) :
    Tracks window (c.updateRing [t]).1 (seq ++ [t]) ∧
      (c.updateRing [t]).1.buffer.length ≤ window ∧
      (c.updateRing [t]).2 =
        (c.updateRing [t]).1.buffer.take (min (c.updateRing [t]).1.offset window) := by
  have ht := h.of_live (copyOutLazySnapshots_spec c).live
  obtain ⟨hgrow, hroom⟩ := grow_spec ht hpos
  obtain ⟨htrim, hlen, hroom⟩ := trim_spec hgrow hroom
  unfold updateRing
  generalize c.copyOutLazySnapshots.grow.trim = c' at htrim hlen hroom
  have hwrite := htrim.holds.write hpos hlen hroom t
  refine ⟨⟨htrim.step, htrim.maxSize, ?_, ?_⟩, ?_, ?_⟩
  · show c'.offset + 1 = (seq ++ [t]).length
    rw [htrim.offset, List.length_append, List.length_singleton]
  · show Holds window (sliceUpdate c'.buffer (if c'.maxSize ≤ c'.idx then 0 else c'.idx) [t])
      ((if c'.maxSize ≤ c'.idx then 0 else c'.idx) + 1) (seq ++ [t])
    rw [htrim.maxSize]
    exact hwrite
  · show (sliceUpdate c'.buffer (if c'.maxSize ≤ c'.idx then 0 else c'.idx) [t]).length ≤ window
    rw [htrim.maxSize, length_sliceUpdate]
    · exact hlen
    · rw [List.length_singleton]
      split <;> omega
  · show List.take (min (c'.offset + 1) c'.maxSize)
        (sliceUpdate c'.buffer (if c'.maxSize ≤ c'.idx then 0 else c'.idx) [t]) =
      List.take (min (c'.offset + 1) window)
        (sliceUpdate c'.buffer (if c'.maxSize ≤ c'.idx then 0 else c'.idx) [t])
    rw [htrim.maxSize]

/-! ## `Update` -/

theorem concat_heap {window : Nat} {c : RotatingKVCache α} {seqOf : Nat → Nat → List α}
    (h : HeapOk window c seqOf) (hlisted : c.LazyIn c.lazySnapshots) (keys : List α) :
    HeapOk window (c.concat keys).1 seqOf ∧ (c.concat keys).1.LazyIn [] ∧
      (c.concat keys).1.fresh = c.fresh := by
  have hcopied := copyOutLazySnapshots_spec c
  have howned := hlisted.copyOutLazySnapshots
  exact ⟨(hcopied.heap window seqOf h).of_owned howned rfl rfl, howned.of_heap rfl, hcopied.fresh⟩

theorem grow_trim_heap [Inhabited α] (c : RotatingKVCache α) :
    c.grow.trim.heap = c.heap ∧ c.grow.trim.fresh = c.fresh := by
  have hgrow : c.grow.heap = c.heap ∧ c.grow.fresh = c.fresh := by
    unfold grow
    cases c.keys with
    | none => exact ⟨rfl, rfl⟩
    | some rows =>
      simp only
      split <;> exact ⟨rfl, rfl⟩
  have htrim : c.grow.trim.heap = c.grow.heap ∧ c.grow.trim.fresh = c.grow.fresh := by
    unfold trim
    split <;> exact ⟨rfl, rfl⟩
  exact ⟨htrim.1.trans hgrow.1, htrim.2.trans hgrow.2⟩

theorem grow_trim_snapshots [Inhabited α] (c : RotatingKVCache α) :
    c.grow.trim.snapshots = c.snapshots := by
  have hgrow : c.grow.snapshots = c.snapshots := by
    unfold grow
    cases c.keys with
    | none => rfl
    | some rows =>
      simp only
      split <;> rfl
  have htrim : c.grow.trim.snapshots = c.grow.snapshots := by
    unfold trim
    split <;> rfl
  exact htrim.trans hgrow

theorem updateRing_heap [Inhabited α] {window : Nat} {c : RotatingKVCache α}
    {seqOf : Nat → Nat → List α} (h : HeapOk window c seqOf)
    (hlisted : c.LazyIn c.lazySnapshots) (keys : List α) :
    HeapOk window (c.updateRing keys).1 seqOf ∧ (c.updateRing keys).1.LazyIn [] ∧
      (c.updateRing keys).1.fresh = c.fresh := by
  have hcopied := copyOutLazySnapshots_spec c
  have howned := hlisted.copyOutLazySnapshots
  obtain ⟨hheap, hfresh⟩ := grow_trim_heap c.copyOutLazySnapshots
  exact ⟨(hcopied.heap window seqOf h).of_owned howned hheap hfresh, howned.of_heap hheap,
    hfresh.trans hcopied.fresh⟩

/-- What the snapshots stand for while `c` is written: the new ones are of `seq`. -/
def seqDuring (c : RotatingKVCache α) (seq : List α) (taken : Nat → List α) (id o : Nat) :
    List α :=
  if id < c.fresh then taken id else seq.take o

theorem seqDuring_new {c : RotatingKVCache α} {seq : List α} {taken : Nat → List α} {id : Nat}
    (h : c.fresh ≤ id) (o : Nat) : c.seqDuring seq taken id o = seq.take o :=
  if_neg (Nat.not_lt.mpr h)

theorem HeapOk.during {window : Nat} {c : RotatingKVCache α} {taken : Nat → List α}
    (h : HeapOk window c fun id _ => taken id) (seq : List α) :
    HeapOk window c (c.seqDuring seq taken) :=
  h.congr fun id sn hsn => if_pos (h.fresh id sn hsn)

/-- The rows of several queries are a suffix of the tokens, one query gets the ring. -/
structure Shows (w : Nat) (h : KVHistory α) (seq : List α) (n : Nat) : Prop where
  window : h.window = w
  seqOffset : h.seqOffset = n
  queries : n + h.queries = seq.length
  several : h.queries ≠ 1 → ∃ b, b ≤ n + 1 - w ∧ h.rows = seq.drop b
  one : h.queries = 1 → ∃ rows, Holds w rows h.ringIdx seq ∧ rows.length ≤ w ∧
    h.rows = rows.take (min seq.length w)

theorem update_spec [Inhabited α] {window : Nat} {c : RotatingKVCache α} {seq : List α}
    {taken : Nat → List α} (h : Tracks window c seq) (hpos : 0 < window)
    (hheap : HeapOk window c fun id _ => taken id) (hlisted : c.LazyIn c.lazySnapshots)
    {keys : List α} (hne : keys ≠ []) :
    Tracks window (c.update keys).1 (seq ++ keys) ∧
      Captured window (c.update keys).1 (c.seqDuring (seq ++ keys) taken) (c.update keys).1 ∧
      Shows window (c.update keys).2 (seq ++ keys) seq.length := by
  have hlen : (seq ++ keys).length = seq.length + keys.length := List.length_append
  have hkeys : 0 < keys.length := List.length_pos_of_ne_nil hne
  -- the start of the write
  have hstart : Captured window c (c.seqDuring (seq ++ keys) taken)
      (c.captureStartBoundary c.offset) :=
    captureReached_spec c.offset (fun c' hc' => snapshot_spec hc' h.offset h.holds
      (fun id hid => by rw [seqDuring_new hid, List.take_left]) 0)
      ⟨rfl, hheap.during _, hlisted, Nat.le_refl _⟩
  have ht := h.of_live hstart.live
  have hfresh := hstart.fresh
  by_cases hbatched : 1 < keys.length
  · simp only [update, decide_eq_true hbatched, if_true]
    generalize c.captureStartBoundary c.offset = c₁ at hstart ht hfresh ⊢
    obtain ⟨b, hb, hrows, hbuf, hoff, hidx, hmax, hstep⟩ := concat_spec ht hpos keys
    obtain ⟨hok, howned, hfr⟩ := concat_heap hstart.heap hstart.listed keys
    generalize c₁.concat keys = out at hrows hbuf hoff hidx hmax hstep hok howned hfr ⊢
    have hbuffer : out.1.buffer = (seq ++ keys).drop b := by
      rw [buffer, hbuf, Option.getD_some, hrows]
    have ht₂ : Tracks window out.1 (seq ++ keys) := by
      refine ⟨hstep.symm ▸ ht.step, hmax.trans ht.maxSize, hoff.trans hlen.symm, ?_⟩
      have hsuffix : Holds window ((seq ++ keys).drop ((seq ++ keys).length -
          ((seq ++ keys).length - b))) ((seq ++ keys).length - b) (seq ++ keys) :=
        holds_suffix (by omega) (by omega)
      rw [show (seq ++ keys).length - ((seq ++ keys).length - b) = b by omega] at hsuffix
      rw [hbuffer, hidx, hrows, List.length_drop]
      exact hsuffix
    have hwin := ht₂.maxSize
    have hcap : Captured window out.1 (c.seqDuring (seq ++ keys) taken)
        (out.1.captureLazySnapshots c.offset out.1.offset true) := by
      refine captureLazySnapshots_spec (fun o ho hstop c' hc' => ?_)
        ⟨rfl, hok, howned.mono (List.nil_subset _), Nat.le_refl _⟩
      have hle : o ≤ (seq ++ keys).length := ht₂.offset ▸ hstop
      have hseq := h.offset
      rw [← hwin] at hc' ⊢
      refine lazyRotatingSnapshot_spec hc' ht₂.offset hbuffer hle (by omega) fun id hid => ?_
      exact seqDuring_new (by omega) o
    refine ⟨ht₂.of_live hcap.live, ⟨rfl, hcap.heap, hcap.listed, Nat.le_refl _⟩, ?_⟩
    refine ⟨(maxSize_of_live hcap.live).trans hwin, h.offset, hlen.symm, fun _ => ⟨b, hb, hrows⟩,
      fun hone => ?_⟩
    exact absurd (show keys.length = 1 from hone) (by omega)
  · obtain ⟨t, rfl⟩ := List.length_eq_one_iff.mp (show keys.length = 1 by omega)
    simp only [update, decide_eq_false hbatched, Bool.false_eq_true, if_false]
    generalize c.captureStartBoundary c.offset = c₁ at hstart ht hfresh ⊢
    obtain ⟨ht₂, hle, hrows⟩ := updateRing_spec ht hpos t
    obtain ⟨hok, howned, hfr⟩ := updateRing_heap hstart.heap hstart.listed [t]
    generalize c₁.updateRing [t] = out at ht₂ hle hrows hok howned hfr ⊢
    have hcap : Captured window out.1 (c.seqDuring (seq ++ [t]) taken)
        (out.1.captureLazySnapshots c.offset out.1.offset false) := by
      refine captureLazySnapshots_spec (fun o ho hstop c' hc' => ?_)
        ⟨rfl, hok, howned.mono (List.nil_subset _), Nat.le_refl _⟩
      refine snapshot_spec hc' ht₂.offset ht₂.holds (fun id hid => ?_) _
      rw [seqDuring_new (by omega), List.take_length]
    refine ⟨ht₂.of_live hcap.live, ⟨rfl, hcap.heap, hcap.listed, Nat.le_refl _⟩, ?_⟩
    refine ⟨(maxSize_of_live hcap.live).trans ht₂.maxSize, h.offset, hlen.symm,
      fun hsev => absurd rfl hsev, fun _ => ⟨out.1.buffer, ?_, hle, ?_⟩⟩
    · show Holds window out.1.buffer (out.1.captureLazySnapshots c.offset out.1.offset false).idx _
      rw [idx_of_live hcap.live]
      exact ht₂.holds
    · show out.2 = _
      rw [hrows, ht₂.offset]

/-! ## `Restore` -/

/-- The cache stays as it is, or holds the beginning of what it is restored to. -/
structure Restored (window : Nat) (c : RotatingKVCache α) (taken : Nat → List α) (seq : List α)
    (target : Nat) (out : RotatingKVCache α × Bool) : Prop where
  failed : out.2 = false → out.1 = c
  tracks : out.2 = true → Tracks window out.1 (seq.take target)
  heap : HeapOk window out.1 fun id _ => taken id
  listed : out.1.LazyIn out.1.lazySnapshots

theorem Restored.refused {window : Nat} {c : RotatingKVCache α} {taken : Nat → List α}
    (hheap : HeapOk window c fun id _ => taken id) (hlisted : c.LazyIn c.lazySnapshots)
    (seq : List α) (target : Nat) : Restored window c taken seq target (c, false) :=
  ⟨fun _ => rfl, nofun, hheap, hlisted⟩

theorem rewind_spec {window : Nat} {c : RotatingKVCache α} {taken : Nat → List α} {seq : List α}
    (h : Tracks window c seq) (hheap : HeapOk window c fun id _ => taken id)
    (hlisted : c.LazyIn c.lazySnapshots) (target : Nat) :
    Restored window c taken seq target (c.rewind target) := by
  have hoff := h.offset
  unfold rewind
  split
  · refine ⟨fun _ => rfl, fun htrue => ?_, hheap, hlisted⟩
    rw [List.take_of_length_le (by omega)]
    exact h
  · split
    · exact .refused hheap hlisted seq target
    · rename_i hlt hshort
      rw [h.maxSize, h.offset] at hshort
      have hle : target ≤ seq.length := by omega
      refine ⟨nofun, fun _ => ⟨h.step, h.maxSize, ?_, h.holds.rewind (Nat.not_lt.mp hshort) hle⟩,
        hheap.of_buffer rfl rfl rfl, hlisted.of_heap rfl⟩
      show target = (seq.take target).length
      rw [List.length_take, Nat.min_eq_left hle]

/-- The end of `Restore`, when the buffer is that of the snapshot. -/
theorem setOffset_spec {window : Nat} {c : RotatingKVCache α} {snap : RotatingSnapshot α}
    {seq : List α} {target : Nat} (hstep : 0 < c.step) (hmax : c.maxSize = window)
    (hto : snap.toOffset = seq.length) (hholds : Holds window c.buffer snap.idx seq)
    (hle : target ≤ snap.toOffset) (hshort : target < snap.toOffset → snap.toOffset ≤ window) :
    Tracks window (c.setOffset snap target) (seq.take target) := by
  unfold setOffset
  split
  · rename_i hlt
    have hle' : target ≤ seq.length := hto ▸ hle
    have hlen : (seq.take target).length = target := by
      rw [List.length_take, Nat.min_eq_left hle']
    exact ⟨hstep, hmax, hlen.symm, hholds.rewind (hto ▸ hshort hlt) hle'⟩
  · rw [List.take_of_length_le (by omega)]
    exact ⟨hstep, hmax, hto, hholds⟩

theorem setOffset_heap {window : Nat} {c : RotatingKVCache α} {seqOf : Nat → Nat → List α}
    (h : HeapOk window c seqOf) (hlisted : c.LazyIn c.lazySnapshots) (snap : RotatingSnapshot α)
    (target : Nat) : HeapOk window (c.setOffset snap target) seqOf ∧
      (c.setOffset snap target).LazyIn (c.setOffset snap target).lazySnapshots := by
  unfold setOffset
  split
  · exact ⟨h.of_buffer rfl rfl rfl, hlisted.of_heap rfl⟩
  · exact ⟨h.of_buffer rfl rfl rfl, hlisted.of_heap rfl⟩

/-- The slots of a lazy snapshot become the buffer, and all of it is its slots. -/
theorem restoreLazy_spec {window : Nat} {c : RotatingKVCache α} {taken : Nat → List α} {id : Nat}
    {snap : RotatingSnapshot α} (hheap : HeapOk window c fun id _ => taken id)
    (hlisted : c.LazyIn c.lazySnapshots) (hsnap : c.heap.lookup id = some snap)
    (hlazy : snap.keys = none) :
    Holds window (c.restoreLazy id snap).buffer snap.idx (taken id) ∧
      HeapOk window (c.restoreLazy id snap) (fun id _ => taken id) ∧
      (c.restoreLazy id snap).LazyIn (c.restoreLazy id snap).lazySnapshots := by
  have hcopied := copyOutLazySnapshots_spec (c.dropLazySnapshot id)
  have hdropped : HeapOk window (c.dropLazySnapshot id) fun id _ => taken id :=
    hheap.of_buffer rfl rfl rfl
  have hok := hcopied.heap window _ hdropped
  have hbuf : (c.dropLazySnapshot id).copyOutLazySnapshots.buffer = c.buffer :=
    buffer_of_live (c := c.dropLazySnapshot id) hcopied.live
  -- the other snapshots are copied out
  have hothers : (c.dropLazySnapshot id).copyOutLazySnapshots.LazyIn [id] := by
    refine LazyIn.foldl_copyOut (c := c.dropLazySnapshot id) ?_
    intro id' sn hsn hnone
    have hmem := hlisted id' sn hsn hnone
    by_cases hid : id' = id
    · exact List.mem_append_right _ (List.mem_singleton.mpr hid)
    · exact List.mem_append_left _ ((List.mem_erase_of_ne hid).mpr hmem)
  have hfresh : id < (c.dropLazySnapshot id).copyOutLazySnapshots.fresh := by
    rw [hcopied.fresh]
    exact hheap.fresh id snap hsnap
  obtain ⟨hto, hholds, hcache⟩ := hheap.ok id snap hsnap
  unfold rowsOf at hholds
  rw [hlazy, Option.getD_none] at hholds
  unfold restoreLazy
  generalize (c.dropLazySnapshot id).copyOutLazySnapshots = c' at hok hbuf hothers hfresh
  refine ⟨?_, ⟨fun id' sn hsn => ?_, fun id' sn hsn => ?_⟩, fun id' sn hsn hnone => ?_⟩
  · show Holds window (slice c'.buffer snap.sliceStart snap.sliceEnd) snap.idx (taken id)
    rw [hbuf]
    exact hholds
  · simp only [GoMap.lookup_insert_ite] at hsn
    split at hsn
    · rename_i hid
      rw [hid]
      exact hfresh
    · exact hok.fresh id' sn hsn
  · simp only [GoMap.lookup_insert_ite] at hsn
    split at hsn
    · rename_i hid
      obtain rfl := Option.some.inj hsn
      subst hid
      refine ⟨hto, ?_, hcache⟩
      show Holds window (snap.keys.getD (slice (slice c'.buffer snap.sliceStart snap.sliceEnd) 0
        (snap.sliceEnd - snap.sliceStart))) snap.idx (taken id')
      rw [hlazy, Option.getD_none, hbuf, slice, List.drop_zero, List.take_of_length_le]
      · exact hholds
      · rw [length_slice]
        omega
    · rename_i hne
      obtain ⟨hto', hholds', hcache'⟩ := hok.ok id' sn hsn
      refine ⟨hto', ?_, hcache'⟩
      cases hkeys : sn.keys with
      | none => exact absurd (List.mem_singleton.mp (hothers id' sn hsn hkeys)) hne
      | some rows =>
        unfold rowsOf at hholds' ⊢
        rwa [hkeys] at hholds' ⊢
  · show id' ∈ c'.lazySnapshots ++ [id]
    simp only [GoMap.lookup_insert_ite] at hsn
    split at hsn
    · rename_i hid
      exact List.mem_append_right _ (List.mem_singleton.mpr hid)
    · exact List.mem_append_right _ (hothers id' sn hsn hnone)

theorem restore_spec {window : Nat} {c : RotatingKVCache α} {taken : Nat → List α} {seq : List α}
    (h : Tracks window c seq) (hheap : HeapOk window c fun id _ => taken id)
    (hlisted : c.LazyIn c.lazySnapshots) (snapshot : Option Nat) (target : Int) :
    Restored window c taken (snapshot.elim seq taken) target.toNat (c.restore snapshot target) := by
  unfold restore
  split
  · exact .refused hheap hlisted _ _
  · cases snapshot with
    | none => exact rewind_spec h hheap hlisted target.toNat
    | some id =>
      cases hsnap : c.heap.lookup id with
      | none =>
        simp only [hsnap]
        exact .refused hheap hlisted _ _
      | some snap =>
        obtain ⟨hto, hholds, hcache⟩ := hheap.ok id snap hsnap
        simp only [hsnap]
        by_cases hlt : snap.toOffset < target.toNat
        · rw [if_pos hlt]
          exact .refused hheap hlisted _ _
        rw [if_neg hlt]
        by_cases hcut : target.toNat < snap.toOffset ∧ c.maxSize < snap.toOffset
        · rw [if_pos hcut]
          exact .refused hheap hlisted _ _
        rw [if_neg hcut]
        rw [h.maxSize] at hcut
        have hle : target.toNat ≤ snap.toOffset := Nat.not_lt.mp hlt
        have hshort : target.toNat < snap.toOffset → snap.toOffset ≤ window := fun hlt =>
          Nat.not_lt.mp fun hlong => hcut ⟨hlt, hlong⟩
        cases hkeys : snap.keys with
        | none =>
          rw [hcache hkeys]
          have hlive : (c.dropLazySnapshot id).copyOutLazySnapshots.live = c.live :=
            (copyOutLazySnapshots_spec (c.dropLazySnapshot id)).live
          obtain ⟨hrows, hok, hlist⟩ := restoreLazy_spec hheap hlisted hsnap hkeys
          obtain ⟨hok', hlist'⟩ := setOffset_heap hok hlist snap target.toNat
          refine ⟨nofun, fun _ => setOffset_spec ?_ ?_ hto hrows hle hshort, hok', hlist'⟩
          · exact (step_of_live hlive).symm ▸ h.step
          · exact (maxSize_of_live hlive).trans h.maxSize
        | some rows =>
          rw [Option.isNone_some, Bool.and_false, if_neg Bool.false_ne_true,
            copyOut_owned hsnap (by rw [hkeys]; rfl)]
          have hcopied := copyOutLazySnapshots_spec c
          have howned := hlisted.copyOutLazySnapshots
          have hok := hcopied.heap window _ hheap
          rw [hcopied.owned id snap hsnap (by rw [hkeys]; rfl), Option.bind_some, hkeys,
            Option.getD_some]
          unfold rowsOf at hholds
          rw [hkeys, Option.getD_some] at hholds
          obtain ⟨hok', hlist'⟩ := setOffset_heap
            (c := { c.copyOutLazySnapshots with keys := some rows })
            (hok.of_owned howned rfl rfl) ((howned.mono (List.nil_subset _)).of_heap rfl) snap target.toNat
          refine ⟨nofun, fun _ => setOffset_spec ?_ ?_ hto hholds hle hshort, hok', hlist'⟩
          · exact (step_of_live hcopied.live).symm ▸ h.step
          · exact (maxSize_of_live hcopied.live).trans h.maxSize

/-! ## What a query is shown -/

theorem gatherRingCols_eq {β : Type*} {ps : List β} {K : Nat} (hK : ps.length = K) (idx : Nat) :
    KVHistory.gatherRingCols ps idx K = ps.drop (K - idx % K) ++ ps.take (K - idx % K) := by
  unfold KVHistory.gatherRingCols
  split
  · rename_i hzero
    rw [hzero, Nat.sub_zero, List.drop_of_length_le hK.le, List.take_of_length_le hK.le,
      List.nil_append]
  · rfl

/-- The mask of several queries leaves the window. -/
theorem not_blocked {w : Nat} {h : KVHistory α} {seq : List α} {n b : Nat} (hs : Shows w h seq n)
    (hpos : 0 < w) (hb : h.oldestPos = b) (i k : Nat) :
    (!h.blocked i k) = (decide (n + i + 1 - w ≤ b + k) && decide (b + k < n + i + 1)) := by
  rw [Bool.eq_iff_iff]
  simp only [KVHistory.blocked, hs.window, hs.seqOffset, hb, Bool.not_eq_true', Bool.or_eq_false_iff,
    Bool.and_eq_false_iff, Bool.and_eq_true, decide_eq_true_eq, decide_eq_false_iff_not]
  omega

theorem Shows.exposes {w : Nat} {h : KVHistory α} {seq : List α} {n : Nat} (hs : Shows w h seq n)
    (hpos : 0 < w) {i : Nat} (hi : i < h.queries) :
    (h.exposes i).Perm (windowAt w seq (n + i)) := by
  have hq := hs.queries
  unfold KVHistory.exposes
  split
  · -- one query: the slots are in the order of the ring
    rename_i hone
    obtain ⟨rows, hholds, hle, hrows⟩ := hs.one hone
    obtain ⟨hlen, horder⟩ := hholds.ring_order hle rfl
    rw [← hrows] at hlen horder
    have hold : h.oldestPos = seq.length - h.rows.length := by
      unfold KVHistory.oldestPos
      rw [hs.seqOffset, hq]
    have hK : 0 < h.rows.length := by omega
    have hmod : h.ringIdx % h.rows.length < h.rows.length := Nat.mod_lt _ hK
    have hps : ((List.range h.rows.length).map (h.oldestPos + ·)).length = h.rows.length := by
      rw [List.length_map, List.length_range]
    rw [gatherRingCols_eq hps]
    refine (zip_rotated _ hps hmod.le).trans (.of_eq ?_)
    rw [← hlen] at horder
    rw [horder, ← List.range'_eq_map_range, hold, show n + i = seq.length - 1 by omega]
    exact (windowAt_last (by omega) hlen).symm
  · -- several queries: what the mask leaves of a suffix
    rename_i hsev
    obtain ⟨b, hb, hrows⟩ := hs.several hsev
    have hold : h.oldestPos = b := by
      unfold KVHistory.oldestPos
      rw [hs.seqOffset, hq, hrows, List.length_drop]
      omega
    have hfilter : ((seq.drop b).zipIdx b).filter
        (fun e => decide (n + i + 1 - w ≤ e.2) && decide (e.2 < n + i + 1)) =
          windowAt w seq (n + i) := filter_suffix_eq_windowAt (by omega)
    rw [← hrows, List.zipIdx_eq_map_add, List.filter_map] at hfilter
    rw [← hfilter, hold]
    refine .of_eq (congrArg (List.map fun e : α × Nat => (e.1, b + e.2)) ?_)
    exact List.filter_congr fun e _ => not_blocked hs hpos hold i e.2

end RotatingKVCache

/-! ## Runs -/

/-- A cache, the tokens fed to it, and those each snapshot was taken of. -/
structure RotatingRun (α : Type*) where
  cache : RotatingKVCache α
  tokens : List α
  taken : Nat → List α

inductive RotatingOp (α : Type*)
  | update (keys : List α)
  | prepareSnapshots (offsets : List Nat)
  | takeSnapshots
  | snapshot (fromOffset : Nat)
  | restore (snapshot : Option Nat) (target : Int)
  | close (id : Nat)
  | free

namespace RotatingRun

variable {α : Type*}

/-- The snapshots that are new in `c'` are taken of `tokens`. -/
def capture (c c' : RotatingKVCache α) (tokens : List α) (taken : Nat → List α) :
    Nat → List α :=
  fun id =>
    if id < c.fresh then taken id
    else ((c'.heap.lookup id).map fun sn => tokens.take sn.toOffset).getD []

def apply [Inhabited α] (s : RotatingRun α) : RotatingOp α → RotatingRun α
  | .update keys =>
    let c := (s.cache.update keys).1
    let tokens := s.tokens ++ keys
    ⟨c, tokens, capture s.cache c tokens s.taken⟩
  | .prepareSnapshots offsets =>
    { s with cache := (s.cache.prepareSnapshots offsets).getD s.cache }
  | .takeSnapshots => { s with cache := s.cache.takeSnapshots.1 }
  | .snapshot fromOffset =>
    let c := (s.cache.snapshot fromOffset).1
    ⟨c, s.tokens, capture s.cache c s.tokens s.taken⟩
  | .restore snapshot target =>
    let out := s.cache.restore snapshot target
    { s with
      cache := out.1
      tokens := if out.2 then (snapshot.elim s.tokens s.taken).take target.toNat else s.tokens }
  | .close id => { s with cache := s.cache.close id }
  | .free => { s with cache := s.cache.free, tokens := [] }

/-- The calls of a run: an update has rows, and the snapshots that are passed are open. -/
def Guard (s : RotatingRun α) : RotatingOp α → Prop
  | .update keys => keys ≠ []
  | .prepareSnapshots offsets => (s.cache.prepareSnapshots offsets).isSome = true
  | .restore snapshot _ => ∀ id ∈ snapshot, (s.cache.heap.lookup id).isSome = true
  | .close id => (s.cache.heap.lookup id).isSome = true
  | .takeSnapshots | .snapshot _ | .free => True

instance [DecidableEq α] (s : RotatingRun α) : (op : RotatingOp α) → Decidable (s.Guard op)
  | .update keys => inferInstanceAs (Decidable (keys ≠ []))
  | .prepareSnapshots offsets =>
    inferInstanceAs (Decidable ((s.cache.prepareSnapshots offsets).isSome = true))
  | .restore snapshot _ =>
    inferInstanceAs (Decidable (∀ id ∈ snapshot, (s.cache.heap.lookup id).isSome = true))
  | .close id => inferInstanceAs (Decidable ((s.cache.heap.lookup id).isSome = true))
  | .takeSnapshots => .isTrue trivial
  | .snapshot _ => .isTrue trivial
  | .free => .isTrue trivial

def start (window : Nat) : RotatingRun α := ⟨newRotatingKVCache window, [], fun _ => []⟩

/-- The runs of a cache for a window. -/
def system (α : Type*) [Inhabited α] (window : Nat) : TSys (RotatingRun α) (RotatingOp α) :=
  TSys.ofFn (fun s => s = start window) Guard apply

theorem reachable_run [Inhabited α] {window : Nat} (ops : List (RotatingOp α))
    (h : TSys.Runs Guard apply (start window : RotatingRun α) ops) :
    (system α window).Reachable (ops.foldl apply (start window)) := by
  have hstart : (system α window).Reachable (start window) := .init rfl
  exact hstart.run ops h

structure Inv (window : Nat) (s : RotatingRun α) : Prop where
  tracks : s.cache.Tracks window s.tokens
  heap : RotatingKVCache.HeapOk window s.cache fun id _ => s.taken id
  listed : s.cache.LazyIn s.cache.lazySnapshots

theorem inv_start (window : Nat) : (start window : RotatingRun α).Inv window where
  tracks := ⟨Nat.zero_lt_succ 255, rfl, rfl, holds_nil window⟩
  heap := ⟨nofun, nofun⟩
  listed := nofun

/-- What was captured of `tokens` is entered so. -/
theorem heapOk_capture {window : Nat} {c c' : RotatingKVCache α} {tokens : List α}
    {taken : Nat → List α}
    (h : RotatingKVCache.HeapOk window c' (c.seqDuring tokens taken)) :
    RotatingKVCache.HeapOk window c' fun id _ => capture c c' tokens taken id := by
  refine h.congr fun id sn hsn => ?_
  unfold capture RotatingKVCache.seqDuring
  rw [hsn]
  rfl

theorem inv_step [Inhabited α] {window : Nat} (hpos : 0 < window) {s : RotatingRun α}
    (h : s.Inv window) (op : RotatingOp α) (hguard : s.Guard op) : (s.apply op).Inv window := by
  obtain ⟨htracks, hheap, hlisted⟩ := h
  cases op with
  | update keys =>
    obtain ⟨ht, hcap, -⟩ := RotatingKVCache.update_spec htracks hpos hheap hlisted hguard
    exact ⟨ht, heapOk_capture hcap.heap, hcap.listed⟩
  | prepareSnapshots offsets =>
    show Inv window { s with cache := (s.cache.prepareSnapshots offsets).getD s.cache }
    unfold RotatingKVCache.prepareSnapshots
    cases s.cache.snapshots.prepare s.cache.offset offsets with
    | none => exact ⟨htracks, hheap, hlisted⟩
    | some p => exact ⟨htracks.of_live rfl, hheap.of_buffer rfl rfl rfl, hlisted.of_heap rfl⟩
  | takeSnapshots =>
    exact ⟨htracks.of_live rfl, hheap.of_buffer rfl rfl rfl, hlisted.of_heap rfl⟩
  | snapshot fromOffset =>
    have hcap : RotatingKVCache.Captured window s.cache (s.cache.seqDuring s.tokens s.taken)
        (s.cache.snapshot fromOffset).1 :=
      RotatingKVCache.snapshot_spec ⟨rfl, hheap.during _, hlisted, Nat.le_refl _⟩ htracks.offset
        htracks.holds (fun id hid => by
          rw [RotatingKVCache.seqDuring_new hid, List.take_length]) fromOffset
    exact ⟨htracks.of_live hcap.live, heapOk_capture hcap.heap, hcap.listed⟩
  | restore snapshot target =>
    have hrestored := RotatingKVCache.restore_spec htracks hheap hlisted snapshot target
    refine ⟨?_, hrestored.heap, hrestored.listed⟩
    show (s.cache.restore snapshot target).1.Tracks window
      (if (s.cache.restore snapshot target).2 then _ else s.tokens)
    cases hok : (s.cache.restore snapshot target).2 with
    | true => exact hrestored.tracks hok
    | false =>
      rw [hrestored.failed hok]
      exact htracks
  | close id =>
    obtain ⟨hlive, hok, hlist⟩ := RotatingKVCache.close_spec hheap hlisted id
    exact ⟨htracks.of_live hlive, hok, hlist⟩
  | free =>
    have hcopied := RotatingKVCache.copyOutLazySnapshots_spec s.cache
    have howned := hlisted.copyOutLazySnapshots
    refine ⟨⟨?_, ?_, rfl, holds_nil window⟩, (hcopied.heap window _ hheap).of_owned howned rfl rfl,
      (howned.mono (List.nil_subset _)).of_heap rfl⟩
    · exact (RotatingKVCache.step_of_live hcopied.live).symm ▸ htracks.step
    · exact (RotatingKVCache.maxSize_of_live hcopied.live).trans htracks.maxSize

theorem inv_reachable [Inhabited α] {window : Nat} (hpos : 0 < window) {s : RotatingRun α}
    (h : (system α window).Reachable s) : s.Inv window := by
  induction h with
  | init hstart =>
    obtain rfl := hstart
    exact inv_start window
  | step _ hstep ih =>
    obtain ⟨hguard, rfl⟩ := hstep
    exact inv_step hpos ih _ hguard

/-- The query at position `p` of an update is shown the tokens at the positions
`max 0 (p - window + 1)` to `p`, each once and with its own position. -/
theorem update_exposes [Inhabited α] {window : Nat} (hpos : 0 < window) {s : RotatingRun α}
    (hs : (system α window).Reachable s) {keys : List α} (hne : keys ≠ []) {i : Nat}
    (hi : i < keys.length) :
    ((s.cache.update keys).2.exposes i).Perm
      (windowAt window (s.tokens ++ keys) (s.tokens.length + i)) := by
  obtain ⟨htracks, hheap, hlisted⟩ := inv_reachable hpos hs
  obtain ⟨-, -, hshows⟩ := RotatingKVCache.update_spec htracks hpos hheap hlisted hne
  exact hshows.exposes hpos hi

/-- A prefill, a decoded token, a restore of a lazy snapshot, and a prefill after it. -/
theorem update_exposes_restored :
    ∃ s : RotatingRun Nat, (system Nat 3).Reachable s ∧ s.tokens = [1, 2, 6, 7] ∧
      ((s.cache.update [8]).2.exposes 0).Perm [(6, 2), (7, 3), (8, 4)] := by
  have hrun : (system Nat 3).Reachable _ := reachable_run
    [.prepareSnapshots [2], .update [1, 2, 3, 4], .takeSnapshots, .update [5],
      .restore (some 0) 2, .update [6, 7]] (by decide)
  refine ⟨_, hrun, by decide, ?_⟩
  exact update_exposes (by decide) hrun (show [8] ≠ [] by decide) (show 0 < [8].length by decide)

end RotatingRun

end Prismalama.Mlxrunner
