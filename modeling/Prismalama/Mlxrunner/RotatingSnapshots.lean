import Prismalama.Mlxrunner.RotatingKVCache
import Prismalama.Lib.SlidingWindow

/-!
# Snapshots of the sliding-window cache

A snapshot stands for the end of the sequence it was taken of: in its own copy, or in
the live buffer while it is lazy. The buffer only changes when no snapshot is lazy any
more, apart from the one that is restored.
-/

namespace Prismalama.Mlxrunner

open Prismalama.Lib

namespace RotatingKVCache

variable {α : Type*}

/-- The cache apart from its snapshots. -/
def live (c : RotatingKVCache α) : Option (List α) × Nat × Nat × Nat × Nat :=
  (c.keys, c.offset, c.step, c.maxSize, c.idx)

theorem keys_of_live {c c' : RotatingKVCache α} (h : c'.live = c.live) : c'.keys = c.keys :=
  congrArg Prod.fst h

theorem buffer_of_live {c c' : RotatingKVCache α} (h : c'.live = c.live) :
    c'.buffer = c.buffer := by
  unfold buffer
  rw [keys_of_live h]

theorem offset_of_live {c c' : RotatingKVCache α} (h : c'.live = c.live) :
    c'.offset = c.offset := congrArg (fun x => x.2.1) h

theorem step_of_live {c c' : RotatingKVCache α} (h : c'.live = c.live) : c'.step = c.step :=
  congrArg (fun x => x.2.2.1) h

theorem maxSize_of_live {c c' : RotatingKVCache α} (h : c'.live = c.live) :
    c'.maxSize = c.maxSize := congrArg (fun x => x.2.2.2.1) h

theorem idx_of_live {c c' : RotatingKVCache α} (h : c'.live = c.live) : c'.idx = c.idx :=
  congrArg (fun x => x.2.2.2.2) h

/-! ## What snapshots stand for -/

def rowsOf (c : RotatingKVCache α) (sn : RotatingSnapshot α) : List α :=
  sn.keys.getD (slice c.buffer sn.sliceStart sn.sliceEnd)

/-- The snapshot stands for the end of `seq`. -/
structure SnapshotOk (window : Nat) (c : RotatingKVCache α) (sn : RotatingSnapshot α)
    (seq : List α) : Prop where
  toOffset : sn.toOffset = seq.length
  holds : Holds window (c.rowsOf sn) sn.idx seq
  cache : sn.keys = none → sn.cache = true

/-- Every open snapshot stands for the sequence that `seqOf` says. -/
structure HeapOk (window : Nat) (c : RotatingKVCache α) (seqOf : Nat → Nat → List α) :
    Prop where
  fresh : ∀ (id : Nat) (sn : RotatingSnapshot α), c.heap.lookup id = some sn → id < c.fresh
  ok : ∀ (id : Nat) (sn : RotatingSnapshot α), c.heap.lookup id = some sn →
    SnapshotOk window c sn (seqOf id sn.toOffset)

/-- The lazy snapshots are among these. -/
def LazyIn (c : RotatingKVCache α) (ids : List Nat) : Prop :=
  ∀ (id : Nat) (sn : RotatingSnapshot α), c.heap.lookup id = some sn → sn.keys = none → id ∈ ids

theorem LazyIn.mono {c : RotatingKVCache α} {ids ids' : List Nat} (h : c.LazyIn ids)
    (hsub : ∀ id ∈ ids, id ∈ ids') : c.LazyIn ids' :=
  fun id sn hsn hnone => hsub id (h id sn hsn hnone)

theorem LazyIn.of_heap {c c' : RotatingKVCache α} {ids : List Nat} (h : c.LazyIn ids)
    (hheap : c'.heap = c.heap) : c'.LazyIn ids := by
  intro id sn hsn hnone
  rw [hheap] at hsn
  exact h id sn hsn hnone

/-- Snapshots that own their rows do not see the buffer. -/
theorem HeapOk.of_owned {window : Nat} {c c' : RotatingKVCache α} {seqOf : Nat → Nat → List α}
    (h : HeapOk window c seqOf) (howned : c.LazyIn []) (hheap : c'.heap = c.heap)
    (hfresh : c'.fresh = c.fresh) : HeapOk window c' seqOf := by
  refine ⟨fun id sn hsn => ?_, fun id sn hsn => ?_⟩
  · rw [hheap] at hsn
    rw [hfresh]
    exact h.fresh id sn hsn
  · rw [hheap] at hsn
    obtain ⟨hto, hholds, hcache⟩ := h.ok id sn hsn
    refine ⟨hto, ?_, hcache⟩
    cases hkeys : sn.keys with
    | none => exact absurd (howned id sn hsn hkeys) List.not_mem_nil
    | some rows =>
      unfold rowsOf at hholds ⊢
      rwa [hkeys] at hholds ⊢

theorem HeapOk.of_buffer {window : Nat} {c c' : RotatingKVCache α}
    {seqOf : Nat → Nat → List α} (h : HeapOk window c seqOf) (hbuf : c'.buffer = c.buffer)
    (hheap : c'.heap = c.heap) (hfresh : c'.fresh = c.fresh) : HeapOk window c' seqOf := by
  refine ⟨fun id sn hsn => ?_, fun id sn hsn => ?_⟩
  · rw [hheap] at hsn
    rw [hfresh]
    exact h.fresh id sn hsn
  · rw [hheap] at hsn
    obtain ⟨hto, hholds, hcache⟩ := h.ok id sn hsn
    refine ⟨hto, ?_, hcache⟩
    unfold rowsOf at hholds ⊢
    rwa [hbuf]

theorem HeapOk.congr {window : Nat} {c : RotatingKVCache α} {seqOf seqOf' : Nat → Nat → List α}
    (h : HeapOk window c seqOf)
    (heq : ∀ (id : Nat) (sn : RotatingSnapshot α), c.heap.lookup id = some sn →
      seqOf' id sn.toOffset = seqOf id sn.toOffset) : HeapOk window c seqOf' := by
  refine ⟨h.fresh, fun id sn hsn => ?_⟩
  rw [heq id sn hsn]
  exact h.ok id sn hsn

/-- A snapshot is added, and `lazySnapshots` may be extended by it. -/
theorem HeapOk.alloc {window : Nat} {c c' : RotatingKVCache α} {seqOf : Nat → Nat → List α}
    (h : HeapOk window c seqOf) (hlive : c'.live = c.live) {sn : RotatingSnapshot α}
    (hheap : c'.heap = c.heap.insert c.fresh sn) (hfresh : c'.fresh = c.fresh + 1)
    (hok : SnapshotOk window c sn (seqOf c.fresh sn.toOffset)) : HeapOk window c' seqOf := by
  have hrows : c'.rowsOf = c.rowsOf := by
    funext sn'
    unfold rowsOf
    rw [buffer_of_live hlive]
  refine ⟨fun id sn' hsn' => ?_, fun id sn' hsn' => ?_⟩
  · rw [hheap, GoMap.lookup_insert_ite] at hsn'
    rw [hfresh]
    split at hsn'
    · omega
    · exact Nat.lt_succ_of_lt (h.fresh id sn' hsn')
  · rw [hheap, GoMap.lookup_insert_ite] at hsn'
    split at hsn'
    · rename_i hid
      obtain rfl := Option.some.inj hsn'
      subst hid
      exact ⟨hok.toOffset, by rw [hrows]; exact hok.holds, hok.cache⟩
    · obtain ⟨hto, hholds, hcache⟩ := h.ok id sn' hsn'
      exact ⟨hto, by rw [hrows]; exact hholds, hcache⟩

theorem LazyIn.alloc {c c' : RotatingKVCache α} {ids ids' : List Nat} (h : c.LazyIn ids)
    {sn : RotatingSnapshot α} (hheap : c'.heap = c.heap.insert c.fresh sn)
    (hsub : ∀ id ∈ ids, id ∈ ids') (hnew : sn.keys = none → c.fresh ∈ ids') :
    c'.LazyIn ids' := by
  intro id sn' hsn' hnone
  rw [hheap, GoMap.lookup_insert_ite] at hsn'
  split at hsn'
  · rename_i hid
    obtain rfl := Option.some.inj hsn'
    rw [hid]
    exact hnew hnone
  · exact hsub id (h id sn' hsn' hnone)

theorem close_spec {window : Nat} {c : RotatingKVCache α} {seqOf : Nat → Nat → List α}
    (h : HeapOk window c seqOf) (hlisted : c.LazyIn c.lazySnapshots) (id : Nat) :
    (c.close id).live = c.live ∧ HeapOk window (c.close id) seqOf ∧
      (c.close id).LazyIn (c.close id).lazySnapshots := by
  have herase : ∀ c' : RotatingKVCache α, c'.buffer = c.buffer → c'.fresh = c.fresh →
      c'.heap = c.heap.erase id → HeapOk window c' seqOf := by
    intro c' hbuf hfresh hheap
    refine ⟨fun id' sn hsn => ?_, fun id' sn hsn => ?_⟩
    · rw [hheap, GoMap.lookup_erase_ite] at hsn
      rw [hfresh]
      split at hsn
      · cases hsn
      · exact h.fresh id' sn hsn
    · rw [hheap, GoMap.lookup_erase_ite] at hsn
      split at hsn
      · cases hsn
      · obtain ⟨hto, hholds, hcache⟩ := h.ok id' sn hsn
        refine ⟨hto, ?_, hcache⟩
        unfold rowsOf at hholds ⊢
        rwa [hbuf]
  have hlist : ∀ c' : RotatingKVCache α, c'.heap = c.heap.erase id →
      c'.LazyIn (c.lazySnapshots.erase id) := by
    intro c' hheap id' sn hsn hnone
    rw [hheap, GoMap.lookup_erase_ite] at hsn
    split at hsn
    · cases hsn
    · rename_i hne
      exact (List.mem_erase_of_ne hne).mpr (hlisted id' sn hsn hnone)
  unfold close
  split
  · exact ⟨rfl, h, hlisted⟩
  · simp only
    split
    · exact ⟨rfl, herase _ rfl rfl rfl, hlist _ rfl⟩
    · exact ⟨rfl, herase _ rfl rfl rfl, (hlist _ rfl).mono fun _ => List.mem_of_mem_erase⟩

/-! ## Copying out -/

/-- Copying out changes no live row and not what snapshots stand for. -/
structure CopiedOut (c c' : RotatingKVCache α) : Prop where
  live : c'.live = c.live
  snapshots : c'.snapshots = c.snapshots
  fresh : c'.fresh = c.fresh
  heap : ∀ (window : Nat) (seqOf : Nat → Nat → List α),
    HeapOk window c seqOf → HeapOk window c' seqOf
  owned : ∀ (id : Nat) (sn : RotatingSnapshot α), c.heap.lookup id = some sn →
    sn.keys.isSome = true → c'.heap.lookup id = some sn
  stays : ∀ (id : Nat) (sn : RotatingSnapshot α), c.heap.lookup id = some sn →
    ∃ sn', c'.heap.lookup id = some sn' ∧ sn'.toOffset = sn.toOffset

theorem CopiedOut.refl (c : RotatingKVCache α) : CopiedOut c c :=
  ⟨rfl, rfl, rfl, fun _ _ h => h, fun _ _ h _ => h, fun _ sn h => ⟨sn, h, rfl⟩⟩

theorem CopiedOut.trans {c c' c'' : RotatingKVCache α} (h : CopiedOut c c')
    (h' : CopiedOut c' c'') : CopiedOut c c'' where
  live := h'.live.trans h.live
  snapshots := h'.snapshots.trans h.snapshots
  fresh := h'.fresh.trans h.fresh
  heap window seqOf hok := h'.heap window seqOf (h.heap window seqOf hok)
  owned id sn hsn hkeys := h'.owned id sn (h.owned id sn hsn hkeys) hkeys
  stays id sn hsn := by
    obtain ⟨sn', hsn', hto'⟩ := h.stays id sn hsn
    obtain ⟨sn'', hsn'', hto''⟩ := h'.stays id sn' hsn'
    exact ⟨sn'', hsn'', hto''.trans hto'⟩

theorem copyOut_spec (c : RotatingKVCache α) (id : Nat) : CopiedOut c (c.copyOut id) := by
  unfold copyOut
  cases hs : c.heap.lookup id with
  | none => exact .refl c
  | some s =>
    simp only
    split
    · exact .refl c
    · rename_i hlazy
      have hkeys : s.keys = none := by simpa using hlazy
      refine ⟨rfl, rfl, rfl, fun window seqOf h => ⟨fun id' s' hs' => ?_, fun id' s' hs' => ?_⟩,
        fun id' s' hs' howned => ?_, fun id' s' hs' => ?_⟩
      · simp only [dropLazySnapshot, GoMap.lookup_insert_ite] at hs'
        split at hs'
        · rename_i hid
          rw [hid]
          exact h.fresh id s hs
        · exact h.fresh id' s' hs'
      · simp only [dropLazySnapshot, GoMap.lookup_insert_ite] at hs'
        split at hs'
        · rename_i hid
          obtain rfl := Option.some.inj hs'
          subst hid
          obtain ⟨hto, hholds, -⟩ := h.ok id' s hs
          refine ⟨hto, ?_, nofun⟩
          unfold rowsOf at hholds
          rw [hkeys] at hholds
          exact hholds
        · obtain ⟨hto, hholds, hcache⟩ := h.ok id' s' hs'
          exact ⟨hto, hholds, hcache⟩
      · show AList.lookup id' (AList.insert id _ c.heap) = some s'
        rw [GoMap.lookup_insert_ite, if_neg]
        · exact hs'
        · rintro rfl
          rw [hs] at hs'
          obtain rfl := Option.some.inj hs'
          rw [hkeys] at howned
          cases howned
      · simp only [dropLazySnapshot, GoMap.lookup_insert_ite]
        split
        · rename_i hid
          rw [hid, hs] at hs'
          obtain rfl := Option.some.inj hs'
          exact ⟨_, rfl, rfl⟩
        · exact ⟨s', hs', rfl⟩

theorem copyOut_owned {c : RotatingKVCache α} {id : Nat} {sn : RotatingSnapshot α}
    (hsn : c.heap.lookup id = some sn) (howned : sn.keys.isSome = true) : c.copyOut id = c := by
  unfold copyOut
  simp only [hsn]
  exact if_pos howned

theorem LazyIn.copyOut {c : RotatingKVCache α} {id : Nat} {ids : List Nat}
    (h : c.LazyIn (id :: ids)) : (c.copyOut id).LazyIn ids := by
  intro id' s' hs' hnone
  unfold RotatingKVCache.copyOut at hs'
  cases hs : c.heap.lookup id with
  | none =>
    rw [hs] at hs'
    refine (List.mem_cons.mp (h id' s' hs' hnone)).resolve_left ?_
    rintro rfl
    rw [hs] at hs'
    cases hs'
  | some s =>
    simp only [hs] at hs'
    split at hs'
    · rename_i howned
      refine (List.mem_cons.mp (h id' s' hs' hnone)).resolve_left ?_
      rintro rfl
      rw [hs] at hs'
      obtain rfl := Option.some.inj hs'
      rw [hnone] at howned
      cases howned
    · simp only [dropLazySnapshot, GoMap.lookup_insert_ite] at hs'
      split at hs'
      · obtain rfl := Option.some.inj hs'
        cases hnone
      · rename_i hne
        exact (List.mem_cons.mp (h id' s' hs' hnone)).resolve_left hne

theorem foldl_copyOut_spec (ids : List Nat) (c : RotatingKVCache α) :
    CopiedOut c (ids.foldl copyOut c) := by
  induction ids generalizing c with
  | nil => exact .refl c
  | cons id ids ih => exact (copyOut_spec c id).trans (ih (c.copyOut id))

theorem LazyIn.foldl_copyOut {ids rest : List Nat} {c : RotatingKVCache α}
    (h : c.LazyIn (ids ++ rest)) : (ids.foldl RotatingKVCache.copyOut c).LazyIn rest := by
  induction ids generalizing c with
  | nil => exact h
  | cons id ids ih =>
    show (ids.foldl RotatingKVCache.copyOut (c.copyOut id)).LazyIn rest
    exact ih (LazyIn.copyOut h)

theorem copyOutLazySnapshots_spec (c : RotatingKVCache α) :
    CopiedOut c c.copyOutLazySnapshots := foldl_copyOut_spec c.lazySnapshots c

/-- No snapshot is lazy afterwards. -/
theorem LazyIn.copyOutLazySnapshots {c : RotatingKVCache α} (h : c.LazyIn c.lazySnapshots) :
    c.copyOutLazySnapshots.LazyIn [] := by
  refine LazyIn.foldl_copyOut ?_
  rw [List.append_nil]
  exact h

/-! ## Captures -/

/-- What a capture may add to `c₀`. -/
structure Captured (window : Nat) (c₀ : RotatingKVCache α) (seqOf : Nat → Nat → List α)
    (c : RotatingKVCache α) : Prop where
  live : c.live = c₀.live
  heap : HeapOk window c seqOf
  listed : c.LazyIn c.lazySnapshots
  fresh : c₀.fresh ≤ c.fresh

theorem Captured.setSnapshots {window : Nat} {c₀ c : RotatingKVCache α}
    {seqOf : Nat → Nat → List α} (h : Captured window c₀ seqOf c) (p : PendingSnapshots) :
    Captured window c₀ seqOf { c with snapshots := p } :=
  ⟨h.live, h.heap.of_buffer rfl rfl rfl, h.listed.of_heap rfl, h.fresh⟩

/-- `Snapshot` of a cache that holds the end of `seq`. -/
theorem snapshot_spec {window : Nat} {c₀ c : RotatingKVCache α} {seqOf : Nat → Nat → List α}
    {seq : List α} (h : Captured window c₀ seqOf c) (hoff : c₀.offset = seq.length)
    (hholds : Holds window c₀.buffer c₀.idx seq)
    (hseq : ∀ id, c₀.fresh ≤ id → seqOf id seq.length = seq) (fromOffset : Nat) :
    Captured window c₀ seqOf (c.snapshot fromOffset).1 := by
  unfold snapshot
  cases hkeys : c.keys with
  | none =>
    rw [state, hkeys]
    exact h
  | some rows =>
    rw [state, hkeys]
    simp only [Option.map_some]
    split
    · exact h
    · have hc : c.offset = seq.length := (offset_of_live h.live).trans hoff
      have hbuf : c₀.buffer = rows := by
        rw [← buffer_of_live h.live, buffer, hkeys]
        rfl
      refine ⟨h.live, h.heap.alloc rfl rfl rfl ⟨?_, ?_, nofun⟩,
        h.listed.alloc rfl (fun id hid => hid) nofun, Nat.le_succ_of_le h.fresh⟩
      · show c.offset = (seqOf c.fresh c.offset).length
        rw [hc, hseq c.fresh h.fresh]
      · show Holds window (rows.take (min c.offset rows.length)) c.idx (seqOf c.fresh c.offset)
        rw [hc, hseq c.fresh h.fresh, idx_of_live h.live]
        rw [hbuf] at hholds
        exact hholds.clone

/-- `lazyRotatingSnapshot` in a buffer that is in order. -/
theorem lazyRotatingSnapshot_spec {c₀ c : RotatingKVCache α} {seqOf : Nat → Nat → List α}
    {seq : List α} {b o : Nat} (h : Captured c₀.maxSize c₀ seqOf c)
    (hoff : c₀.offset = seq.length) (hbuf : c₀.buffer = seq.drop b) (ho : o ≤ seq.length)
    (hb : b ≤ o - c₀.maxSize) (hseq : ∀ id, c₀.fresh ≤ id → seqOf id o = seq.take o) :
    Captured c₀.maxSize c₀ seqOf (c.lazyRotatingSnapshot o).1 := by
  unfold lazyRotatingSnapshot
  cases hkeys : c.keys with
  | none => exact h
  | some rows =>
    simp only
    split
    · exact h
    · have hrows : rows = seq.drop b := by
        rw [← hbuf, ← buffer_of_live h.live, buffer, hkeys]
        rfl
      have hbase : c.offset - rows.length = b := by
        rw [offset_of_live h.live, hoff, hrows, List.length_drop]
        omega
      have hlen : (seq.take o).length = o := by
        rw [List.length_take]
        omega
      refine ⟨h.live, h.heap.alloc rfl rfl rfl ⟨?_, ?_, fun _ => rfl⟩, h.listed.alloc rfl
        (fun id hid => List.mem_append_left _ hid)
        (fun _ => List.mem_append_right _ (List.mem_singleton_self _)),
        Nat.le_succ_of_le h.fresh⟩
      · show o = (seqOf c.fresh o).length
        rw [hseq c.fresh h.fresh, hlen]
      · show Holds c₀.maxSize (slice c.buffer (o - min o c.maxSize - (c.offset - rows.length))
          (o - (c.offset - rows.length))) (min o c.maxSize) (seqOf c.fresh o)
        have hbufc : c.buffer = seq.drop b := (buffer_of_live h.live).trans hbuf
        have hslice : slice (seq.drop b) (o - min o c₀.maxSize - b) (o - b) =
            (seq.take o).drop ((seq.take o).length - min o c₀.maxSize) := by
          rw [hlen, slice, List.drop_drop, List.drop_take]
          congr 1
          · omega
          · congr 1
            omega
        rw [hseq c.fresh h.fresh, hbase, hbufc, maxSize_of_live h.live, hslice]
        exact holds_suffix (by rw [hlen]) (by rw [hlen]; omega)

theorem captureReached_spec {window : Nat} {c₀ c : RotatingKVCache α}
    {seqOf : Nat → Nat → List α} (reached : Nat)
    {snap : RotatingKVCache α → RotatingKVCache α × Option Nat}
    (hsnap : ∀ c, Captured window c₀ seqOf c → Captured window c₀ seqOf (snap c).1)
    (h : Captured window c₀ seqOf c) : Captured window c₀ seqOf (c.captureReached reached snap) := by
  have hcap : Captured window c₀ seqOf (c.snapshots.captureReached reached snap c).1 :=
    PendingSnapshots.captureReached_rule hsnap c.snapshots h
  exact hcap.setSnapshots _

theorem captureLazySnapshots_spec {window : Nat} {c₀ c : RotatingKVCache α}
    {seqOf : Nat → Nat → List α} {start stop : Nat} {batched : Bool}
    (hsnap : ∀ o, start < o → o ≤ stop → ∀ c, Captured window c₀ seqOf c →
      Captured window c₀ seqOf
        (if batched then c.lazyRotatingSnapshot o else c.snapshot (o - min o c.maxSize)).1)
    (h : Captured window c₀ seqOf c) :
    Captured window c₀ seqOf (c.captureLazySnapshots start stop batched) := by
  have hmem : ∀ o ∈ c.snapshots.scheduledIn start stop, start ≤ o ∧ o ≤ stop :=
    fun o ho => PendingSnapshots.mem_scheduledIn ho
  unfold captureLazySnapshots
  generalize c.snapshots.scheduledIn start stop = offsets at hmem ⊢
  induction offsets generalizing c with
  | nil => exact h
  | cons o offsets ih =>
    obtain ⟨hle, hstop⟩ := hmem o List.mem_cons_self
    rw [List.foldl_cons]
    refine ih ?_ fun o' ho' => hmem o' (List.mem_cons_of_mem _ ho')
    split
    · exact h
    · rename_i hne
      exact captureReached_spec o (hsnap o (by omega) hstop) h

end RotatingKVCache

end Prismalama.Mlxrunner
