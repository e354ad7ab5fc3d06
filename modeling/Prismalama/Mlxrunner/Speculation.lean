import Prismalama.Mlxrunner.KVSnapshots
import Prismalama.Mlxrunner.RotatingWindow
import Prismalama.Mlxrunner.Mtp

/-!
# Speculation and the caches

Snapshots are scheduled at every draft token, the drafts are fed, and each cache is
brought back to the accepted ones. Whatever its kind, a cache that held a sequence then
holds the sequence with the accepted drafts (`Cache.Holds.speculates`).
-/

namespace Prismalama.Mlxrunner

open Prismalama.Lib

namespace PendingSnapshots

theorem captured_captureReached {C : Type*} {p : PendingSnapshots} (h : p.captured = none)
    (reached : Nat) (snap : C → C × Option Nat) (c : C) :
    p.captureReached reached snap c = (c, p) := by
  unfold captureReached
  rw [h]

end PendingSnapshots

/-! ## The KV cache -/

namespace KVCache

variable {α : Type*}

/-- The rows before the offset. -/
structure Live (c : KVCache α) (seq : List α) : Prop where
  step : 0 < c.step
  offset : c.offset = seq.length
  rows : c.buffer.take seq.length = seq

/-- The cache apart from its snapshots and the flag. -/
def core (c : KVCache α) : Option (List α) × Nat × Nat := (c.keys, c.offset, c.step)

theorem Live.of_core {c c' : KVCache α} {seq : List α} (h : c.Live seq)
    (hcore : c'.core = c.core) : c'.Live seq := by
  have hkeys : c'.keys = c.keys := congrArg Prod.fst hcore
  have hoff : c'.offset = c.offset := congrArg (fun x => x.2.1) hcore
  have hstep : c'.step = c.step := congrArg (fun x => x.2.2) hcore
  refine ⟨hstep ▸ h.step, hoff.trans h.offset, ?_⟩
  rw [buffer, hkeys]
  exact h.rows

theorem copyOut_core (c : KVCache α) (id : Nat) : (c.copyOut id).core = c.core := by
  unfold copyOut
  split
  · rfl
  · split <;> rfl

theorem copyOutBefore_core (c : KVCache α) (n : Nat) : (c.copyOutBefore n).core = c.core := by
  have hfold : ∀ step : KVCache α → Nat → KVCache α, (∀ c' id, (step c' id).core = c'.core) →
      ∀ (ids : List Nat) (c' : KVCache α), (ids.foldl step c').core = c'.core := by
    intro step hstep ids
    induction ids with
    | nil => exact fun _ => rfl
    | cons id ids ih =>
      intro c'
      rw [List.foldl_cons, ih, hstep]
  unfold copyOutBefore
  split
  · refine hfold _ (fun c' id => ?_) c.lazySnapshots c
    split
    · rfl
    · split
      · exact copyOut_core c' id
      · rfl
  · rfl

theorem Live.writeRows [Inhabited α] {c : KVCache α} {seq : List α} (h : c.Live seq)
    {rows : List α} (hrows : rows ≠ []) : (c.writeRows rows).Live (seq ++ rows) := by
  have hle : c.offset ≤ c.buffer.length := by
    have hlen := congrArg List.length h.rows
    rw [List.length_take] at hlen
    have hoff := h.offset
    omega
  obtain ⟨hroom, hbefore, -⟩ := grow_buffer h.step hle (List.length_pos_of_ne_nil hrows)
  obtain ⟨-, -, hoff, hstep, -⟩ := grow_heap c rows.length
  have htake : (c.grow rows.length).buffer.take c.offset = seq := by
    refine Eq.trans (List.ext_getElem? fun i => ?_) h.rows
    rw [List.getElem?_take, List.getElem?_take, ← h.offset]
    split
    · rename_i hi
      exact hbefore i hi
    · rfl
  refine ⟨?_, ?_, ?_⟩
  · show 0 < (c.grow rows.length).step
    rw [hstep]
    exact h.step
  · show (c.grow rows.length).offset + rows.length = _
    rw [hoff, h.offset, List.length_append]
  · show (sliceUpdate (c.grow rows.length).buffer (c.grow rows.length).offset rows).take _ = _
    rw [hoff, sliceUpdate, htake]
    exact List.take_left

theorem lazySnapshot_core (c : KVCache α) (lo hi : Nat) : (c.lazySnapshot lo hi).1.core = c.core := by
  unfold lazySnapshot
  split <;> rfl

theorem captureReached_core (c : KVCache α) (reached : Nat) :
    (c.captureReached reached).core = c.core :=
  PendingSnapshots.captureReached_rule (P := fun c' : KVCache α => c'.core = c.core)
    (fun c' h => (lazySnapshot_core c' _ _).trans h) c.snapshots rfl

theorem captureLazySnapshots_core (c : KVCache α) (start stop : Nat) :
    (c.captureLazySnapshots start stop).core = c.core := by
  unfold captureLazySnapshots
  generalize c.snapshots.scheduledIn start stop = offsets
  induction offsets generalizing c with
  | nil => rfl
  | cons o offsets ih => exact (ih (c.captureReached o)).trans (captureReached_core c o)

theorem Live.update [Inhabited α] {c : KVCache α} {seq : List α} (h : c.Live seq)
    {rows : List α} (hrows : rows ≠ []) : (c.update rows).1.Live (seq ++ rows) := by
  have hwritten : (c.appendKV rows).1.Live (seq ++ rows) :=
    (h.of_core (copyOutBefore_core c rows.length)).writeRows hrows
  exact hwritten.of_core (captureLazySnapshots_core _ _ _)

theorem close_core (c : KVCache α) (id : Nat) :
    (c.close id).core = c.core ∧ (c.close id).snapshots = c.snapshots := by
  unfold close
  split
  · exact ⟨rfl, rfl⟩
  · simp only
    split <;> exact ⟨rfl, rfl⟩

theorem Live.rewind [Inhabited α] {c : KVCache α} {seq : List α} (h : c.Live seq) {t : Nat}
    (ht : t ≤ seq.length) :
    (c.restore none t).2 = true ∧ (c.restore none t).1.Live (seq.take t) ∧
      (c.restore none t).1.snapshots = c.snapshots := by
  have hoff := h.offset
  have hlen : (seq.take t).length = t := by
    rw [List.length_take, Nat.min_eq_left ht]
  unfold restore KVCache.rewind
  rw [if_neg (by omega)]
  show ((if c.offset < (t : Int).toNat then _ else _ : KVCache α × Bool)).2 = true ∧ _
  rw [Int.toNat_natCast, if_neg (by omega)]
  refine ⟨rfl, ⟨h.step, hlen.symm, ?_⟩, rfl⟩
  rw [hlen]
  conv_rhs => rw [← h.rows, List.take_take, Nat.min_eq_left ht]
  rfl

theorem copyOut_snapshots (c : KVCache α) (id : Nat) :
    (c.copyOut id).snapshots = c.snapshots := by
  unfold copyOut
  split
  · rfl
  · split <;> rfl

/-- Without a schedule an update captures nothing. -/
theorem update_idle [Inhabited α] {c : KVCache α} (h : c.snapshots.captured = none)
    (rows : List α) : (c.update rows).1.snapshots.captured = none := by
  have hcopy : (c.copyOutBefore rows.length).snapshots = c.snapshots := by
    unfold copyOutBefore
    split
    · refine List.foldlRecOn (motive := fun c' : KVCache α => c'.snapshots = c.snapshots) _ _ rfl
        fun c' hc' id _ => ?_
      split
      · exact hc'
      · split
        · exact (copyOut_snapshots c' id).trans hc'
        · exact hc'
    · rfl
  obtain ⟨-, -, -, -, hgrow, -⟩ := grow_heap (c.copyOutBefore rows.length) rows.length
  have hwritten : (c.appendKV rows).1.snapshots.captured = none := by
    show ((c.copyOutBefore rows.length).grow rows.length).snapshots.captured = none
    rw [hgrow, hcopy, h]
  show ((c.appendKV rows).1.captureLazySnapshots _ _).snapshots.captured = none
  unfold captureLazySnapshots
  refine List.foldlRecOn (motive := fun c' : KVCache α => c'.snapshots.captured = none) _ _ hwritten
    fun c' hc' o _ => ?_
  unfold captureReached
  rw [PendingSnapshots.captured_captureReached hc']
  exact hc'

end KVCache

/-! ## The sliding-window cache -/

namespace RotatingKVCache

variable {α : Type*}

/-- A snapshot from `fresh` on that is open and stands at `o`. -/
def OpenAt (fresh : Nat) (c : RotatingKVCache α) (id o : Nat) : Prop :=
  fresh ≤ id ∧ ∃ sn, c.heap.lookup id = some sn ∧ sn.toOffset = o

theorem OpenAt.alloc {fresh : Nat} {c c' : RotatingKVCache α} {window : Nat}
    {seqOf : Nat → Nat → List α} (h : HeapOk window c seqOf) {sn : RotatingSnapshot α}
    (hheap : c'.heap = c.heap.insert c.fresh sn) {id o : Nat} (hopen : OpenAt fresh c id o) :
    OpenAt fresh c' id o := by
  obtain ⟨hle, sn', hsn', hto⟩ := hopen
  refine ⟨hle, sn', ?_, hto⟩
  rw [hheap, GoMap.lookup_insert_ite, if_neg]
  · exact hsn'
  · have := h.fresh id sn' hsn'
    omega

theorem OpenAt.new {fresh : Nat} {c c' : RotatingKVCache α} (hle : fresh ≤ c.fresh)
    {sn : RotatingSnapshot α} (hheap : c'.heap = c.heap.insert c.fresh sn) :
    OpenAt fresh c' c.fresh sn.toOffset := by
  refine ⟨hle, sn, ?_, rfl⟩
  rw [hheap, GoMap.lookup_insert_ite, if_pos rfl]

theorem OpenAt.copiedOut {fresh : Nat} {c c' : RotatingKVCache α} (h : CopiedOut c c') {id o : Nat}
    (hopen : OpenAt fresh c id o) : OpenAt fresh c' id o := by
  obtain ⟨hle, sn, hsn, hto⟩ := hopen
  obtain ⟨sn', hsn', hto'⟩ := h.stays id sn hsn
  exact ⟨hle, sn', hsn', hto'.trans hto⟩

/-- A snapshot of the whole of a cache that is not empty. -/
theorem snapshot_captures {window : Nat} {c₀ : RotatingKVCache α} {seqOf : Nat → Nat → List α}
    {seq : List α} (hoff : c₀.offset = seq.length) (hholds : Holds window c₀.buffer c₀.idx seq)
    (hseq : ∀ id, c₀.fresh ≤ id → seqOf id seq.length = seq) (hkeys : c₀.keys ≠ none)
    {fromOffset : Nat} (hlt : fromOffset < seq.length) :
    PendingSnapshots.Captures (Captured window c₀ seqOf) (OpenAt c₀.fresh) seq.length
      fun c => c.snapshot fromOffset := by
  have heq : ∀ c, Captured window c₀ seqOf c → ∃ sn : RotatingSnapshot α, sn.toOffset = seq.length ∧
      (c.snapshot fromOffset).1.heap = c.heap.insert c.fresh sn ∧
      (c.snapshot fromOffset).2 = some c.fresh := by
    intro c hc
    obtain ⟨rows, hrows⟩ := Option.ne_none_iff_exists'.mp hkeys
    rw [← keys_of_live hc.live] at hrows
    have hc' : c.offset = seq.length := (offset_of_live hc.live).trans hoff
    unfold snapshot state
    rw [hrows]
    simp only [Option.map_some]
    rw [if_neg (by omega)]
    exact ⟨_, hc', rfl, rfl⟩
  refine ⟨fun c hc => snapshot_spec hc hoff hholds hseq fromOffset, fun c hc id o hopen => ?_,
    fun c hc => ?_⟩
  · obtain ⟨sn, -, hheap, -⟩ := heq c hc
    exact hopen.alloc hc.heap hheap
  · obtain ⟨sn, hto, hheap, hid⟩ := heq c hc
    refine ⟨c.fresh, hid, ?_⟩
    rw [← hto]
    exact .new hc.fresh hheap

/-- A lazy snapshot in a buffer that is in order. -/
theorem lazyRotatingSnapshot_captures {c₀ : RotatingKVCache α} {seqOf : Nat → Nat → List α}
    {fresh : Nat} (hfresh : fresh ≤ c₀.fresh) {seq : List α} {b o : Nat}
    (hpos : 0 < c₀.maxSize) (hoff : c₀.offset = seq.length) (hbuf : c₀.buffer = seq.drop b)
    (hkeys : c₀.keys ≠ none) (ho : o ≤ seq.length) (hopos : 0 < o) (hb : b ≤ o - c₀.maxSize)
    (hseq : ∀ id, c₀.fresh ≤ id → seqOf id o = seq.take o) :
    PendingSnapshots.Captures (Captured c₀.maxSize c₀ seqOf) (OpenAt fresh) o
      fun c => c.lazyRotatingSnapshot o := by
  have heq : ∀ c, Captured c₀.maxSize c₀ seqOf c → ∃ sn : RotatingSnapshot α, sn.toOffset = o ∧
      (c.lazyRotatingSnapshot o).1.heap = c.heap.insert c.fresh sn ∧
      (c.lazyRotatingSnapshot o).2 = some c.fresh := by
    intro c hc
    obtain ⟨rows, hrows⟩ := Option.ne_none_iff_exists'.mp hkeys
    have hlen : rows.length = seq.length - b := by
      rw [← List.length_drop, ← hbuf, buffer, hrows]
      rfl
    rw [← keys_of_live hc.live] at hrows
    have hc' : c.offset = seq.length := (offset_of_live hc.live).trans hoff
    have hmax := maxSize_of_live hc.live
    unfold lazyRotatingSnapshot
    rw [hrows]
    simp only
    rw [if_neg (by omega)]
    exact ⟨_, rfl, rfl, rfl⟩
  refine ⟨fun c hc => lazyRotatingSnapshot_spec hc hoff hbuf ho hb hseq, fun c hc id o hopen => ?_,
    fun c hc => ?_⟩
  · obtain ⟨sn, -, hheap, -⟩ := heq c hc
    exact hopen.alloc hc.heap hheap
  · obtain ⟨sn, hto, hheap, hid⟩ := heq c hc
    have hnew := OpenAt.new (hfresh.trans hc.fresh) hheap
    rw [hto] at hnew
    exact ⟨c.fresh, hid, hnew⟩

/-- Every offset behind the start of the write is captured in turn. -/
theorem captureLazySnapshots_filled {window fresh : Nat} {c₀ c : RotatingKVCache α}
    {seqOf : Nat → Nat → List α} {offsets : List Nat} {start stop : Nat} {batched : Bool}
    (hsnap : ∀ o ∈ offsets, start < o → PendingSnapshots.Captures (Captured window c₀ seqOf)
      (OpenAt fresh) o fun c =>
        if batched then c.lazyRotatingSnapshot o else c.snapshot (o - min o c.maxSize))
    (hrange : ∀ o ∈ offsets, start ≤ o ∧ o ≤ stop) (hnodup : offsets.Nodup)
    (h : Captured window c₀ seqOf c)
    (hfilled : c.snapshots.Filled offsets (OpenAt fresh c) (· = start)) :
    (c.captureLazySnapshots start stop batched).snapshots.Filled offsets
      (OpenAt fresh (c.captureLazySnapshots start stop batched)) (· ∈ offsets) := by
  have hfold : ∀ (rest : List Nat) (c : RotatingKVCache α) (Done : Nat → Prop),
      (∀ o ∈ rest, o ∈ offsets) → rest.Nodup → (∀ o ∈ rest, o ≠ start → ¬ Done o) → Done start →
      Captured window c₀ seqOf c → c.snapshots.Filled offsets (OpenAt fresh c) Done →
      (rest.foldl (fun c o =>
        if o = start then c
        else c.captureReached o fun c =>
          if batched then c.lazyRotatingSnapshot o else c.snapshot (o - min o c.maxSize))
        c).snapshots.Filled offsets (OpenAt fresh (rest.foldl (fun c o =>
        if o = start then c
        else c.captureReached o fun c =>
          if batched then c.lazyRotatingSnapshot o else c.snapshot (o - min o c.maxSize))
        c)) fun o => Done o ∨ o ∈ rest := by
    intro rest
    induction rest with
    | nil =>
      intro c Done _ _ _ _ _ hfilled
      exact hfilled.congr fun o _ => by simp
    | cons o rest ih =>
      intro c Done hsub hnodup hnot hstart h hfilled
      rw [List.foldl_cons]
      have hsub' : ∀ o' ∈ rest, o' ∈ offsets := fun o' ho' => hsub o' (List.mem_cons_of_mem _ ho')
      obtain ⟨hnew, hnodup'⟩ := List.nodup_cons.mp hnodup
      by_cases ho : o = start
      · rw [if_pos ho]
        refine (ih c Done hsub' hnodup' (fun o' ho' => hnot o' (List.mem_cons_of_mem _ ho')) hstart h
          hfilled).congr fun o' _ => ?_
        rw [List.mem_cons]
        refine ⟨fun hor => hor.imp_right .inr, ?_⟩
        rintro (hdone | rfl | hmem)
        · exact .inl hdone
        · exact .inl (ho ▸ hstart)
        · exact .inr hmem
      · rw [if_neg ho]
        have hmem := hsub o List.mem_cons_self
        have hlt : start < o := by
          have := (hrange o hmem).1
          omega
        obtain ⟨hP, -, hfilled'⟩ := (hsnap o hmem hlt).filled h hfilled
          (hnot o List.mem_cons_self ho)
        refine (ih _ (fun o' => Done o' ∨ o' = o) hsub' hnodup' (fun o' ho' hne => ?_) (.inl hstart)
          (hP.setSnapshots _) hfilled').congr fun o' _ => ?_
        · rintro (hdone | rfl)
          · exact hnot o' (List.mem_cons_of_mem _ ho') hne hdone
          · exact hnew ho'
        · rw [List.mem_cons, or_assoc]
  have hall : c.snapshots.scheduledIn start stop = offsets := by
    unfold PendingSnapshots.scheduledIn
    rw [hfilled.1]
    exact List.filter_eq_self.mpr fun o ho => by simpa using hrange o ho
  unfold captureLazySnapshots
  rw [hall]
  refine (hfold offsets c (· = start) (fun _ ho => ho) hnodup (fun _ _ hne => hne) rfl h
    hfilled).congr fun o ho => ?_
  exact ⟨fun _ => ho, .inr⟩

/-- An update captures at every scheduled offset. -/
theorem update_filled [Inhabited α] {window : Nat} {c : RotatingKVCache α} {seq : List α}
    {taken : Nat → List α} (h : Tracks window c seq) (hpos : 0 < window)
    (hheap : HeapOk window c fun id _ => taken id) (hlisted : c.LazyIn c.lazySnapshots)
    (hseq : seq ≠ []) {keys : List α} (hne : keys ≠ []) {offsets : List Nat}
    (hfilled : c.snapshots.Filled offsets (OpenAt c.fresh c) fun _ => False)
    (hrange : ∀ o ∈ offsets, seq.length ≤ o ∧ o < seq.length + keys.length)
    (hnodup : offsets.Nodup) :
    (c.update keys).1.snapshots.Filled offsets (OpenAt c.fresh (c.update keys).1)
      (· ∈ offsets) := by
  have hlen : (seq ++ keys).length = seq.length + keys.length := List.length_append
  have hseqlen : 0 < seq.length := List.length_pos_of_ne_nil hseq
  have hkeys : 0 < keys.length := List.length_pos_of_ne_nil hne
  have hrows : c.keys ≠ none := fun hnone => hseq (h.eq_nil hpos hnone).1
  have hnew : ∀ id, c.fresh ≤ id → c.seqDuring (seq ++ keys) taken id seq.length = seq :=
    fun id hid => by rw [seqDuring_new hid, List.take_left]
  -- the start of the write
  obtain ⟨hcap, -, hfirst⟩ := (snapshot_captures h.offset h.holds hnew hrows hseqlen).filled
    ⟨rfl, hheap.during (seq ++ keys), hlisted, Nat.le_refl _⟩ hfilled not_false
  have hstart := hcap.setSnapshots
    (c.snapshots.captureReached seq.length (fun c => c.snapshot 0) c).2
  have ht := h.of_live hstart.live
  have hfresh := hstart.fresh
  have hbound : c.captureStartBoundary c.offset =
      { (c.snapshots.captureReached seq.length (fun c => c.snapshot 0) c).1 with
        snapshots := (c.snapshots.captureReached seq.length (fun c => c.snapshot 0) c).2 } := by
    rw [h.offset]
    rfl
  have hfirst' : (c.captureStartBoundary c.offset).snapshots.Filled offsets
      (OpenAt c.fresh (c.captureStartBoundary c.offset)) (· = seq.length) := by
    rw [hbound]
    exact hfirst.congr fun o _ => or_iff_right not_false
  rw [← hbound] at hstart ht hfresh
  by_cases hbatched : 1 < keys.length
  · simp only [update, decide_eq_true hbatched, if_true]
    generalize c.captureStartBoundary c.offset = c₁ at hstart ht hfresh hfirst' ⊢
    obtain ⟨b, hb, hout, hbuf, hoff, hidx, hmax, hstep⟩ := concat_spec ht hpos keys
    obtain ⟨hok, howned, hfr⟩ := concat_heap hstart.heap hstart.listed keys
    have hcopied := copyOutLazySnapshots_spec c₁
    have hsecond : (c₁.concat keys).1.snapshots.Filled offsets
        (OpenAt c.fresh (c₁.concat keys).1) (· = seq.length) := by
      have hsame : (c₁.concat keys).1.snapshots = c₁.snapshots := hcopied.snapshots
      rw [hsame]
      exact hfirst'.mono fun id o hopen => hopen.copiedOut hcopied
    generalize c₁.concat keys = out at hout hbuf hoff hidx hmax hstep hok howned hfr hsecond ⊢
    have hbuffer : out.1.buffer = (seq ++ keys).drop b := by
      rw [buffer, hbuf, Option.getD_some, hout]
    have hwin : out.1.maxSize = window := hmax.trans ht.maxSize
    have hoffset : out.1.offset = (seq ++ keys).length := hoff.trans hlen.symm
    rw [h.offset]
    rw [← hwin] at hok hb
    refine captureLazySnapshots_filled (fun o ho hlt => ?_) (fun o ho => ?_) hnodup
      ⟨rfl, hok, howned.mono (List.nil_subset _), Nat.le_refl _⟩ hsecond
    · obtain ⟨-, hlt'⟩ := hrange o ho
      simp only [if_true]
      refine lazyRotatingSnapshot_captures (by omega) (by omega) hoffset hbuffer ?_ (by omega)
        (by omega) (by omega) fun id hid => seqDuring_new (by omega) o
      rw [hbuf]
      exact fun h => absurd h (Option.some_ne_none _)
    · have := hrange o ho
      omega
  · obtain ⟨t, rfl⟩ := List.length_eq_one_iff.mp (show keys.length = 1 by omega)
    simp only [update, decide_eq_false hbatched, Bool.false_eq_true, if_false]
    generalize c.captureStartBoundary c.offset = c₁ at hstart ht hfresh hfirst' ⊢
    obtain ⟨ht₂, -⟩ := updateRing_spec ht hpos t
    obtain ⟨hok, howned, hfr⟩ := updateRing_heap hstart.heap hstart.listed [t]
    have hcopied := copyOutLazySnapshots_spec c₁
    have hsecond : (c₁.updateRing [t]).1.snapshots.Filled offsets
        (OpenAt c.fresh (c₁.updateRing [t]).1) (· = seq.length) := by
      have hsame : (c₁.updateRing [t]).1.snapshots = c₁.snapshots :=
        (grow_trim_snapshots _).trans hcopied.snapshots
      have hsameHeap : (c₁.updateRing [t]).1.heap = c₁.copyOutLazySnapshots.heap :=
        (grow_trim_heap _).1
      rw [hsame]
      refine hfirst'.mono fun id o hopen => ?_
      have hcopy := hopen.copiedOut hcopied
      unfold OpenAt at hcopy ⊢
      rwa [hsameHeap]
    generalize c₁.updateRing [t] = out at ht₂ hok howned hfr hsecond ⊢
    rw [h.offset]
    refine captureLazySnapshots_filled (fun o ho hlt => ?_) (fun o ho => ?_) hnodup
      ⟨rfl, hok, howned.mono (List.nil_subset _), Nat.le_refl _⟩ hsecond
    · have := (hrange o ho).2
      rw [List.length_singleton] at this
      omega
    · have := hrange o ho
      rw [ht₂.offset, hlen]
      omega

/-- The cache holds `seq`, and its snapshots what they were taken of. -/
structure Intact (c : RotatingKVCache α) (taken : Nat → List α) (seq : List α) : Prop where
  pos : 0 < c.maxSize
  tracks : Tracks c.maxSize c seq
  heap : HeapOk c.maxSize c fun id _ => taken id
  listed : c.LazyIn c.lazySnapshots

theorem Intact.setSnapshots {c : RotatingKVCache α} {taken : Nat → List α} {seq : List α}
    (h : c.Intact taken seq) (p : PendingSnapshots) :
    ({ c with snapshots := p } : RotatingKVCache α).Intact taken seq :=
  ⟨h.pos, h.tracks.of_live rfl, h.heap.of_buffer rfl rfl rfl, h.listed.of_heap rfl⟩

theorem Intact.update [Inhabited α] {c : RotatingKVCache α} {taken : Nat → List α} {seq : List α}
    (h : c.Intact taken seq) {rows : List α} (hrows : rows ≠ []) :
    (c.update rows).1.Intact (RotatingRun.capture c (c.update rows).1 (seq ++ rows) taken)
      (seq ++ rows) := by
  obtain ⟨ht, hcap, -⟩ := update_spec h.tracks h.pos h.heap h.listed hrows
  have hmax := ht.maxSize
  refine ⟨hmax ▸ h.pos, ?_, ?_, hcap.listed⟩
  · rw [hmax]
    exact ht
  · rw [hmax]
    exact RotatingRun.heapOk_capture hcap.heap

theorem Intact.close {c : RotatingKVCache α} {taken : Nat → List α} {seq : List α}
    (h : c.Intact taken seq) (id : Nat) : (c.close id).Intact taken seq := by
  obtain ⟨hlive, hok, hlist⟩ := close_spec h.heap h.listed id
  have hmax := maxSize_of_live hlive
  refine ⟨hmax ▸ h.pos, ?_, ?_, hlist⟩
  · rw [hmax]
    exact h.tracks.of_live hlive
  · rw [hmax]
    exact hok

theorem close_snapshots (c : RotatingKVCache α) (id : Nat) : (c.close id).snapshots = c.snapshots := by
  unfold RotatingKVCache.close
  split
  · rfl
  · simp only
    split <;> rfl

theorem lookup_close {c : RotatingKVCache α} {id id' : Nat} (hne : id ≠ id') :
    (c.close id).heap.lookup id' = c.heap.lookup id' := by
  unfold RotatingKVCache.close
  split
  · rfl
  · have herase : (c.heap.erase id).lookup id' = c.heap.lookup id' := by
      rw [GoMap.lookup_erase_ite, if_neg (Ne.symm hne)]
    simp only
    split <;> exact herase

theorem restore_keeps [Inhabited α] {c : RotatingKVCache α} {taken : Nat → List α} {seq : List α}
    (h : c.Intact taken seq) (snapshot : Option Nat) (target : Nat)
    (htrue : (c.restore snapshot target).2 = true) :
    (c.restore snapshot target).1.Intact taken ((snapshot.elim seq taken).take target) := by
  have hrestored := restore_spec h.tracks h.heap h.listed snapshot target
  have ht := hrestored.tracks htrue
  rw [Int.toNat_natCast] at ht
  have hmax := ht.maxSize
  refine ⟨hmax ▸ h.pos, ?_, ?_, hrestored.listed⟩
  · rw [hmax]
    exact ht
  · rw [hmax]
    exact hrestored.heap

theorem copyOutLazySnapshots_snapshots (c : RotatingKVCache α) :
    c.copyOutLazySnapshots.snapshots = c.snapshots := (copyOutLazySnapshots_spec c).snapshots

theorem restore_snapshots (c : RotatingKVCache α) (snapshot : Option Nat) (target : Int) :
    (c.restore snapshot target).1.snapshots = c.snapshots := by
  unfold restore
  split
  · rfl
  · cases snapshot with
    | none =>
      show (c.rewind target.toNat).1.snapshots = _
      unfold rewind
      split
      · rfl
      · split <;> rfl
    | some id =>
      have hset : ∀ (c' : RotatingKVCache α) (snap : RotatingSnapshot α) (t : Nat),
          (c'.setOffset snap t).snapshots = c'.snapshots := by
        intro c' snap t
        unfold setOffset
        split <;> rfl
      simp only
      split
      · rfl
      · split
        · rfl
        · split
          · rfl
          · split
            · simp only [hset]
              exact copyOutLazySnapshots_snapshots (c.dropLazySnapshot id)
            · simp only [hset]
              exact (copyOutLazySnapshots_snapshots _).trans (copyOut_spec c id).snapshots

/-- Without a schedule an update captures nothing. -/
theorem update_idle [Inhabited α] {c : RotatingKVCache α} (h : c.snapshots.captured = none)
    (rows : List α) : (c.update rows).1.snapshots.captured = none := by
  have hreached : ∀ (c' : RotatingKVCache α) o snap, c'.snapshots.captured = none →
      (c'.captureReached o snap).snapshots.captured = none := by
    intro c' o snap hc'
    unfold captureReached
    rw [PendingSnapshots.captured_captureReached hc']
    exact hc'
  have hstart : (c.captureStartBoundary c.offset).snapshots.captured = none := hreached c _ _ h
  unfold update captureLazySnapshots
  refine List.foldlRecOn (motive := fun c' : RotatingKVCache α => c'.snapshots.captured = none)
    _ _ ?_ fun c' hc' o _ => ?_
  · generalize c.captureStartBoundary c.offset = c₁ at hstart ⊢
    have hcopied := (copyOutLazySnapshots_spec c₁).snapshots
    split
    · exact (congrArg PendingSnapshots.captured hcopied).trans hstart
    · exact (congrArg PendingSnapshots.captured ((grow_trim_snapshots _).trans hcopied)).trans hstart
  · split
    · exact hc'
    · exact hreached c' _ _ hc'

/-- A cache that cannot be cut back is as it was. -/
theorem restore_none_refused {c : RotatingKVCache α} {target : Int}
    (hfalse : (c.restore none target).2 = false) : (c.restore none target).1 = c := by
  unfold restore at hfalse ⊢
  split
  · rfl
  · rename_i htarget
    rw [if_neg htarget] at hfalse
    simp only [rewind] at hfalse ⊢
    split
    · rfl
    · rename_i hoff
      rw [if_neg hoff] at hfalse
      split
      · rfl
      · rename_i hmax
        rw [if_neg hmax] at hfalse
        cases hfalse

/-- A snapshot that stands at the target is restored. -/
theorem restore_at {c : RotatingKVCache α} {id target : Nat} {sn : RotatingSnapshot α}
    (hsn : c.heap.lookup id = some sn) (hto : sn.toOffset = target) :
    (c.restore (some id) target).2 = true := by
  unfold restore
  rw [if_neg (by omega)]
  simp only [hsn, Int.toNat_natCast]
  rw [if_neg (by omega), if_neg (by omega)]
  split <;> rfl

end RotatingKVCache

/-! ## The recurrent cache -/

namespace RecurrentCache

variable {α : Type*}

structure Tracks (c : RecurrentCache α) (seq : List α) : Prop where
  offset : c.offset = seq.length
  state : c.state.getD [] = seq
  fresh : ∀ (id : Nat) (sn : RecurrentSnapshot α), c.heap.lookup id = some sn → id < c.fresh

theorem Tracks.state_eq {c : RecurrentCache α} {seq : List α} (h : c.Tracks seq) (hseq : seq ≠ []) :
    c.state = some seq := by
  have hstate := h.state
  cases hc : c.state with
  | none =>
    rw [hc] at hstate
    exact absurd hstate.symm hseq
  | some st =>
    rw [hc] at hstate
    exact congrArg some hstate

theorem Tracks.close {c : RecurrentCache α} {seq : List α} (h : c.Tracks seq) (id : Nat) :
    (c.close id).Tracks seq := by
  refine ⟨h.offset, h.state, fun id' sn hsn => ?_⟩
  rw [RecurrentCache.close, GoMap.lookup_erase_ite] at hsn
  split at hsn
  · cases hsn
  · exact h.fresh id' sn hsn

/-- An open snapshot of the first `o` rows. -/
def OpenAt (full : List α) (c : RecurrentCache α) (id o : Nat) : Prop :=
  ∃ sn, c.heap.lookup id = some sn ∧ sn.offset = o ∧ sn.state = full.take o

/-- What a capture keeps. -/
structure Keeps (state : Option (List α)) (offset : Nat) (c : RecurrentCache α) : Prop where
  state : c.state = state
  offset : c.offset = offset
  fresh : ∀ (id : Nat) (sn : RecurrentSnapshot α), c.heap.lookup id = some sn → id < c.fresh

theorem Keeps.setSnapshots {state : Option (List α)} {offset : Nat} {c : RecurrentCache α}
    (h : Keeps state offset c) (p : PendingSnapshots) :
    Keeps state offset { c with snapshots := p } := ⟨h.state, h.offset, h.fresh⟩

theorem Keeps.alloc {state : Option (List α)} {offset : Nat} {c : RecurrentCache α}
    (h : Keeps state offset c) (st : List α) (o : Nat) : Keeps state offset (c.alloc st o).1 := by
  refine ⟨h.state, h.offset, fun id sn hsn => ?_⟩
  show id < c.fresh + 1
  unfold RecurrentCache.alloc at hsn
  rw [GoMap.lookup_insert_ite] at hsn
  split at hsn
  · omega
  · exact Nat.lt_succ_of_lt (h.fresh id sn hsn)

theorem Keeps.snapshot {state : Option (List α)} {offset : Nat} {c : RecurrentCache α}
    (h : Keeps state offset c) (fromOffset : Nat) :
    Keeps state offset (c.snapshot fromOffset).1 := by
  unfold RecurrentCache.snapshot
  split
  · exact h
  · exact h.alloc _ _

theorem alloc_captures {state : Option (List α)} {offset : Nat} {full st : List α} {o : Nat}
    (hst : st = full.take o) :
    PendingSnapshots.Captures (Keeps state offset) (OpenAt full) o fun c => c.alloc st o := by
  refine ⟨fun c hc => hc.alloc st o, fun c hc id o' hopen => ?_, fun c hc => ?_⟩
  · obtain ⟨sn, hsn, hoff, hstate⟩ := hopen
    refine ⟨sn, ?_, hoff, hstate⟩
    have := hc.fresh id sn hsn
    exact (GoMap.lookup_insert_ite _ _ _ _).trans ((if_neg (by omega)).trans hsn)
  · exact ⟨c.fresh, rfl, ⟨st, o⟩, (GoMap.lookup_insert_ite _ _ _ _).trans (if_pos rfl), rfl, hst⟩

theorem snapshot_captures {full st : List α} {o : Nat} (hst : st = full.take o) (f : Nat) :
    PendingSnapshots.Captures (Keeps (some st) o) (OpenAt full) o fun c => c.snapshot f := by
  have heq : ∀ c, Keeps (some st) o c → c.snapshot f = c.alloc st o := by
    intro c hc
    unfold RecurrentCache.snapshot
    rw [hc.state, hc.offset]
  have halloc : PendingSnapshots.Captures (Keeps (some st) o) (OpenAt full) o fun c => c.alloc st o :=
    alloc_captures hst
  refine ⟨fun c hc => hc.snapshot f, fun c hc => ?_, fun c hc => ?_⟩
  · rw [heq c hc]
    exact halloc.entries c hc
  · rw [heq c hc]
    exact halloc.captures c hc

theorem Keeps.captureBoundary {state : Option (List α)} {offset : Nat} {c : RecurrentCache α}
    (h : Keeps state offset c) (reached : Nat) : Keeps state offset (c.captureBoundary reached) :=
  (PendingSnapshots.captureReached_rule (fun _ hc => hc.snapshot _) c.snapshots h).setSnapshots _

theorem Keeps.captureBoundaryState {state : Option (List α)} {offset : Nat} {c : RecurrentCache α}
    (h : Keeps state offset c) (reached : Nat) (st : List α) :
    Keeps state offset (c.captureBoundaryState reached st) :=
  (PendingSnapshots.captureReached_rule (fun _ hc => hc.alloc _ _) c.snapshots h).setSnapshots _

/-- The cache after the captures at the splits. -/
def atSplits (c : RecurrentCache α) (seq rows : List α) : RecurrentCache α :=
  ((c.snapshotSplits rows.length).map fun s => (s, seq ++ rows.take s)).foldl
    (fun c e => c.captureBoundaryState (seq.length + e.1) e.2) { c with state := some seq }

/-- The cache before the last capture of an update. -/
def atEnd (c : RecurrentCache α) (seq rows : List α) : RecurrentCache α :=
  { c.atSplits seq rows with
    state := some (seq ++ rows)
    offset := (c.atSplits seq rows).offset + rows.length }

theorem Tracks.update_eq {c : RecurrentCache α} {seq : List α} (h : c.Tracks seq) (rows : List α) :
    c.update rows =
      (c.atEnd seq rows).captureBoundary ((c.atSplits seq rows).offset + rows.length) := by
  obtain ⟨hoff, hstate, -⟩ := h
  subst hstate
  unfold RecurrentCache.update put atEnd atSplits
  rw [← hoff]
  rfl

theorem Tracks.atSplits {c : RecurrentCache α} {seq : List α} (h : c.Tracks seq) (rows : List α) :
    Keeps (some seq) seq.length (c.atSplits seq rows) := by
  have hget : Keeps (some seq) seq.length { c with state := some seq } := ⟨rfl, h.offset, h.fresh⟩
  unfold RecurrentCache.atSplits
  generalize List.map _ (c.snapshotSplits rows.length) = interior
  generalize ({ c with state := some seq } : RecurrentCache α) = c' at hget ⊢
  induction interior generalizing c' with
  | nil => exact hget
  | cons e interior ih => exact ih _ (hget.captureBoundaryState _ _)

theorem Tracks.atEnd {c : RecurrentCache α} {seq : List α} (h : c.Tracks seq) (rows : List α) :
    Keeps (some (seq ++ rows)) (seq ++ rows).length (c.atEnd seq rows) := by
  have hsplits := h.atSplits rows
  refine ⟨rfl, ?_, hsplits.fresh⟩
  show (c.atSplits seq rows).offset + rows.length = _
  rw [hsplits.offset, List.length_append]

theorem Tracks.update {c : RecurrentCache α} {seq : List α} (h : c.Tracks seq) (rows : List α) :
    (c.update rows).Tracks (seq ++ rows) := by
  have hend := (h.atEnd rows).captureBoundary ((c.atSplits seq rows).offset + rows.length)
  rw [h.update_eq rows]
  refine ⟨hend.offset, ?_, hend.fresh⟩
  rw [hend.state]
  rfl

/-- The captures at the splits, one after the other. -/
theorem Keeps.splits_filled {full seq rows : List α} (hfull : seq ++ rows <+: full)
    {offsets rest : List Nat} {c : RecurrentCache α} {Done : Nat → Prop}
    (hrest : ∀ o ∈ rest, seq.length < o ∧ o < seq.length + rows.length ∧ ¬ Done o)
    (hnodup : rest.Nodup) (hc : Keeps (some seq) seq.length c)
    (hfilled : c.snapshots.Filled offsets (OpenAt full c) Done) :
    (((rest.map (· - seq.length)).map fun s => (s, seq ++ rows.take s)).foldl
      (fun c e => c.captureBoundaryState (seq.length + e.1) e.2) c).snapshots.Filled offsets
      (OpenAt full (((rest.map (· - seq.length)).map fun s => (s, seq ++ rows.take s)).foldl
        (fun c e => c.captureBoundaryState (seq.length + e.1) e.2) c))
      fun o => Done o ∨ o ∈ rest := by
  induction rest generalizing c Done with
  | nil => exact hfilled.congr fun o _ => by simp
  | cons o rest ih =>
    obtain ⟨hnew, hnodup'⟩ := List.nodup_cons.mp hnodup
    obtain ⟨hlt, hlt', hnot⟩ := hrest o List.mem_cons_self
    have hst : seq ++ rows.take (o - seq.length) = full.take o := by
      obtain ⟨behind, rfl⟩ := hfull
      rw [List.take_append_of_le_length (by rw [List.length_append]; omega), List.take_append,
        List.take_of_length_le hlt.le]
    have ho : seq.length + (o - seq.length) = o := by omega
    obtain ⟨hP, -, hfilled'⟩ := (alloc_captures hst).filled hc hfilled hnot
    rw [List.map_cons, List.map_cons, List.foldl_cons, ho]
    refine (ih (fun o' ho' => ?_) hnodup' (hP.setSnapshots _) hfilled').congr fun o' _ => ?_
    · obtain ⟨h₁, h₂, h₃⟩ := hrest o' (List.mem_cons_of_mem _ ho')
      refine ⟨h₁, h₂, ?_⟩
      rintro (hdone | rfl)
      · exact h₃ hdone
      · exact hnew ho'
    · rw [List.mem_cons, or_assoc]

/-- An update captures at every scheduled offset that it crosses or ends on. -/
theorem Tracks.update_fills {c : RecurrentCache α} {full seq : List α} (h : c.Tracks seq)
    {rows : List α} (hfull : seq ++ rows <+: full) {offsets : List Nat} {Done : Nat → Prop}
    (hfilled : c.snapshots.Filled offsets (OpenAt full c) Done)
    (hnot : ∀ o, seq.length < o → ¬ Done o) (hend : ¬ Done (seq.length + rows.length))
    (hnodup : offsets.Nodup) :
    (c.update rows).snapshots.Filled offsets (OpenAt full (c.update rows))
      fun o => Done o ∨ seq.length < o ∧ o < seq.length + rows.length ∨
        o = seq.length + rows.length := by
  have hoff := h.offset
  have hsplits : c.snapshotSplits rows.length =
      (offsets.filter fun o => decide (seq.length < o) &&
        decide (o < seq.length + rows.length)).map (· - seq.length) := by
    unfold snapshotSplits
    rw [hfilled.1, hoff]
  have hget : Keeps (some seq) seq.length { c with state := some seq } := ⟨rfl, hoff, h.fresh⟩
  have hsecond := hget.splits_filled hfull
    (fun o (ho : o ∈ offsets.filter fun o => decide (seq.length < o) &&
        decide (o < seq.length + rows.length)) => by
      obtain ⟨h₁, h₂⟩ := Bool.and_eq_true_iff.mp (List.mem_filter.mp ho).2
      have h₁ := of_decide_eq_true h₁
      exact ⟨h₁, of_decide_eq_true h₂, hnot o h₁⟩)
    (hnodup.filter _) hfilled
  rw [← hsplits] at hsecond
  have hkept := h.atEnd rows
  have hlen : (seq ++ rows).length = (c.atSplits seq rows).offset + rows.length :=
    hkept.offset.symm
  have hstop : (seq ++ rows).length = seq.length + rows.length := List.length_append
  rw [h.update_eq rows, ← hlen]
  have hthird : (c.atEnd seq rows).snapshots.Filled offsets (OpenAt full (c.atEnd seq rows))
      fun o => Done o ∨ o ∈ offsets.filter fun o => decide (seq.length < o) &&
        decide (o < seq.length + rows.length) := hsecond
  have hnotEnd : ¬ (Done (seq ++ rows).length ∨ (seq ++ rows).length ∈ offsets.filter fun o =>
      decide (seq.length < o) && decide (o < seq.length + rows.length)) := by
    rw [hstop]
    rintro (hdone | hmem)
    · exact hend hdone
    · have := of_decide_eq_true (Bool.and_eq_true_iff.mp (List.mem_filter.mp hmem).2).2
      omega
  obtain ⟨-, -, hlast⟩ := (snapshot_captures (List.prefix_iff_eq_take.mp hfull)
    (seq ++ rows).length).filled hkept hthird hnotEnd
  refine hlast.congr fun o ho => ?_
  rw [hstop, List.mem_filter, Bool.and_eq_true, decide_eq_true_eq, decide_eq_true_eq, or_assoc,
    and_iff_right ho]

/-- An update captures at every scheduled offset behind its start. -/
theorem Tracks.update_filled {c : RecurrentCache α} {seq : List α} (h : c.Tracks seq)
    {rows : List α} {offsets : List Nat}
    (hfilled : c.snapshots.Filled offsets (OpenAt (seq ++ rows) c) (· = seq.length))
    (hrange : ∀ o ∈ offsets, seq.length ≤ o ∧ o < seq.length + rows.length)
    (hnodup : offsets.Nodup) :
    (c.update rows).snapshots.Filled offsets (OpenAt (seq ++ rows) (c.update rows))
      (· ∈ offsets) := by
  have hfilled' : c.snapshots.Filled offsets (OpenAt (seq ++ rows) c)
      fun o => o = seq.length ∧ o ∈ offsets :=
    hfilled.congr fun o ho => ⟨fun heq => ⟨heq, ho⟩, And.left⟩
  refine (h.update_fills (List.prefix_refl _) hfilled' (fun o hlt hdone => by omega)
    (fun hdone => (hrange _ hdone.2).2.false) hnodup).congr fun o ho => ⟨fun _ => ho, fun _ => ?_⟩
  obtain ⟨h₁, h₂⟩ := hrange o ho
  by_cases heq : o = seq.length
  · exact .inl ⟨heq, ho⟩
  · exact .inr (by omega)

/-- Without a schedule an update captures nothing. -/
theorem update_idle {c : RecurrentCache α} (h : c.snapshots.captured = none) (rows : List α) :
    (c.update rows).snapshots.captured = none := by
  have hreached : ∀ (c' : RecurrentCache α) o snap, c'.snapshots.captured = none →
      (c'.captureReached o snap).snapshots.captured = none := by
    intro c' o snap hc'
    unfold captureReached
    rw [PendingSnapshots.captured_captureReached hc']
    exact hc'
  unfold RecurrentCache.update put
  refine hreached _ _ _ ?_
  show (List.foldl _ _ _ : RecurrentCache α).snapshots.captured = none
  exact List.foldlRecOn (motive := fun c' : RecurrentCache α => c'.snapshots.captured = none) _ _ h
    fun c' hc' e _ => hreached c' _ _ hc'

end RecurrentCache

/-! ## Any cache -/

inductive CacheKind
  | kv
  | rotating
  | recurrent
  deriving DecidableEq

namespace Cache

variable {α : Type*}

def kind : Cache α → CacheKind
  | kv _ => .kv
  | rotating _ => .rotating
  | recurrent _ => .recurrent

/-- The cache holds the state of `seq`. -/
def Holds : Cache α → List α → Prop
  | kv c, seq => c.Live seq
  | rotating c, seq => ∃ taken, c.Intact taken seq
  | recurrent c, seq => c.Tracks seq

/-- Nothing is scheduled. -/
def Idle : Cache α → Prop
  | kv c => c.snapshots.captured = none
  | rotating c => c.snapshots.captured = none
  | recurrent c => c.snapshots.captured = none

theorem Holds.offset {c : Cache α} {seq : List α} (h : c.Holds seq) : c.offset = seq.length := by
  cases c with
  | kv c => exact KVCache.Live.offset h
  | rotating c =>
    obtain ⟨taken, hi⟩ := h
    exact hi.tracks.offset
  | recurrent c => exact RecurrentCache.Tracks.offset h

theorem Holds.update [Inhabited α] {c : Cache α} {seq : List α} (h : c.Holds seq) {rows : List α}
    (hrows : rows ≠ []) : (c.update rows).Holds (seq ++ rows) := by
  cases c with
  | kv c => exact KVCache.Live.update h hrows
  | rotating c =>
    obtain ⟨taken, hi⟩ := h
    exact ⟨_, hi.update hrows⟩
  | recurrent c => exact RecurrentCache.Tracks.update h rows

variable [Inhabited α]

theorem kind_update (c : Cache α) (rows : List α) : (c.update rows).kind = c.kind := by
  cases c <;> rfl

theorem Idle.update {c : Cache α} (h : c.Idle) (rows : List α) : (c.update rows).Idle := by
  cases c with
  | kv c => exact KVCache.update_idle h rows
  | rotating c => exact RotatingKVCache.update_idle h rows
  | recurrent c => exact RecurrentCache.update_idle h rows

/-- What a commitment does, from what its calls do: `Good` holds while snapshots are
closed, `At` says that a snapshot can be restored, and `Result` is the outcome. -/
theorem commitSpeculation_rule (Good Result : Cache α → Prop) (At : Cache α → Nat → Prop)
    {c : Cache α} {accepted draftCount before : Nat}
    (hgood : Good c.takeSnapshots.1)
    (hclose : ∀ c n, Good c → Good (c.close n))
    (hresult : ∀ c n, Result c → Result (c.close n))
    (hat : ∀ c n m, At c m → n ≠ m → At (c.close n) m)
    (hfull : draftCount ≤ accepted → ∀ c, Good c → Result c)
    (hrewind : ∀ c, Good c → (c.restore none (before + accepted : Nat)).2 = true →
      Result (c.restore none (before + accepted : Nat)).1)
    (hrefused : ∀ c, Good c → (c.restore none (before + accepted : Nat)).2 = false →
      (c.restore none (before + accepted : Nat)).1 = c)
    (hrestore : ∀ c m, Good c → At c m → (c.restore (some m) (before + accepted : Nat)).2 = true ∧
      Result (c.restore (some m) (before + accepted : Nat)).1)
    (hback : accepted < draftCount →
      (∀ c, Good c → (c.restore none (before + accepted : Nat)).2 = true) ∨
        ∃ m, c.takeSnapshots.2[accepted]? = some (some m) ∧ At c.takeSnapshots.1 m ∧
          ∀ i, c.takeSnapshots.2[i]? = some (some m) → i = accepted) :
    ∃ c', c.commitSpeculation accepted draftCount before = some c' ∧ Result c' := by
  have hcloseAll : ∀ (P : Cache α → Prop), (∀ c n, P c → P (c.close n)) →
      ∀ (snaps : List (Option Nat)) (c : Cache α), P c → P (c.closeAll snaps) := by
    intro P hP snaps
    induction snaps with
    | nil => exact fun _ h => h
    | cons s snaps ih =>
      intro c h
      cases s with
      | none => exact ih c h
      | some n => exact ih _ (hP c n h)
  have hatAll : ∀ (m : Nat) (snaps : List (Option Nat)) (c : Cache α), some m ∉ snaps → At c m →
      At (c.closeAll snaps) m := by
    intro m snaps
    induction snaps with
    | nil => exact fun _ _ h => h
    | cons s snaps ih =>
      intro c hnot h
      have hnot' := fun hmem => hnot (List.mem_cons_of_mem s hmem)
      cases s with
      | none => exact ih c hnot' h
      | some n =>
        refine ih _ hnot' (hat c n m h ?_)
        rintro rfl
        exact hnot List.mem_cons_self
  unfold commitSpeculation
  by_cases hlt : accepted < draftCount
  · simp only [if_pos hlt]
    have hgood' := hcloseAll Good hclose (c.takeSnapshots.2.set accepted none) _ hgood
    cases hrew : ((c.takeSnapshots.1.closeAll (c.takeSnapshots.2.set accepted none)).restore none
        (before + accepted : Nat)).2 with
    | true =>
      simp only [hrew, if_true]
      exact ⟨_, rfl, hcloseAll Result hresult _ _ (hrewind _ hgood' hrew)⟩
    | false =>
      rcases hback hlt with hall | ⟨m, hm, hatm, honly⟩
      · rw [hall _ hgood'] at hrew
        cases hrew
      · have hnot : some m ∉ c.takeSnapshots.2.set accepted none := by
          intro hmem
          obtain ⟨i, hi⟩ := List.mem_iff_getElem?.mp hmem
          rw [List.getElem?_set] at hi
          split at hi
          · split at hi <;> cases hi
          · rename_i hne
            exact hne (honly i hi).symm
        obtain ⟨hok, hres⟩ := hrestore _ m hgood' (hatAll m _ _ hnot hatm)
        simp only [Bool.false_eq_true, if_false, hrefused _ hgood' hrew, hm, Option.join_some, hok,
          if_true]
        exact ⟨_, rfl, hcloseAll Result hresult _ _ hres⟩
  · simp only [if_neg hlt]
    exact ⟨_, rfl, hfull (Nat.not_lt.mp hlt) _ (hcloseAll Good hclose _ _ hgood)⟩

/-! ### A speculation -/

/-- The offsets of the drafts. -/
def draftOffsets (before draftCount : Nat) : List Nat :=
  (List.range draftCount).map (before + ·)

theorem mem_draftOffsets {before draftCount o : Nat} :
    o ∈ draftOffsets before draftCount ↔ before ≤ o ∧ o < before + draftCount := by
  unfold draftOffsets
  rw [List.mem_map]
  constructor
  · rintro ⟨i, hi, rfl⟩
    have := List.mem_range.mp hi
    omega
  · rintro ⟨hle, hlt⟩
    exact ⟨o - before, List.mem_range.mpr (by omega), by omega⟩

theorem nodup_draftOffsets (before draftCount : Nat) : (draftOffsets before draftCount).Nodup :=
  List.nodup_range.map fun _ _ => Nat.add_left_cancel

theorem isChain_draftOffsets (before draftCount : Nat) :
    (draftOffsets before draftCount).IsChain (· < ·) := by
  unfold draftOffsets
  rw [← List.range'_eq_map_range]
  exact List.Pairwise.isChain List.pairwise_lt_range'

theorem getElem?_draftOffsets {before draftCount i : Nat} (hi : i < draftCount) :
    (draftOffsets before draftCount)[i]? = some (before + i) := by
  unfold draftOffsets
  rw [List.getElem?_map, List.getElem?_range hi]
  rfl

/-- Only the entry of its own offset holds a snapshot. -/
theorem entry_unique {p : PendingSnapshots} {before draftCount accepted m : Nat}
    {Entry : Nat → Nat → Prop} {Done : Nat → Prop}
    (h : p.Filled (draftOffsets before draftCount) Entry Done)
    (hdone : ∀ o ∈ draftOffsets before draftCount, Done o)
    (hinj : ∀ o o', Entry m o → Entry m o' → o = o')
    (hentry : Entry m (before + accepted)) {i : Nat} (hi : p.take.2[i]? = some (some m)) :
    i = accepted := by
  have hlt : i < draftCount := by
    have hlen := h.length_taken
    unfold draftOffsets at hlen
    rw [List.length_map, List.length_range] at hlen
    have := (List.getElem?_eq_some_iff.mp hi).1
    omega
  have ho : (draftOffsets before draftCount)[i]? = some (before + i) := getElem?_draftOffsets hlt
  obtain ⟨n, hn, hentry'⟩ := h.taken ho (hdone _ (List.mem_of_getElem? ho))
  rw [hi] at hn
  obtain rfl := Option.some.inj (Option.some.inj hn)
  have := hinj _ _ hentry hentry'
  omega

/-- What a speculation does to a cache that holds `seq`, with nothing scheduled. -/
structure Speculates (c : Cache α) (seq drafts : List α) (accepted : Nat) : Prop where
  scheduled : ∃ c₁, c.prepareSnapshots (draftOffsets seq.length drafts.length) = some c₁ ∧
    c₁.kind = c.kind ∧ c₁.Holds seq ∧
    ∃ c₂, (c₁.update drafts).commitSpeculation accepted drafts.length seq.length = some c₂ ∧
      c₂.kind = c.kind ∧ c₂.Holds (seq ++ drafts.take accepted) ∧ c₂.Idle

theorem speculates_kv {c : KVCache α} {seq drafts : List α} (h : c.Live seq)
    (hidle : c.snapshots.captured = none) (hdrafts : drafts ≠ []) {accepted : Nat}
    (hle : accepted ≤ drafts.length) : (kv c).Speculates seq drafts accepted := by
  have htake : (seq ++ drafts).take (seq.length + accepted) = seq ++ drafts.take accepted :=
    List.take_length_add_append accepted
  have hlen : seq.length + accepted ≤ (seq ++ drafts).length := by
    rw [List.length_append]
    omega
  obtain ⟨c₁, hprep, hlive₁⟩ : ∃ c₁,
      c.prepareSnapshots (draftOffsets seq.length drafts.length) = some c₁ ∧ c₁.Live seq := by
    unfold KVCache.prepareSnapshots PendingSnapshots.prepare
    rw [hidle, if_neg (by simp), if_pos]
    · exact ⟨_, rfl, h.of_core rfl⟩
    · refine ⟨List.all_eq_true.mpr fun o ho => decide_eq_true ?_, isChain_draftOffsets _ _⟩
      rw [h.offset]
      exact (mem_draftOffsets.mp ho).1
  have hlive := hlive₁.update hdrafts
  obtain ⟨c₂, hc₂, c', rfl, hres, hcap⟩ := commitSpeculation_rule
    (fun c => ∃ c' : KVCache α, c = kv c' ∧ c'.Live (seq ++ drafts) ∧ c'.snapshots.captured = none)
    (fun c => ∃ c' : KVCache α, c = kv c' ∧ c'.Live (seq ++ drafts.take accepted) ∧
      c'.snapshots.captured = none) (fun _ _ => False)
    (show ∃ c', ((kv c₁).update drafts).takeSnapshots.1 = kv c' ∧ _ from
      ⟨(c₁.update drafts).1.takeSnapshots.1, rfl, hlive.of_core rfl, rfl⟩)
    (by
      rintro _ n ⟨c', rfl, hl, hcap⟩
      obtain ⟨hcore, hsnap⟩ := KVCache.close_core c' n
      exact ⟨c'.close n, rfl, hl.of_core hcore, hsnap ▸ hcap⟩)
    (by
      rintro _ n ⟨c', rfl, hl, hcap⟩
      obtain ⟨hcore, hsnap⟩ := KVCache.close_core c' n
      exact ⟨c'.close n, rfl, hl.of_core hcore, hsnap ▸ hcap⟩)
    (fun _ _ _ hno => hno.elim)
    (by
      rintro hfull _ ⟨c', rfl, hl, hcap⟩
      rw [List.take_of_length_le hfull]
      exact ⟨c', rfl, hl, hcap⟩)
    (by
      rintro _ ⟨c', rfl, hl, hcap⟩ -
      obtain ⟨-, hrew, hsnap⟩ := hl.rewind hlen
      rw [htake] at hrew
      exact ⟨_, rfl, hrew, hsnap ▸ hcap⟩)
    (by
      rintro _ ⟨c', rfl, hl, hcap⟩ hfalse
      have htrue : (c'.restore none (seq.length + accepted : Nat)).2 = true := (hl.rewind hlen).1
      exact absurd (htrue.symm.trans hfalse) Bool.true_eq_false.mp)
    (fun _ _ _ hno => hno.elim)
    (fun _ => .inl (by
      rintro _ ⟨c', rfl, hl, hcap⟩
      exact (hl.rewind hlen).1))
  exact ⟨kv c₁, congrArg (Option.map kv) hprep, rfl, hlive₁, _, hc₂, rfl, hres, hcap⟩

theorem speculates_rotating {c : RotatingKVCache α} {taken : Nat → List α} {seq drafts : List α}
    (h : c.Intact taken seq) (hidle : c.snapshots.captured = none) (hseq : seq ≠ [])
    (hdrafts : drafts ≠ []) {accepted : Nat} :
    (rotating c).Speculates seq drafts accepted := by
  have htake : (seq ++ drafts).take (seq.length + accepted) = seq ++ drafts.take accepted :=
    List.take_length_add_append accepted
  obtain ⟨p, hprep, hfilled⟩ := PendingSnapshots.prepare_filled hidle
    (fun o (ho : o ∈ draftOffsets seq.length drafts.length) => (mem_draftOffsets.mp ho).1)
    (isChain_draftOffsets _ _) (RotatingKVCache.OpenAt c.fresh c)
  have hprep' : c.prepareSnapshots (draftOffsets seq.length drafts.length) =
      some { c with snapshots := p } := by
    rw [RotatingKVCache.prepareSnapshots, h.tracks.offset, hprep]
    rfl
  have hi := h.setSnapshots p
  generalize hc₁ : ({ c with snapshots := p } : RotatingKVCache α) = c₁ at hprep' hi
  have hfresh : c₁.fresh = c.fresh := by rw [← hc₁]
  have hopened : RotatingKVCache.OpenAt c₁.fresh c₁ = RotatingKVCache.OpenAt c.fresh c := by
    rw [← hc₁]
    rfl
  have hsched : c₁.snapshots = p := by rw [← hc₁]
  have hfilled' : (c₁.update drafts).1.snapshots.Filled (draftOffsets seq.length drafts.length)
      (RotatingKVCache.OpenAt c₁.fresh (c₁.update drafts).1)
      (· ∈ draftOffsets seq.length drafts.length) :=
    RotatingKVCache.update_filled hi.tracks hi.pos hi.heap hi.listed hseq hdrafts
      (by rw [hsched, hopened]; exact hfilled) (fun _ ho => mem_draftOffsets.mp ho)
      (nodup_draftOffsets _ _)
  have hupd := hi.update hdrafts
  generalize htaken : RotatingRun.capture c₁ (c₁.update drafts).1 (seq ++ drafts) taken = taken'
    at hupd
  -- a snapshot of the schedule that stands at the accepted drafts is one of them
  have hof : ∀ m, RotatingKVCache.OpenAt c₁.fresh (c₁.update drafts).1 m (seq.length + accepted) →
      taken' m = seq ++ drafts.take accepted := by
    rintro m ⟨hm, sn, hsn, hto⟩
    rw [← htaken, RotatingRun.capture, if_neg (by omega), hsn, ← htake, ← hto]
    rfl
  obtain ⟨c₂, hc₂, c', rfl, ⟨taken₂, hres⟩, hcap⟩ := commitSpeculation_rule
    (fun c => ∃ c' : RotatingKVCache α, c = rotating c' ∧ c'.Intact taken' (seq ++ drafts) ∧
      c'.snapshots.captured = none)
    (fun c => ∃ c' : RotatingKVCache α, c = rotating c' ∧
      (∃ taken, c'.Intact taken (seq ++ drafts.take accepted)) ∧ c'.snapshots.captured = none)
    (fun c m => taken' m = seq ++ drafts.take accepted ∧ ∃ c' : RotatingKVCache α,
      c = rotating c' ∧ RotatingKVCache.OpenAt c₁.fresh c' m (seq.length + accepted))
    (show ∃ c', ((rotating c₁).update drafts).takeSnapshots.1 = rotating c' ∧ _ from
      ⟨(c₁.update drafts).1.takeSnapshots.1, rfl, hupd.setSnapshots _, rfl⟩)
    (by
      rintro _ n ⟨c', rfl, hl, hcap⟩
      exact ⟨c'.close n, rfl, hl.close n, RotatingKVCache.close_snapshots c' n ▸ hcap⟩)
    (by
      rintro _ n ⟨c', rfl, ⟨t, hl⟩, hcap⟩
      exact ⟨c'.close n, rfl, ⟨t, hl.close n⟩, RotatingKVCache.close_snapshots c' n ▸ hcap⟩)
    (by
      rintro _ n m ⟨htk, c', rfl, hm, sn, hsn, hto⟩ hne
      exact ⟨htk, c'.close n, rfl, hm, sn, (RotatingKVCache.lookup_close hne).trans hsn, hto⟩)
    (by
      rintro hfull _ ⟨c', rfl, hl, hcap⟩
      rw [List.take_of_length_le hfull]
      exact ⟨c', rfl, ⟨_, hl⟩, hcap⟩)
    (by
      rintro _ ⟨c', rfl, hl, hcap⟩ htrue
      have hrew := RotatingKVCache.restore_keeps hl none (seq.length + accepted) htrue
      rw [Option.elim_none, htake] at hrew
      exact ⟨_, rfl, ⟨_, hrew⟩, RotatingKVCache.restore_snapshots c' _ _ ▸ hcap⟩)
    (by
      rintro _ ⟨c', rfl, hl, hcap⟩ hfalse
      exact congrArg rotating (RotatingKVCache.restore_none_refused hfalse))
    (by
      rintro _ m ⟨c', rfl, hl, hcap⟩ ⟨htk, c'', heq, hm, sn, hsn, hto⟩
      obtain rfl := Cache.rotating.inj heq
      have htrue := RotatingKVCache.restore_at hsn hto
      have hrew := RotatingKVCache.restore_keeps hl (some m) (seq.length + accepted) htrue
      rw [Option.elim_some, htk, ← htake, List.take_take, Nat.min_self, htake] at hrew
      exact ⟨htrue, _, rfl, ⟨_, hrew⟩, RotatingKVCache.restore_snapshots c' _ _ ▸ hcap⟩)
    (fun hlt => .inr (by
      have hmem : seq.length + accepted ∈ draftOffsets seq.length drafts.length :=
        mem_draftOffsets.mpr (by omega)
      obtain ⟨m, hm, hopen⟩ := hfilled'.taken (getElem?_draftOffsets hlt) hmem
      refine ⟨m, hm, ⟨hof m hopen, _, rfl, hopen⟩, fun i hi' => ?_⟩
      refine entry_unique hfilled' (fun _ ho => ho) (fun o o' he he' => ?_) hopen hi'
      obtain ⟨-, sn, hsn, rfl⟩ := he
      obtain ⟨-, sn', hsn', rfl⟩ := he'
      rw [Option.some.inj (hsn.symm.trans hsn')]))
  exact ⟨rotating c₁, congrArg (Option.map rotating) hprep', rfl, ⟨taken, hi⟩, _, hc₂, rfl,
    ⟨taken₂, hres⟩, hcap⟩

theorem speculates_recurrent {c : RecurrentCache α} {seq drafts : List α} (h : c.Tracks seq)
    (hidle : c.snapshots.captured = none) (hseq : seq ≠ []) {accepted : Nat}
    (hle : accepted ≤ drafts.length) : (recurrent c).Speculates seq drafts accepted := by
  have htake : (seq ++ drafts).take (seq.length + accepted) = seq ++ drafts.take accepted :=
    List.take_length_add_append accepted
  have hstate := h.state_eq hseq
  obtain ⟨p, hprep, hnone⟩ := PendingSnapshots.prepare_filled hidle
    (fun o (ho : o ∈ draftOffsets seq.length drafts.length) => (mem_draftOffsets.mp ho).1)
    (isChain_draftOffsets _ _) (RecurrentCache.OpenAt (seq ++ drafts) c)
  have hprep' : c.prepareSnapshots (draftOffsets seq.length drafts.length) =
      some (({ c with snapshots := p } : RecurrentCache α).captureBoundary seq.length) := by
    rw [RecurrentCache.prepareSnapshots, h.offset, hprep]
    rfl
  have hkeeps : RecurrentCache.Keeps (some seq) seq.length { c with snapshots := p } :=
    ⟨hstate, h.offset, h.fresh⟩
  obtain ⟨hkept, -, hfilled⟩ := (RecurrentCache.snapshot_captures
    (@List.take_left _ seq drafts).symm seq.length).filled hkeeps hnone not_false
  have hbound := hkeeps.captureBoundary seq.length
  have hfirst : (({ c with snapshots := p } : RecurrentCache α).captureBoundary
      seq.length).snapshots.Filled (draftOffsets seq.length drafts.length)
      (RecurrentCache.OpenAt (seq ++ drafts)
        (({ c with snapshots := p } : RecurrentCache α).captureBoundary seq.length))
      (· = seq.length) :=
    hfilled.congr fun o _ => ⟨fun ho => ho.resolve_left not_false, .inr⟩
  generalize ({ c with snapshots := p } : RecurrentCache α).captureBoundary seq.length = c₁
    at hprep' hbound hfirst
  have hi : c₁.Tracks seq := ⟨hbound.offset, by rw [hbound.state]; rfl, hbound.fresh⟩
  have hfilled' := hi.update_filled hfirst (fun _ ho => mem_draftOffsets.mp ho)
    (nodup_draftOffsets _ _)
  have hupd := hi.update drafts
  obtain ⟨c₂, hc₂, c', rfl, hres, hcap⟩ := commitSpeculation_rule
    (fun c => ∃ c' : RecurrentCache α, c = recurrent c' ∧ c'.Tracks (seq ++ drafts) ∧
      c'.snapshots.captured = none)
    (fun c => ∃ c' : RecurrentCache α, c = recurrent c' ∧ c'.Tracks (seq ++ drafts.take accepted) ∧
      c'.snapshots.captured = none)
    (fun c m => ∃ c' : RecurrentCache α, c = recurrent c' ∧
      RecurrentCache.OpenAt (seq ++ drafts) c' m (seq.length + accepted))
    (show ∃ c', ((recurrent c₁).update drafts).takeSnapshots.1 = recurrent c' ∧ _ from
      ⟨(c₁.update drafts).takeSnapshots.1, rfl, ⟨hupd.offset, hupd.state, hupd.fresh⟩, rfl⟩)
    (by
      rintro _ n ⟨c', rfl, hl, hcap⟩
      exact ⟨c'.close n, rfl, hl.close n, hcap⟩)
    (by
      rintro _ n ⟨c', rfl, hl, hcap⟩
      exact ⟨c'.close n, rfl, hl.close n, hcap⟩)
    (by
      rintro _ n m ⟨c', rfl, sn, hsn, hoff, hst⟩ hne
      refine ⟨c'.close n, rfl, sn, ?_, hoff, hst⟩
      exact (GoMap.lookup_erase_ite _ _ _).trans ((if_neg (Ne.symm hne)).trans hsn))
    (by
      rintro hfull _ ⟨c', rfl, hl, hcap⟩
      rw [List.take_of_length_le hfull]
      exact ⟨c', rfl, hl, hcap⟩)
    (by
      rintro _ ⟨c', rfl, hl, hcap⟩ htrue
      have htarget : ((seq.length + accepted : Nat) : Int) = c'.offset := of_decide_eq_true htrue
      rw [hl.offset, List.length_append] at htarget
      refine ⟨c', rfl, ?_, hcap⟩
      rwa [List.take_of_length_le (by omega)])
    (by
      rintro _ ⟨c', rfl, hl, hcap⟩ -
      rfl)
    (by
      rintro _ m ⟨c', rfl, hl, hcap⟩ ⟨c'', heq, sn, hsn, hoff, hst⟩
      obtain rfl := Cache.recurrent.inj heq
      have hrestore : c'.restore (some m) (seq.length + accepted : Nat) =
          ({ c' with state := some sn.state, offset := sn.offset }, true) := by
        simp only [RecurrentCache.restore, hsn]
        rw [if_neg (by rw [hoff]; simp)]
      show (c'.restore _ _).2 = true ∧ ∃ c₃, recurrent (c'.restore _ _).1 = recurrent c₃ ∧ _
      rw [hrestore]
      refine ⟨rfl, _, rfl, ⟨?_, ?_, hl.fresh⟩, hcap⟩
      · show sn.offset = _
        rw [hoff, List.length_append, List.length_take_of_le hle]
      · show sn.state = _
        rw [hst, htake])
    (fun hlt => .inr (by
      have hmem : seq.length + accepted ∈ draftOffsets seq.length drafts.length :=
        mem_draftOffsets.mpr (by omega)
      obtain ⟨m, hm, hopen⟩ := hfilled'.taken (getElem?_draftOffsets hlt) hmem
      refine ⟨m, hm, ⟨_, rfl, hopen⟩, fun i hi' => ?_⟩
      refine entry_unique hfilled' (fun _ ho => ho) (fun o o' he he' => ?_) hopen hi'
      obtain ⟨sn, hsn, rfl, -⟩ := he
      obtain ⟨sn', hsn', rfl, -⟩ := he'
      rw [Option.some.inj (hsn.symm.trans hsn')]))
  exact ⟨recurrent c₁, congrArg (Option.map recurrent) hprep', rfl, hi, _, hc₂, rfl, hres, hcap⟩

/-- Whatever its kind, a cache comes out of a speculation with the accepted drafts. -/
theorem Holds.speculates {c : Cache α} {seq drafts : List α} (h : c.Holds seq) (hidle : c.Idle)
    (hseq : seq ≠ []) (hdrafts : drafts ≠ []) {accepted : Nat} (hle : accepted ≤ drafts.length) :
    c.Speculates seq drafts accepted := by
  cases c with
  | kv c => exact speculates_kv h hidle hdrafts hle
  | rotating c =>
    obtain ⟨taken, hi⟩ := h
    exact speculates_rotating hi hidle hseq hdrafts
  | recurrent c => exact speculates_recurrent h hidle hseq hle

end Cache

end Prismalama.Mlxrunner
