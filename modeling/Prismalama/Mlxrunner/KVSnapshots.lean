import Prismalama.Mlxrunner.KVCache
import Prismalama.Lib.TSys

/-!
# Snapshots of the KV cache

What a snapshot denotes is its range and the rows it stands for, wherever they
are: in its own copy, or in the live buffer while it is lazy. The eager cache is
the one that copies at once; it is kept beside the real one as a ledger of what
each snapshot held when it was captured. The lazy cache refines it, in every run
whose writes find the `rewound` flag set when they land on a lazy snapshot.

The flag does not say that: the first append after a rewind clears it, although
the next one may still land on a lazy snapshot (`cleared_flag_overwrites`).
-/

namespace Prismalama.Mlxrunner

open Prismalama.Lib

/-- A range and its rows. -/
structure Held (α : Type*) where
  fromOffset : Nat
  toOffset : Nat
  rows : List α
  deriving DecidableEq, Repr

namespace KVCache

variable {α : Type*}

/-! ## What snapshots denote -/

def rowsOf (c : KVCache α) (s : KvSnapshot α) : List α :=
  s.keys.getD (slice c.buffer s.fromOffset s.toOffset)

/-- What an open snapshot denotes. -/
def denotes (c : KVCache α) (id : Nat) : Option (Held α) :=
  (c.heap.lookup id).map fun s => ⟨s.fromOffset, s.toOffset, c.rowsOf s⟩

/-- A lazy snapshot names rows of the buffer, another one owns its rows. -/
def SnapshotOk (c : KVCache α) (s : KvSnapshot α) : Prop :=
  s.fromOffset < s.toOffset ∧
    match s.keys with
    | none => s.cache = true ∧ s.toOffset ≤ c.buffer.length
    | some rows => s.cache = false ∧ rows.length = s.toOffset - s.fromOffset

structure Wf (c : KVCache α) : Prop where
  step : 0 < c.step
  offset : c.offset ≤ c.buffer.length
  fresh : ∀ id s, c.heap.lookup id = some s → id < c.fresh
  nodup : c.lazySnapshots.Nodup
  isLazy : ∀ id, id ∈ c.lazySnapshots ↔ ∃ s, c.heap.lookup id = some s ∧ s.keys = none
  ok : ∀ id s, c.heap.lookup id = some s → c.SnapshotOk s

theorem SnapshotOk.length {c : KVCache α} {s : KvSnapshot α} (h : c.SnapshotOk s) :
    (c.rowsOf s).length = s.toOffset - s.fromOffset := by
  obtain ⟨-, hkeys⟩ := h
  unfold rowsOf
  cases hs : s.keys with
  | none =>
    rw [hs] at hkeys
    exact length_slice_of_le hkeys.2
  | some rows =>
    rw [hs] at hkeys
    exact hkeys.2

/-- The cache apart from its snapshots. -/
def live (c : KVCache α) : Option (List α) × Nat × Nat × Bool :=
  (c.keys, c.offset, c.step, c.rewound)

theorem buffer_of_live {c c' : KVCache α} (h : c'.live = c.live) : c'.buffer = c.buffer := by
  have hkeys : c'.keys = c.keys := congrArg Prod.fst h
  unfold buffer
  rw [hkeys]

theorem offset_of_live {c c' : KVCache α} (h : c'.live = c.live) : c'.offset = c.offset :=
  congrArg (fun x => x.2.1) h

theorem step_of_live {c c' : KVCache α} (h : c'.live = c.live) : c'.step = c.step :=
  congrArg (fun x => x.2.2.1) h

theorem rowsOf_of_live {c c' : KVCache α} (h : c'.live = c.live) : c'.rowsOf = c.rowsOf := by
  funext s
  unfold rowsOf
  rw [buffer_of_live h]

theorem denotes_insert {c c' : KVCache α} {id : Nat} {s : KvSnapshot α}
    (hheap : c'.heap = c.heap.insert id s) (hlive : c'.live = c.live) :
    c'.denotes = Function.update c.denotes id (some ⟨s.fromOffset, s.toOffset, c.rowsOf s⟩) := by
  funext id'
  unfold denotes
  rw [hheap, GoMap.lookup_insert_ite, rowsOf_of_live hlive, Function.update_apply]
  split <;> rfl

theorem denotes_erase {c c' : KVCache α} {id : Nat} (hheap : c'.heap = c.heap.erase id)
    (hlive : c'.live = c.live) : c'.denotes = Function.update c.denotes id none := by
  funext id'
  unfold denotes
  rw [hheap, GoMap.lookup_erase_ite, rowsOf_of_live hlive, Function.update_apply]
  split <;> rfl

/-! ## Making and closing snapshots -/

/-- A lazy snapshot and its entry in the list of lazy ones. -/
def newLazy (c : KVCache α) (lo hi : Nat) : KVCache α :=
  (c.alloc ⟨none, lo, hi, true⟩).1.addLazySnapshot c.fresh

theorem Wf.not_open (h : Wf (c : KVCache α)) : c.heap.lookup c.fresh = none := by
  by_contra hne
  obtain ⟨s, hs⟩ := Option.ne_none_iff_exists'.mp hne
  exact absurd (h.fresh _ s hs) (lt_irrefl _)

theorem newLazy_spec {c : KVCache α} (h : c.Wf) (lo hi : Nat) (hlt : lo < hi)
    (hle : hi ≤ c.buffer.length) :
    (c.newLazy lo hi).Wf ∧ (c.newLazy lo hi).live = c.live ∧
      (c.newLazy lo hi).denotes =
        Function.update c.denotes c.fresh (some ⟨lo, hi, slice c.buffer lo hi⟩) := by
  have hnone := h.not_open
  have hnot : c.fresh ∉ c.lazySnapshots := by
    rw [h.isLazy]
    rintro ⟨s, hs, -⟩
    rw [hnone] at hs
    cases hs
  have hheap : (c.newLazy lo hi).heap = c.heap.insert c.fresh ⟨none, lo, hi, true⟩ := rfl
  refine ⟨⟨h.step, h.offset, fun id s hs => ?_, ?_, fun id => ?_, fun id s hs => ?_⟩, rfl,
    denotes_insert hheap rfl⟩
  · rw [newLazy, addLazySnapshot, alloc, GoMap.lookup_insert_ite] at hs
    show id < c.fresh + 1
    split at hs
    · omega
    · exact Nat.lt_succ_of_lt (h.fresh id s hs)
  · show (c.lazySnapshots ++ [c.fresh]).Nodup
    rw [List.nodup_append]
    refine ⟨h.nodup, by simp, ?_⟩
    rintro a ha b hb rfl
    rw [List.mem_singleton.mp hb] at ha
    exact hnot ha
  · show id ∈ c.lazySnapshots ++ [c.fresh] ↔
      ∃ s, (c.heap.insert c.fresh ⟨none, lo, hi, true⟩).lookup id = some s ∧ s.keys = none
    rw [List.mem_append, List.mem_singleton, h.isLazy, GoMap.lookup_insert_ite]
    by_cases hid : id = c.fresh
    · rw [if_pos hid]
      exact ⟨fun _ => ⟨_, rfl, rfl⟩, fun _ => .inr hid⟩
    · rw [if_neg hid]
      exact ⟨fun hor => hor.resolve_right hid, .inl⟩
  · rw [newLazy, addLazySnapshot, alloc, GoMap.lookup_insert_ite] at hs
    split at hs
    · injection hs with hs
      subst hs
      exact ⟨hlt, rfl, hle⟩
    · exact h.ok id s hs

/-- A snapshot that owns its rows. -/
theorem alloc_spec {c : KVCache α} (h : c.Wf) (lo hi : Nat) (hlt : lo < hi) {rows : List α}
    (hlen : rows.length = hi - lo) :
    (c.alloc ⟨some rows, lo, hi, false⟩).1.Wf ∧ (c.alloc ⟨some rows, lo, hi, false⟩).1.live = c.live ∧
      (c.alloc ⟨some rows, lo, hi, false⟩).1.denotes =
        Function.update c.denotes c.fresh (some ⟨lo, hi, rows⟩) := by
  have hnone := h.not_open
  have hheap : (c.alloc ⟨some rows, lo, hi, false⟩).1.heap =
      c.heap.insert c.fresh ⟨some rows, lo, hi, false⟩ := rfl
  refine ⟨⟨h.step, h.offset, fun id s hs => ?_, h.nodup, fun id => ?_, fun id s hs => ?_⟩, rfl,
    denotes_insert hheap rfl⟩
  · rw [alloc, GoMap.lookup_insert_ite] at hs
    show id < c.fresh + 1
    split at hs
    · omega
    · exact Nat.lt_succ_of_lt (h.fresh id s hs)
  · show id ∈ c.lazySnapshots ↔
      ∃ s, (c.heap.insert c.fresh ⟨some rows, lo, hi, false⟩).lookup id = some s ∧ s.keys = none
    rw [h.isLazy, GoMap.lookup_insert_ite]
    by_cases hid : id = c.fresh
    · subst hid
      rw [if_pos rfl, hnone]
      simp
    · rw [if_neg hid]
  · rw [alloc, GoMap.lookup_insert_ite] at hs
    split at hs
    · injection hs with hs
      subst hs
      exact ⟨hlt, rfl, hlen⟩
    · exact h.ok id s hs

theorem denotes_eq_none {c : KVCache α} {id : Nat} (h : c.heap.lookup id = none) :
    c.denotes id = none := by
  unfold denotes
  rw [h]
  rfl

theorem close_spec {c : KVCache α} (h : c.Wf) (id : Nat) :
    (c.close id).Wf ∧ (c.close id).live = c.live ∧
      (c.close id).denotes = Function.update c.denotes id none ∧ (c.close id).fresh = c.fresh := by
  cases hs : c.heap.lookup id with
  | none =>
    have hclose : c.close id = c := by
      unfold close
      rw [hs]
    rw [hclose]
    refine ⟨h, rfl, ?_, rfl⟩
    rw [← denotes_eq_none hs, Function.update_eq_self]
  | some s =>
    obtain ⟨-, hkeys⟩ := h.ok id s hs
    -- an owned snapshot is not in the list, so dropping it changes nothing
    have hclose : c.close id =
        { c with heap := c.heap.erase id, lazySnapshots := c.lazySnapshots.erase id } := by
      simp only [close, hs]
      split
      · rfl
      · rename_i hcache
        have hnot : id ∉ c.lazySnapshots := by
          rw [h.isLazy]
          rintro ⟨s', hs', hnone⟩
          rw [hs, Option.some.injEq] at hs'
          subst hs'
          rw [hnone] at hkeys
          exact hcache hkeys.1
        rw [List.erase_of_not_mem hnot]
    have hheap : (c.close id).heap = c.heap.erase id := by rw [hclose]
    have hlive : (c.close id).live = c.live := by
      rw [hclose]
      rfl
    refine ⟨?_, hlive, denotes_erase hheap hlive, by rw [hclose]⟩
    rw [hclose]
    refine ⟨h.step, h.offset, fun id' s' hs' => ?_, h.nodup.erase _, fun id' => ?_,
      fun id' s' hs' => ?_⟩
    · rw [GoMap.lookup_erase_ite] at hs'
      split at hs'
      · cases hs'
      · exact h.fresh id' s' hs'
    · show id' ∈ c.lazySnapshots.erase id ↔ ∃ s, (c.heap.erase id).lookup id' = some s ∧ s.keys = none
      rw [h.nodup.mem_erase_iff, h.isLazy, GoMap.lookup_erase_ite]
      by_cases hid : id' = id
      · rw [if_pos hid]
        simp [hid]
      · rw [if_neg hid]
        exact and_iff_right hid
    · rw [GoMap.lookup_erase_ite] at hs'
      split at hs'
      · cases hs'
      · exact h.ok id' s' hs'

/-! ## Copying out -/

/-- Copying out changes neither what snapshots denote nor the live rows; no
snapshot becomes lazy, and this one no longer is. -/
structure CopiedOut (c c' : KVCache α) (gone : Nat → KvSnapshot α → Prop) : Prop where
  wf : c'.Wf
  live : c'.live = c.live
  denotes : c'.denotes = c.denotes
  snapshots : c'.snapshots = c.snapshots
  fresh : c'.fresh = c.fresh
  remains : ∀ id s, c'.heap.lookup id = some s → s.keys = none →
    c.heap.lookup id = some s ∧ ¬gone id s

theorem copyOut_spec {c : KVCache α} (h : c.Wf) (id : Nat) :
    CopiedOut c (c.copyOut id) fun id' _ => id' = id := by
  unfold copyOut
  cases hs : c.heap.lookup id with
  | none =>
    refine ⟨h, rfl, rfl, rfl, rfl, fun id' s' hs' _ => ⟨hs', ?_⟩⟩
    rintro rfl
    rw [hs] at hs'
    cases hs'
  | some s =>
    simp only
    split
    · rename_i howned
      refine ⟨h, rfl, rfl, rfl, rfl, fun id' s' hs' hnone => ⟨hs', ?_⟩⟩
      rintro rfl
      rw [hs, Option.some.injEq] at hs'
      subst hs'
      rw [hnone] at howned
      cases howned
    · rename_i hlazy
      have hkeys : s.keys = none := by simpa using hlazy
      have hok := h.ok id s hs
      have hlen := hok.length
      have hrows : c.rowsOf s = slice c.buffer s.fromOffset s.toOffset := by
        unfold rowsOf
        rw [hkeys]
        rfl
      refine ⟨⟨h.step, h.offset, fun id' s' hs' => ?_, h.nodup.erase _, fun id' => ?_,
        fun id' s' hs' => ?_⟩, rfl, ?_, rfl, rfl, fun id' s' hs' hnone => ?_⟩
      · simp only [dropLazySnapshot, GoMap.lookup_insert_ite] at hs'
        split at hs'
        · rename_i heq
          subst heq
          exact h.fresh _ s hs
        · exact h.fresh id' s' hs'
      · simp only [dropLazySnapshot]
        rw [h.nodup.mem_erase_iff, h.isLazy, GoMap.lookup_insert_ite]
        by_cases hid : id' = id
        · rw [if_pos hid]
          simp [hid]
        · rw [if_neg hid]
          exact and_iff_right hid
      · simp only [dropLazySnapshot, GoMap.lookup_insert_ite] at hs'
        split at hs'
        · injection hs' with hs'
          subst hs'
          rw [hrows] at hlen
          exact ⟨hok.1, rfl, hlen⟩
        · exact h.ok id' s' hs'
      · have hden : c.denotes id = some ⟨s.fromOffset, s.toOffset, c.rowsOf s⟩ := by
          unfold denotes
          rw [hs]
          rfl
        rw [hrows] at hden
        have hupdate : Function.update c.denotes id (some ⟨s.fromOffset, s.toOffset,
            slice c.buffer s.fromOffset s.toOffset⟩) = c.denotes := by
          rw [← hden, Function.update_eq_self]
        refine Eq.trans ?_ hupdate
        refine denotes_insert (s := ⟨some (slice c.buffer s.fromOffset s.toOffset), s.fromOffset,
          s.toOffset, false⟩) ?_ ?_ <;> rfl
      · simp only [dropLazySnapshot, GoMap.lookup_insert_ite] at hs'
        split at hs'
        · injection hs' with hs'
          subst hs'
          cases hnone
        · rename_i hne
          exact ⟨hs', hne⟩

theorem CopiedOut.refl {c : KVCache α} (h : c.Wf) : CopiedOut c c fun _ _ => False :=
  ⟨h, rfl, rfl, rfl, rfl, fun _ _ hs _ => ⟨hs, id⟩⟩

theorem CopiedOut.trans {c c' c'' : KVCache α} {gone gone' : Nat → KvSnapshot α → Prop}
    (h : CopiedOut c c' gone) (h' : CopiedOut c' c'' gone') :
    CopiedOut c c'' fun id s => gone id s ∨ gone' id s where
  wf := h'.wf
  live := h'.live.trans h.live
  denotes := h'.denotes.trans h.denotes
  snapshots := h'.snapshots.trans h.snapshots
  fresh := h'.fresh.trans h.fresh
  remains := by
    intro id s hs hnone
    obtain ⟨hs', hgone'⟩ := h'.remains id s hs hnone
    obtain ⟨hs'', hgone⟩ := h.remains id s hs' hnone
    exact ⟨hs'', not_or.mpr ⟨hgone, hgone'⟩⟩

theorem CopiedOut.mono {c c' : KVCache α} {gone gone' : Nat → KvSnapshot α → Prop}
    (h : CopiedOut c c' gone)
    (hsub : ∀ id s, c.heap.lookup id = some s → s.keys = none → gone' id s → gone id s) :
    CopiedOut c c' gone' :=
  { h with
    remains := fun id s hs hnone => by
      obtain ⟨hs', hgone⟩ := h.remains id s hs hnone
      exact ⟨hs', fun hg => hgone (hsub id s hs' hnone hg)⟩ }

theorem copyOut_foldl {p : KvSnapshot α → Bool} (ids : List Nat) : ∀ c : KVCache α, c.Wf →
    CopiedOut c (ids.foldl (fun c id =>
      match c.heap.lookup id with
      | none => c
      | some s => if p s then c.copyOut id else c) c) fun id s => id ∈ ids ∧ p s = true := by
  induction ids with
  | nil => exact fun c h => (CopiedOut.refl h).mono fun _ _ _ _ hg => by simp at hg
  | cons i rest ih =>
    intro c h
    have hstep : CopiedOut c (match c.heap.lookup i with
        | none => c
        | some s => if p s then c.copyOut i else c) fun id s => id = i ∧ p s = true := by
      cases hi : c.heap.lookup i with
      | none =>
        refine (CopiedOut.refl h).mono fun id s hs _ hg => ?_
        rw [hg.1, hi] at hs
        cases hs
      | some s =>
        simp only
        split
        · exact (copyOut_spec h i).mono fun id s _ _ hg => hg.1
        · rename_i hp
          refine (CopiedOut.refl h).mono fun id s' hs' _ hg => ?_
          rw [hg.1, hi, Option.some.injEq] at hs'
          rw [hs'] at hp
          exact hp hg.2
    refine (hstep.trans (ih _ hstep.wf)).mono fun id s _ _ hg => ?_
    rcases List.mem_cons.mp hg.1 with rfl | hrest
    · exact .inl ⟨rfl, hg.2⟩
    · exact .inr ⟨hrest, hg.2⟩

/-- The lazy snapshots that `p` picks are lazy no more. -/
theorem copyOutWhere_spec {c : KVCache α} (h : c.Wf) (p : KvSnapshot α → Bool) :
    CopiedOut c (c.copyOutWhere p) fun _ s => p s = true :=
  (copyOut_foldl c.lazySnapshots c h).mono fun id s hs hnone hp =>
    ⟨(h.isLazy id).mpr ⟨s, hs, hnone⟩, hp⟩

/-! ## Writes -/

/-- There is room for `n` more rows; the rows before the offset stay, and all of
them do unless the buffer had to grow. -/
theorem grow_buffer [Inhabited α] {c : KVCache α} (hstep : 0 < c.step)
    (hoffset : c.offset ≤ c.buffer.length) {n : Nat} (hn : 0 < n) :
    c.offset + n ≤ (c.grow n).buffer.length ∧
      (∀ i < c.offset, (c.grow n).buffer[i]? = c.buffer[i]?) ∧
      (c.offset + n ≤ c.buffer.length → (c.grow n).buffer = c.buffer) := by
  have hroom : n ≤ (c.step + n - 1) / c.step * c.step := by
    have := Nat.lt_div_mul_add (a := c.step + n - 1) hstep
    omega
  unfold grow buffer at *
  cases hkeys : c.keys with
  | none =>
    simp only [hkeys, Option.getD_none, List.length_nil, Nat.le_zero] at hoffset
    simp only [hoffset, Option.getD_some, List.length_replicate, Option.getD_none, List.length_nil]
    exact ⟨by omega, by simp, by omega⟩
  | some rows =>
    simp only [hkeys, Option.getD_some] at hoffset ⊢
    split
    · rename_i hgrow
      simp only [Option.getD_some, List.length_append, List.length_replicate]
      split
      · rw [List.length_take, min_eq_left hoffset]
        refine ⟨by omega, fun i hi => ?_, fun hle => by omega⟩
        have hlt : i < (rows.take c.offset).length := by
          rw [List.length_take]
          omega
        rw [List.getElem?_append_left hlt, List.getElem?_take, if_pos hi]
      · refine ⟨by omega, fun i hi => ?_, fun hle => by omega⟩
        exact List.getElem?_append_left (by omega)
    · rw [hkeys, Option.getD_some]
      exact ⟨by omega, fun _ _ => rfl, fun _ => rfl⟩

theorem grow_heap [Inhabited α] (c : KVCache α) (n : Nat) :
    (c.grow n).heap = c.heap ∧ (c.grow n).lazySnapshots = c.lazySnapshots ∧
      (c.grow n).offset = c.offset ∧ (c.grow n).step = c.step ∧
      (c.grow n).snapshots = c.snapshots ∧ (c.grow n).fresh = c.fresh := by
  unfold grow
  split
  · exact ⟨rfl, rfl, rfl, rfl, rfl, rfl⟩
  · simp only
    split
    · exact ⟨rfl, rfl, rfl, rfl, rfl, rfl⟩
    · exact ⟨rfl, rfl, rfl, rfl, rfl, rfl⟩

/-- A write of `n` rows would land on a lazy snapshot. -/
def LandsOnLazy (c : KVCache α) (n : Nat) : Prop :=
  ∃ id ∈ c.lazySnapshots, ∃ s ∈ c.heap.lookup id, s.fromOffset < c.offset + n ∧ c.offset < s.toOffset

/-- What a write does to the live rows: they are appended at the offset, and those before it
stay, so that a snapshot of those denotes what it did. -/
structure Written (c c' : KVCache α) (rows : List α) : Prop where
  wf : c'.Wf
  offset : c'.offset = c.offset + rows.length
  written : slice c'.buffer c.offset (c.offset + rows.length) = rows
  before : ∀ i < c.offset, c'.buffer[i]? = c.buffer[i]?
  snapshots : c'.snapshots = c.snapshots
  fresh : c'.fresh = c.fresh
  below : ∀ id held, c.denotes id = some held → held.toOffset ≤ c.offset → c'.denotes id = some held

/-- A write that changes no snapshot. -/
structure Appended (c c' : KVCache α) (rows : List α) : Prop where
  wf : c'.Wf
  denotes : c'.denotes = c.denotes
  offset : c'.offset = c.offset + rows.length
  written : slice c'.buffer c.offset (c.offset + rows.length) = rows
  before : ∀ i < c.offset, c'.buffer[i]? = c.buffer[i]?
  snapshots : c'.snapshots = c.snapshots
  fresh : c'.fresh = c.fresh

/-- The write itself; what is not in its way denotes what it did. -/
theorem writeRows_written [Inhabited α] {c : KVCache α} (h : c.Wf) {rows : List α}
    (hrows : rows ≠ []) : Written c (c.writeRows rows) rows ∧
      (¬c.LandsOnLazy rows.length → (c.writeRows rows).denotes = c.denotes) := by
  have hn : 0 < rows.length := List.length_pos_iff.mpr hrows
  obtain ⟨hroom, hbefore, hsame⟩ := grow_buffer h.step h.offset hn
  obtain ⟨hheap, hlist, hoff, hstep, hsnap, hfresh⟩ := grow_heap c rows.length
  have hle : c.offset ≤ (c.grow rows.length).buffer.length := by omega
  have hbuf : (c.writeRows rows).buffer =
      sliceUpdate (c.grow rows.length).buffer c.offset rows := by
    rw [← hoff]
    rfl
  have hlen : (c.writeRows rows).buffer.length = (c.grow rows.length).buffer.length := by
    rw [hbuf, length_sliceUpdate hroom]
  have hheap' : (c.writeRows rows).heap = c.heap := hheap
  have hlist' : (c.writeRows rows).lazySnapshots = c.lazySnapshots := hlist
  have hoff' : (c.writeRows rows).offset = c.offset + rows.length := by
    rw [← hoff]
    rfl
  have hbefore' : ∀ i < c.offset, (c.writeRows rows).buffer[i]? = c.buffer[i]? := by
    intro i hi
    rw [hbuf, getElem?_sliceUpdate hle, if_pos hi, hbefore i hi]
  -- the buffer keeps its length unless the write reaches behind its end
  have hfits : ∀ id s, c.heap.lookup id = some s → s.keys = none →
      s.toOffset ≤ (c.writeRows rows).buffer.length := by
    intro id s hs hnone
    have hok := (h.ok id s hs).2
    rw [hnone] at hok
    by_cases hcase : c.offset + rows.length ≤ c.buffer.length
    · rw [hlen, hsame hcase]
      exact hok.2
    · have := hok.2
      omega
  have hden : ∀ id s, c.heap.lookup id = some s →
      (s.keys = none → s.toOffset ≤ c.offset ∨ c.offset + rows.length ≤ s.fromOffset) →
      (c.writeRows rows).denotes id = c.denotes id := by
    intro id s hs haway
    have hok := h.ok id s hs
    unfold denotes
    rw [hheap', hs]
    refine congrArg some (congrArg (Held.mk s.fromOffset s.toOffset) ?_)
    unfold rowsOf
    cases hkeys : s.keys with
    | some own => rfl
    | none =>
      unfold SnapshotOk at hok
      rw [hkeys] at hok
      obtain ⟨hlt, -, hto⟩ := hok
      show slice (c.writeRows rows).buffer s.fromOffset s.toOffset = _
      rcases haway hkeys with hbelow | habove
      · exact slice_congr fun i _ hi => hbefore' i (by omega)
      · rw [hbuf, hsame (by omega), slice_sliceUpdate_of_disjoint h.offset (.inr habove)]
        rfl
  refine ⟨⟨⟨?_, ?_, ?_, ?_, ?_, ?_⟩, hoff', ?_, hbefore', hsnap, hfresh, ?_⟩, fun hlazy => ?_⟩
  · show 0 < (c.grow rows.length).step
    rw [hstep]
    exact h.step
  · rw [hoff', hlen]
    exact hroom
  · show ∀ id s, (c.grow rows.length).heap.lookup id = some s → id < (c.grow rows.length).fresh
    rw [hheap, hfresh]
    exact h.fresh
  · rw [hlist']
    exact h.nodup
  · rw [hlist', hheap']
    exact h.isLazy
  · rw [hheap']
    intro id s hs
    have hok := h.ok id s hs
    refine ⟨hok.1, ?_⟩
    cases hkeys : s.keys with
    | none =>
      unfold SnapshotOk at hok
      rw [hkeys] at hok
      exact ⟨hok.2.1, hfits id s hs hkeys⟩
    | some own =>
      unfold SnapshotOk at hok
      rw [hkeys] at hok
      exact hok.2
  · rw [hbuf, slice_sliceUpdate_self hle]
  · intro id held hheld hbelow
    obtain ⟨s, hs, rfl⟩ := Option.map_eq_some_iff.mp hheld
    rw [hden id s hs fun _ => .inl hbelow, hheld]
  · funext id
    cases hs : c.heap.lookup id with
    | none =>
      unfold denotes
      rw [hheap', hs]
      rfl
    | some s =>
      refine hden id s hs fun hnone => ?_
      by_contra hover
      exact hlazy ⟨id, (h.isLazy id).mpr ⟨s, hs, hnone⟩, s, hs, by omega⟩

/-- After a rewind, what the rows would land on is copied out first. -/
theorem copyOutBefore_spec {c : KVCache α} (h : c.Wf) {n : Nat}
    (hlazy : c.rewound = true ∨ ¬c.LandsOnLazy n) :
    (c.copyOutBefore n).Wf ∧ (c.copyOutBefore n).denotes = c.denotes ∧
      (c.copyOutBefore n).keys = c.keys ∧ (c.copyOutBefore n).offset = c.offset ∧
      (c.copyOutBefore n).snapshots = c.snapshots ∧ (c.copyOutBefore n).fresh = c.fresh ∧
      ¬(c.copyOutBefore n).LandsOnLazy n := by
  by_cases hrewound : c.rewound = true
  · obtain ⟨hwf, hlive, hden, hsnap, hfresh, hremains⟩ := copyOutWhere_spec h fun s =>
      decide (s.fromOffset < c.offset + n) && decide (c.offset < s.toOffset)
    have hoff := offset_of_live hlive
    have hkeys := congrArg Prod.fst hlive
    unfold copyOutBefore
    rw [if_pos hrewound]
    refine ⟨⟨hwf.step, hwf.offset, hwf.fresh, hwf.nodup, hwf.isLazy, hwf.ok⟩, hden, hkeys, hoff,
      hsnap, hfresh, ?_⟩
    rintro ⟨id, hid, s, hs, hover⟩
    obtain ⟨s', hs', hnone⟩ := (hwf.isLazy id).mp hid
    rw [Option.mem_def] at hs
    have heq : s' = s := Option.some.inj (hs'.symm.trans hs)
    subst heq
    refine (hremains id s' hs' hnone).2 ?_
    rw [Bool.and_eq_true, decide_eq_true_eq, decide_eq_true_eq, ← hoff]
    exact hover
  · unfold copyOutBefore
    rw [if_neg hrewound]
    exact ⟨h, rfl, rfl, rfl, rfl, rfl, hlazy.resolve_left hrewound⟩

/-- `appendKV` keeps what snapshots denote if it knows that it may overwrite. -/
theorem appendKV_spec [Inhabited α] {c : KVCache α} (h : c.Wf) {rows : List α} (hrows : rows ≠ [])
    (hlazy : c.rewound = true ∨ ¬c.LandsOnLazy rows.length) :
    Appended c (c.appendKV rows).1 rows := by
  obtain ⟨hwf, hden, hkeys, hoff, hsnap, hfresh, haway⟩ := copyOutBefore_spec h hlazy
  obtain ⟨⟨hwf', hoff', hwritten, hbefore, hsnap', hfresh', -⟩, hden'⟩ :=
    writeRows_written hwf hrows
  have hbuf : (c.copyOutBefore rows.length).buffer = c.buffer := by
    unfold buffer
    rw [hkeys]
  rw [hoff] at hoff' hwritten hbefore
  rw [hbuf] at hbefore
  exact ⟨hwf', (hden' haway).trans hden, hoff', hwritten, hbefore, hsnap'.trans hsnap,
    hfresh'.trans hfresh⟩

/-- `appendKV`, whether the flag is set or not. -/
theorem appendKV_written [Inhabited α] {c : KVCache α} (h : c.Wf) {rows : List α}
    (hrows : rows ≠ []) : Written c (c.appendKV rows).1 rows := by
  by_cases hrewound : c.rewound = true
  · obtain ⟨hwf, hden, hoff, hwritten, hbefore, hsnap, hfresh⟩ :=
      appendKV_spec h hrows (.inl hrewound)
    exact ⟨hwf, hoff, hwritten, hbefore, hsnap, hfresh, fun id held hheld _ => by rw [hden, hheld]⟩
  · unfold appendKV copyOutBefore
    rw [if_neg hrewound]
    exact (writeRows_written h hrows).1

/-! ## Captures -/

/-- Snapshots are added, lazy ones; those there were stay. -/
structure Captures (c c' : KVCache α) : Prop where
  wf : c'.Wf
  live : c'.live = c.live
  fresh : c.fresh ≤ c'.fresh
  old : ∀ id < c.fresh, c'.heap.lookup id = c.heap.lookup id
  new : ∀ id s, c.fresh ≤ id → c'.heap.lookup id = some s → s.keys = none

theorem Captures.refl {c : KVCache α} (h : c.Wf) : Captures c c :=
  ⟨h, rfl, le_refl _, fun _ _ => rfl, fun id s hle hs => absurd (h.fresh id s hs) (not_lt.mpr hle)⟩

theorem Captures.trans {c c' c'' : KVCache α} (h : Captures c c') (h' : Captures c' c'') :
    Captures c c'' where
  wf := h'.wf
  live := h'.live.trans h.live
  fresh := h.fresh.trans h'.fresh
  old := fun id hid => (h'.old id (lt_of_lt_of_le hid h.fresh)).trans (h.old id hid)
  new := by
    intro id s hle hs
    by_cases hid : id < c'.fresh
    · exact h.new id s hle ((h'.old id hid).symm.trans hs)
    · exact h'.new id s (not_lt.mp hid) hs

/-- The schedule is no part of it. -/
theorem Captures.withSnapshots {c c' : KVCache α} (h : Captures c c') (p : PendingSnapshots) :
    Captures c { c' with snapshots := p } :=
  ⟨⟨h.wf.step, h.wf.offset, h.wf.fresh, h.wf.nodup, h.wf.isLazy, h.wf.ok⟩, h.live, h.fresh, h.old,
    h.new⟩

theorem lazySnapshot_captures {c : KVCache α} (h : c.Wf) (lo : Nat) {hi : Nat}
    (hhi : hi ≤ c.offset) : Captures c (c.lazySnapshot lo hi).1 := by
  unfold lazySnapshot
  split
  · exact Captures.refl h
  · rename_i hempty
    simp only [Bool.or_eq_true, decide_eq_true_eq, not_or, not_le] at hempty
    obtain ⟨hwf, hlive, -⟩ := newLazy_spec h lo hi hempty.2 (hhi.trans h.offset)
    refine ⟨hwf, hlive, Nat.le_succ _, fun id hid => ?_, fun id s hle hs => ?_⟩
    · exact (GoMap.lookup_insert_ite _ _ _ _).trans (if_neg (Nat.ne_of_lt hid))
    · have hs' : (c.heap.insert c.fresh ⟨none, lo, hi, true⟩).lookup id = some s := hs
      rw [GoMap.lookup_insert_ite] at hs'
      split at hs'
      · injection hs' with hs'
        rw [← hs']
      · exact absurd (h.fresh id s hs') (not_lt.mpr hle)

theorem captureReached_captures {c : KVCache α} (h : c.Wf) {reached : Nat}
    (hle : reached ≤ c.offset) : Captures c (c.captureReached reached) := by
  refine (PendingSnapshots.captureReached_rule (fun c' hc' => ?_) c.snapshots
    (Captures.refl h)).withSnapshots _
  refine hc'.trans (lazySnapshot_captures hc'.wf c'.snapshots.base ?_)
  rw [offset_of_live hc'.live]
  exact hle

theorem captureLazySnapshots_captures {c : KVCache α} (h : c.Wf) (start : Nat) :
    Captures c (c.captureLazySnapshots start c.offset) := by
  have hfold : ∀ (os : List Nat) (c : KVCache α), c.Wf → (∀ o ∈ os, o ≤ c.offset) →
      Captures c (os.foldl captureReached c) := by
    intro os
    induction os with
    | nil => exact fun c h _ => Captures.refl h
    | cons o rest ih =>
      intro c h hos
      have hstep := captureReached_captures h (hos o List.mem_cons_self)
      refine hstep.trans (ih _ hstep.wf fun o' ho' => ?_)
      rw [offset_of_live hstep.live]
      exact hos o' (List.mem_cons_of_mem _ ho')
  exact hfold _ c h fun o ho => (PendingSnapshots.mem_scheduledIn ho).2

/-! ## `Restore`, `Merge`, `Split` and `Free` -/

theorem denotes_eq_some {c : KVCache α} {id : Nat} {s : KvSnapshot α}
    (h : c.heap.lookup id = some s) : c.denotes id = some ⟨s.fromOffset, s.toOffset, c.rowsOf s⟩ := by
  unfold denotes
  rw [h]
  rfl

/-- Moving the offset back within the buffer. -/
theorem Wf.withOffset {c : KVCache α} (h : c.Wf) (offset : Nat) (hle : offset ≤ c.buffer.length)
    (rewound : Bool) : KVCache.Wf { c with offset := offset, rewound := rewound } :=
  ⟨h.step, hle, h.fresh, h.nodup, h.isLazy, h.ok⟩

theorem ownedRows_eq {c : KVCache α} {id : Nat} {s : KvSnapshot α} {rows : List α}
    (hs : c.heap.lookup id = some s) (hkeys : s.keys = some rows) : c.ownedRows id = rows := by
  unfold ownedRows
  rw [hs, Option.bind_some, hkeys]
  rfl

/-- `Restore` of a snapshot: it denotes what it did, and if the cache could be
brought to the target, the live rows from its start on are its rows. -/
theorem restore_some [Inhabited α] {c : KVCache α} (h : c.Wf) {id : Nat} {held : Held α}
    (hheld : c.denotes id = some held) (target : Int) :
    (c.restore (some id) target).1.Wf ∧ (c.restore (some id) target).1.denotes = c.denotes ∧
      ((c.restore (some id) target).2 = true →
        0 ≤ target ∧ (c.restore (some id) target).1.offset = target.toNat ∧
          slice (c.restore (some id) target).1.buffer held.fromOffset target.toNat =
            held.rows.take (target.toNat - held.fromOffset)) := by
  unfold denotes at hheld
  cases hs : c.heap.lookup id with
  | none =>
    rw [hs] at hheld
    cases hheld
  | some s =>
    rw [hs, Option.map_some, Option.some.injEq] at hheld
    subst hheld
    obtain ⟨hlt, hkeys⟩ := h.ok id s hs
    unfold restore
    by_cases hneg : target < 0
    · rw [if_pos hneg]
      exact ⟨h, rfl, by simp⟩
    · rw [if_neg hneg]
      simp only [hs]
      split
      · exact ⟨h, rfl, by simp⟩
      · rename_i hreach
        rw [not_or, not_lt, not_lt] at hreach
        cases howned : s.keys with
        | none =>
          -- still lazy: only the offset moves
          rw [howned] at hkeys
          have hrows : c.rowsOf s = slice c.buffer s.fromOffset s.toOffset := by
            unfold rowsOf
            rw [howned]
            rfl
          simp only [hkeys.1, Option.isNone_none, Bool.and_self, if_true]
          refine ⟨h.withOffset _ ((min_le_right _ _).trans hkeys.2) true, rfl, fun _ => ?_⟩
          refine ⟨not_lt.mp hneg, min_eq_left hreach.1, ?_⟩
          show slice c.buffer s.fromOffset target.toNat = _
          rw [hrows, take_slice _ _ hreach.1]
        | some rows =>
          rw [howned] at hkeys
          have hcopy : c.copyOut id = c := by
            unfold copyOut
            simp only [hs, howned, Option.isSome_some, if_true]
          have hrows : c.rowsOf s = rows := by
            unfold rowsOf
            rw [howned]
            rfl
          have hne : rows ≠ [] := by
            rintro rfl
            simp only [List.length_nil] at hkeys
            omega
          have hwf' := h.withOffset s.fromOffset (by
            have := h.offset
            omega) true
          have happ := appendKV_spec (c := { c with offset := s.fromOffset, rewound := true })
            hwf' hne (.inl rfl)
          have hend : s.fromOffset + rows.length = s.toOffset := by omega
          have hoff : ({ c with offset := s.fromOffset, rewound := true } : KVCache α).offset =
            s.fromOffset := rfl
          simp only [hkeys.1, Bool.false_and, Bool.false_eq_true, if_false, hcopy,
            ownedRows_eq hs howned]
          rw [hrows]
          obtain ⟨hwf₂, hden₂, hoff₂, hwritten, -⟩ := happ
          rw [hoff, hend] at hoff₂ hwritten
          have hslice : slice (({ c with offset := s.fromOffset, rewound := true } :
              KVCache α).appendKV rows).1.buffer s.fromOffset target.toNat =
              rows.take (target.toNat - s.fromOffset) := by
            have htake := congrArg (List.take (target.toNat - s.fromOffset)) hwritten
            rw [take_slice _ _ hreach.1] at htake
            exact htake
          split
          · rename_i hclamp
            have hbound := hwf₂.offset
            exact ⟨hwf₂.withOffset _ (by omega) _, hden₂, fun _ => ⟨not_lt.mp hneg, rfl, hslice⟩⟩
          · rename_i hclamp
            refine ⟨hwf₂, hden₂, fun _ => ⟨not_lt.mp hneg, ?_, hslice⟩⟩
            rw [hoff₂] at hclamp ⊢
            omega

theorem rewind_spec {c : KVCache α} (h : c.Wf) (target : Nat) :
    (c.rewind target).1.Wf ∧ (c.rewind target).1.denotes = c.denotes := by
  unfold rewind
  split
  · exact ⟨h, rfl⟩
  · rename_i hle
    exact ⟨h.withOffset _ ((not_lt.mp hle).trans h.offset) true, rfl⟩

theorem merge_open {c : KVCache α} {p ch : Nat} {ps cs : KvSnapshot α}
    (hp : c.heap.lookup p = some ps) (hch : c.heap.lookup ch = some cs) :
    c.merge (some p) (some ch) =
      ((c.mergeSnapshots p ch ps cs).1, some (c.mergeSnapshots p ch ps cs).2) := by
  simp only [merge, hp, hch]

/-- A merge of two adjacent snapshots replaces them by one that denotes both. -/
theorem mergeSnapshots_spec {c : KVCache α} (h : c.Wf) {p ch : Nat} {ps cs : KvSnapshot α}
    (hp : c.heap.lookup p = some ps) (hch : c.heap.lookup ch = some cs)
    (hadj : ps.toOffset = cs.fromOffset) :
    (c.mergeSnapshots p ch ps cs).2 = c.fresh ∧ (c.mergeSnapshots p ch ps cs).1.Wf ∧
      (c.mergeSnapshots p ch ps cs).1.denotes =
        Function.update (Function.update (Function.update c.denotes p none) ch none) c.fresh
          (some ⟨ps.fromOffset, cs.toOffset, c.rowsOf ps ++ c.rowsOf cs⟩) := by
  obtain ⟨hplt, hpkeys⟩ := h.ok p ps hp
  obtain ⟨hclt, hckeys⟩ := h.ok ch cs hch
  have hpf : p ≠ c.fresh := Nat.ne_of_lt (h.fresh p ps hp)
  have hcf : ch ≠ c.fresh := Nat.ne_of_lt (h.fresh ch cs hch)
  unfold mergeSnapshots
  by_cases hlazy : (ps.keys.isNone && cs.keys.isNone && ps.cache == cs.cache &&
      ps.toOffset == cs.fromOffset) = true
  · rw [if_pos hlazy]
    simp only [Bool.and_eq_true, Option.isNone_iff_eq_none, beq_iff_eq] at hlazy
    obtain ⟨⟨⟨hpn, hcn⟩, -⟩, -⟩ := hlazy
    rw [hpn] at hpkeys
    rw [hcn] at hckeys
    have hprows : c.rowsOf ps = slice c.buffer ps.fromOffset ps.toOffset := by
      unfold rowsOf
      rw [hpn]
      rfl
    have hcrows : c.rowsOf cs = slice c.buffer cs.fromOffset cs.toOffset := by
      unfold rowsOf
      rw [hcn]
      rfl
    obtain ⟨hwf₁, -, hden₁⟩ := newLazy_spec h ps.fromOffset cs.toOffset (by omega) hckeys.2
    obtain ⟨hwf₂, -, hden₂, -⟩ := close_spec hwf₁ p
    obtain ⟨hwf₃, -, hden₃, -⟩ := close_spec hwf₂ ch
    rw [hpkeys.1]
    refine ⟨rfl, hwf₃, ?_⟩
    refine hden₃.trans ?_
    rw [hden₂, hden₁, hprows, hcrows, hadj, slice_append_slice _ (by omega) (by omega),
      Function.update_comm hpf.symm, Function.update_comm hcf.symm]
  · rw [if_neg hlazy]
    have h₁ := copyOut_spec h p
    have h₂ := copyOut_spec h₁.wf ch
    have hcopied := h₁.trans h₂
    -- both own their rows now, and denote what they did
    have howned : ∀ id s, (id = p ∨ id = ch) → c.heap.lookup id = some s →
        ((c.copyOut p).copyOut ch).ownedRows id = c.rowsOf s := by
      intro id s hid hs
      have hden := congrFun hcopied.denotes id
      rw [denotes_eq_some hs] at hden
      unfold denotes at hden
      cases hs' : ((c.copyOut p).copyOut ch).heap.lookup id with
      | none =>
        rw [hs'] at hden
        cases hden
      | some s' =>
        rw [hs', Option.map_some, Option.some.injEq, Held.mk.injEq] at hden
        cases hkeys : s'.keys with
        | none => exact absurd hid (hcopied.remains id s' hs' hkeys).2
        | some rows =>
          rw [ownedRows_eq hs' hkeys, ← hden.2.2]
          unfold rowsOf
          rw [hkeys]
          rfl
    obtain ⟨hwf₃, -, hden₃, hfresh₃⟩ := close_spec hcopied.wf p
    obtain ⟨hwf₄, -, hden₄, hfresh₄⟩ := close_spec hwf₃ ch
    have hplen := (h.ok p ps hp).length
    have hclen := (h.ok ch cs hch).length
    have hlen : (c.rowsOf ps ++ c.rowsOf cs).length = cs.toOffset - ps.fromOffset := by
      rw [List.length_append, hplen, hclen]
      omega
    obtain ⟨hwf₅, -, hden₅⟩ := alloc_spec hwf₄ ps.fromOffset cs.toOffset (by omega) hlen
    have hfresh : (((c.copyOut p).copyOut ch).close p |>.close ch).fresh = c.fresh :=
      hfresh₄.trans (hfresh₃.trans hcopied.fresh)
    simp only [howned p ps (.inl rfl) hp, howned ch cs (.inr rfl) hch]
    refine ⟨hfresh, hwf₅, ?_⟩
    rw [hden₅, hden₄, hden₃, hcopied.denotes, hfresh]

/-- A split inside the range replaces a snapshot by two that denote its parts. -/
theorem splitSnapshot_spec {c : KVCache α} (h : c.Wf) {id : Nat} {s : KvSnapshot α}
    (hs : c.heap.lookup id = some s) {n : Nat} (hn : 0 < n) (hlen : n < s.toOffset - s.fromOffset) :
    (c.splitSnapshot id s n).2 = (c.fresh, c.fresh + 1) ∧ (c.splitSnapshot id s n).1.Wf ∧
      (c.splitSnapshot id s n).1.denotes =
        Function.update (Function.update (Function.update c.denotes id none) c.fresh
          (some ⟨s.fromOffset, s.fromOffset + n, (c.rowsOf s).take n⟩)) (c.fresh + 1)
          (some ⟨s.fromOffset + n, s.toOffset, (c.rowsOf s).drop n⟩) := by
  obtain ⟨hlt, hkeys⟩ := h.ok id s hs
  have hif : id < c.fresh := h.fresh id s hs
  unfold splitSnapshot
  cases howned : s.keys with
  | none =>
    rw [howned] at hkeys
    have hrows : c.rowsOf s = slice c.buffer s.fromOffset s.toOffset := by
      unfold rowsOf
      rw [howned]
      rfl
    obtain ⟨hwf₁, hlive₁, hden₁⟩ := newLazy_spec h s.fromOffset (s.fromOffset + n)
      (by omega) (by omega)
    have hbuf₁ := buffer_of_live hlive₁
    obtain ⟨hwf₂, hlive₂, hden₂⟩ := newLazy_spec hwf₁ (s.fromOffset + n) s.toOffset
      (by omega) (by rw [hbuf₁]; exact hkeys.2)
    obtain ⟨hwf₃, -, hden₃, -⟩ := close_spec hwf₂ id
    simp only [hkeys.1]
    refine ⟨rfl, hwf₃, hden₃.trans ?_⟩
    have htake : (slice c.buffer s.fromOffset s.toOffset).take n =
        slice c.buffer s.fromOffset (s.fromOffset + n) := take_slice_add _ (by omega)
    have hdrop : (slice c.buffer s.fromOffset s.toOffset).drop n =
        slice c.buffer (s.fromOffset + n) s.toOffset := drop_slice_add _ _ _ _
    rw [hden₂, hden₁, hbuf₁, hrows, htake, hdrop]
    show Function.update (Function.update (Function.update c.denotes c.fresh _) (c.fresh + 1) _) id
      none = _
    rw [Function.update_comm (by omega : c.fresh + 1 ≠ id), Function.update_comm (by omega : c.fresh ≠ id)]
  | some rows =>
    rw [howned] at hkeys
    have hrows : c.rowsOf s = rows := by
      unfold rowsOf
      rw [howned]
      rfl
    obtain ⟨hwf₀, -, hden₀, hfresh₀⟩ := close_spec h id
    have hl₁ : (slice rows 0 n).length = s.fromOffset + n - s.fromOffset := by
      rw [length_slice_of_le (by omega)]
      omega
    obtain ⟨hwf₁, -, hden₁⟩ := alloc_spec hwf₀ s.fromOffset (s.fromOffset + n)
      (by omega) hl₁
    have hl₂ : (slice rows n (s.toOffset - s.fromOffset)).length =
        s.toOffset - (s.fromOffset + n) := by
      rw [length_slice_of_le (by omega)]
      omega
    obtain ⟨hwf₂, -, hden₂⟩ := alloc_spec hwf₁ (s.fromOffset + n) s.toOffset
      (by omega) hl₂
    have hfresh : (((c.close id).alloc ⟨some (slice rows 0 n), s.fromOffset, s.fromOffset + n,
        false⟩).1).fresh = c.fresh + 1 := congrArg (· + 1) hfresh₀
    refine ⟨Prod.ext hfresh₀ hfresh, hwf₂, ?_⟩
    have htake : slice rows 0 n = rows.take n := by simp [slice]
    have hdrop : slice rows n (s.toOffset - s.fromOffset) = rows.drop n := by
      rw [← hkeys.2, slice]
      exact List.take_of_length_le (by simp)
    simp only
    rw [hden₂, hfresh, hden₁, hfresh₀, hden₀, hrows, htake, hdrop]

/-- `Split`: the snapshot itself at the ends of its range, two parts inside. -/
theorem split_cases {c : KVCache α} {id : Nat} {s : KvSnapshot α} (hs : c.heap.lookup id = some s)
    (splitAt : Int) :
    (splitAt ≤ s.fromOffset ∧ c.split (some id) splitAt = (c, none, some id)) ∨
      (s.toOffset ≤ splitAt ∧ c.split (some id) splitAt = (c, some id, none)) ∨
      (s.fromOffset < splitAt ∧ splitAt < s.toOffset ∧
        c.split (some id) splitAt =
          ((c.splitSnapshot id s (splitAt - s.fromOffset).toNat).1,
            some (c.splitSnapshot id s (splitAt - s.fromOffset).toNat).2.1,
            some (c.splitSnapshot id s (splitAt - s.fromOffset).toNat).2.2)) := by
  simp only [split, hs]
  by_cases hlo : splitAt - s.fromOffset ≤ 0
  · rw [if_pos hlo]
    exact .inl ⟨by omega, rfl⟩
  · rw [if_neg hlo]
    by_cases hhi : (s.toOffset : Int) - s.fromOffset ≤ splitAt - s.fromOffset
    · rw [if_pos hhi]
      exact .inr (.inl ⟨by omega, rfl⟩)
    · rw [if_neg hhi]
      exact .inr (.inr ⟨by omega, by omega, rfl⟩)

theorem free_spec {c : KVCache α} (h : c.Wf) : c.free.Wf ∧ c.free.denotes = c.denotes := by
  obtain ⟨hwf, hlive, hden, -, -, hremains⟩ := copyOutWhere_spec h fun _ => true
  have howned : ∀ id s, (c.copyOutWhere fun _ => true).heap.lookup id = some s → s.keys ≠ none :=
    fun id s hs hnone => (hremains id s hs hnone).2 rfl
  refine ⟨⟨hwf.step, Nat.zero_le _, hwf.fresh, hwf.nodup, hwf.isLazy, fun id s hs => ?_⟩, ?_⟩
  · have hok := hwf.ok id s hs
    refine ⟨hok.1, ?_⟩
    have hne := howned id s hs
    unfold SnapshotOk at hok
    cases hkeys : s.keys with
    | none => exact absurd hkeys hne
    | some rows =>
      rw [hkeys] at hok
      exact hok.2
  · rw [← hden]
    funext id
    unfold denotes
    show ((c.copyOutWhere fun _ => true).heap.lookup id).map _ = _
    cases hs : (c.copyOutWhere fun _ => true).heap.lookup id with
    | none => rfl
    | some s =>
      refine congrArg some (congrArg (Held.mk s.fromOffset s.toOffset) ?_)
      unfold rowsOf
      cases hkeys : s.keys with
      | none => exact absurd hkeys (howned id s hs)
      | some rows => rfl

end KVCache

end Prismalama.Mlxrunner
