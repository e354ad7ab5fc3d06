import Prismalama.Mlxrunner.KVLedger

/-!
# Snapshots of a prefill: the KV cache

The prompt is fed in writes, and a write may cross none, one or several of the scheduled offsets.
The writes need no cutting: an offset that was reached captures the rows from the one before, by
arithmetic. What `TakeSnapshots` returns depends on the prompt and the offsets alone
(`KVCache.prefill_edges`).
-/

namespace Prismalama.Mlxrunner

open Prismalama.Lib

/-- The rows from the offset before; there is no snapshot of an empty range. -/
def edge {α : Type*} (full : List α) (lo o : Nat) : Option (Held α) :=
  if lo < o then some ⟨lo, o, slice full lo o⟩ else none

/-- What is captured at each offset, from `lo` on. -/
def edges {α : Type*} (full : List α) : Nat → List Nat → List (Option (Held α))
  | _, [] => []
  | lo, o :: offsets => edge full lo o :: edges full o offsets

theorem length_edges {α : Type*} (full : List α) (lo : Nat) (offsets : List Nat) :
    (edges full lo offsets).length = offsets.length := by
  induction offsets generalizing lo with
  | nil => rfl
  | cons o offsets ih => rw [edges, List.length_cons, List.length_cons, ih]

theorem edges_append {α : Type*} (full : List α) (lo o : Nat) (offsets : List Nat) :
    edges full lo (offsets ++ [o]) =
      edges full lo offsets ++ [edge full (offsets.getLastD lo) o] := by
  induction offsets generalizing lo with
  | nil => rfl
  | cons o' offsets ih =>
    rw [List.cons_append, edges, ih, edges, List.getLastD_cons, List.cons_append]

theorem mem_edges {α : Type*} {full : List α} {lo : Nat} {offsets : List Nat} {h : Held α}
    (hmem : some h ∈ edges full lo offsets) : h.toOffset ∈ offsets := by
  induction offsets generalizing lo with
  | nil => cases hmem
  | cons o offsets ih =>
    rcases List.mem_cons.mp hmem with hhead | htail
    · unfold edge at hhead
      split at hhead
      · cases hhead
        exact List.mem_cons_self
      · cases hhead
    · exact List.mem_cons_of_mem _ (ih htail)

/-- Offsets at which nothing was written since. -/
theorem edges_start {α : Type*} (full : List α) {lo : Nat} {offsets : List Nat}
    (h : ∀ o ∈ offsets, o = lo) : edges full lo offsets = offsets.map fun _ => none := by
  induction offsets with
  | nil => rfl
  | cons o offsets ih =>
    obtain rfl := h o List.mem_cons_self
    rw [edges, edge, if_neg (lt_irrefl _), ih fun o' ho' => h o' (List.mem_cons_of_mem _ ho'),
      List.map_cons]

/-- The next rows of a prompt, and what is behind them. -/
theorem rows_of_prefix {α : Type*} {full rows rest : List α} {k : Nat}
    (h : rows ++ rest <+: full.drop k) :
    (∀ i < rows.length, full[k + i]? = rows[i]?) ∧ rest <+: full.drop (k + rows.length) := by
  obtain ⟨behind, hbehind⟩ := h
  refine ⟨fun i hi => ?_, behind, ?_⟩
  · rw [← List.getElem?_drop, ← hbehind, List.append_assoc, List.getElem?_append_left hi]
  · rw [← List.drop_drop, ← hbehind, List.append_assoc, List.drop_left]

namespace KVCache

variable {α : Type*}

/-- The snapshots of a schedule denote these ranges; nil is for an empty one. -/
def Denote (c : KVCache α) (ids : List (Option Nat)) (ranges : List (Option (Held α))) : Prop :=
  ids.map (Option.map c.denotes) = ranges.map (Option.map some)

theorem Denote.length {c : KVCache α} {ids : List (Option Nat)} {ranges : List (Option (Held α))}
    (h : c.Denote ids ranges) : ids.length = ranges.length := by
  have hlen := congrArg List.length h
  rwa [List.length_map, List.length_map] at hlen

theorem Denote.append {c : KVCache α} {ids : List (Option Nat)} {ranges : List (Option (Held α))}
    (h : c.Denote ids ranges) {id : Option Nat} {range : Option (Held α)}
    (hid : id.map c.denotes = range.map some) : c.Denote (ids ++ [id]) (ranges ++ [range]) := by
  unfold Denote at h ⊢
  rw [List.map_append, List.map_append, h, List.map_singleton, List.map_singleton, hid]

/-- What the snapshots in question denote stays. -/
theorem Denote.congr {c c' : KVCache α} {ids : List (Option Nat)} {ranges : List (Option (Held α))}
    (h : c.Denote ids ranges)
    (hkept : ∀ n held, c.denotes n = some held → some held ∈ ranges → c'.denotes n = some held) :
    c'.Denote ids ranges := by
  unfold Denote at h ⊢
  refine Eq.trans (List.map_congr_left fun id hid => ?_) h
  cases id with
  | none => rfl
  | some n =>
    have hmem : some (c.denotes n) ∈ ranges.map (Option.map some) := by
      rw [← h]
      exact List.mem_map.mpr ⟨some n, hid, rfl⟩
    obtain ⟨range, hrange, heq⟩ := List.mem_map.mp hmem
    cases range with
    | none => cases heq
    | some held =>
      have hheld : c.denotes n = some held := (Option.some.inj heq).symm
      exact congrArg some ((hkept n held hheld hrange).trans hheld.symm)

/-- Only the entry of an empty range is nil. -/
theorem Denote.nil_le {c : KVCache α} {full : List α} {lo : Nat} {offsets : List Nat}
    {ids : List (Option Nat)} (h : c.Denote ids (edges full lo offsets))
    (hchain : offsets.IsChain (· < ·)) : ∀ e ∈ offsets.zip ids, e.2 = none → e.1 ≤ lo := by
  induction offsets generalizing lo ids with
  | nil => exact fun e he => nomatch he
  | cons o offsets ih =>
    cases ids with
    | nil => exact fun e he => nomatch he
    | cons id ids =>
      obtain ⟨hhead, htail⟩ := List.cons_eq_cons.mp h
      obtain ⟨hlt, hrest⟩ := List.pairwise_cons.mp (List.isChain_iff_pairwise.mp hchain)
      intro e he hnone
      rw [List.zip_cons_cons] at he
      rcases List.mem_cons.mp he with rfl | he
      · by_contra hle
        obtain rfl : id = none := hnone
        rw [edge, if_pos (not_le.mp hle)] at hhead
        cases hhead
      · have hle := ih htail (List.isChain_iff_pairwise.mpr hrest) e he hnone
        exact absurd (hlt _ (List.of_mem_zip he).1) (not_lt.mpr hle)

/-! ### A write -/

theorem Captures.denotes_old {c c' : KVCache α} (h : Captures c c') (hwf : c.Wf) {n : Nat}
    {held : Held α} (hheld : c.denotes n = some held) : c'.denotes n = some held := by
  obtain ⟨s, hs, -⟩ := Option.map_eq_some_iff.mp hheld
  rw [congrFun (Ledger.Captures.denotes h) n, Ledger.capture, if_pos (hwf.fresh n s hs), hheld]

/-- The offsets that were reached have their snapshots, the others are to come. -/
structure Prefilling (c : KVCache α) (full : List α) (start : Nat) (done todo : List Nat) :
    Prop where
  wf : c.Wf
  rows : ∀ i < c.offset, c.buffer[i]? = full[i]?
  offsets : c.snapshots.offsets = done ++ todo
  captured : ∃ ids, c.snapshots.captured = some (ids ++ todo.map fun _ => none) ∧
    c.Denote ids (edges full start done)
  base : c.snapshots.base = done.getLastD start

/-- An offset that comes next is captured, from the one before. -/
theorem Prefilling.capture {c : KVCache α} {full : List α} {start o : Nat} {done todo : List Nat}
    (h : Prefilling c full start done (o :: todo)) (hchain : (done ++ o :: todo).IsChain (· < ·))
    (hkeys : c.keys.isNone = false) (ho : o ≤ c.offset) :
    Prefilling (c.captureReached o) full start (done ++ [o]) todo ∧
      (c.captureReached o).live = c.live := by
  obtain ⟨ids, hcaptured, hdenote⟩ := h.captured
  have hpairs := List.pairwise_append.mp (List.isChain_iff_pairwise.mp hchain)
  have hdone : ∀ e ∈ done.zip ids, e.2 = none → e.1 ≠ o := fun e he _ =>
    Nat.ne_of_lt (hpairs.2.2 e.1 (List.of_mem_zip he).1 o List.mem_cons_self)
  have htodo : ∀ o' ∈ todo, o' ≠ o := fun o' ho' =>
    Nat.ne_of_gt ((List.pairwise_cons.mp hpairs.2.1).1 o' ho')
  have hids : ids.length = done.length := hdenote.length.trans (length_edges full start done)
  have hcap := lazySnapshot_captures h.wf c.snapshots.base ho
  have hfrom : PendingSnapshots.captureReachedFrom o
      (fun c => c.lazySnapshot c.snapshots.base o) c c.snapshots.offsets
      (ids ++ (o :: todo).map fun _ => none) = ((c.lazySnapshot c.snapshots.base o).1,
        ids ++ (c.lazySnapshot c.snapshots.base o).2 :: todo.map fun _ => none, true) := by
    rw [h.offsets, PendingSnapshots.captureReachedFrom_skip hids hdone, List.map_cons,
      PendingSnapshots.captureReachedFrom, if_pos ⟨rfl, rfl⟩]
    dsimp only
    rw [PendingSnapshots.captureReachedFrom_later htodo]
  have hreached : c.captureReached o =
      { (c.lazySnapshot c.snapshots.base o).1 with
        snapshots := ⟨done ++ o :: todo, some
          (ids ++ (c.lazySnapshot c.snapshots.base o).2 :: todo.map fun _ => none), o⟩ } := by
    unfold captureReached PendingSnapshots.captureReached
    rw [hcaptured]
    dsimp only
    rw [hfrom, ← h.offsets]
    rfl
  have hnew : (c.lazySnapshot c.snapshots.base o).2.map
      (c.lazySnapshot c.snapshots.base o).1.denotes = (edge full c.snapshots.base o).map some := by
    unfold lazySnapshot edge
    rw [hkeys, Bool.false_or]
    by_cases hlt : c.snapshots.base < o
    · obtain ⟨-, -, hden⟩ := newLazy_spec h.wf c.snapshots.base o hlt (ho.trans h.wf.offset)
      have hslice : slice full c.snapshots.base o = slice c.buffer c.snapshots.base o :=
        slice_congr fun i _ hi => (h.rows i (by omega)).symm
      rw [if_neg (by simpa using hlt), if_pos hlt, hslice]
      show some ((c.newLazy c.snapshots.base o).denotes c.fresh) = _
      rw [hden, Function.update_self]
      rfl
    · rw [if_pos (decide_eq_true (not_lt.mp hlt)), if_neg hlt]
      rfl
  have hkept := hdenote.congr fun n held hheld _ => hcap.denotes_old h.wf hheld
  rw [hreached]
  refine ⟨⟨(hcap.withSnapshots _).wf, fun i hi => ?_, (List.append_cons _ _ _),
    ⟨ids ++ [(c.lazySnapshot c.snapshots.base o).2], ?_, ?_⟩, (List.getLastD_concat ..).symm⟩,
    hcap.live⟩
  · rw [← h.rows i (hi.trans_eq (offset_of_live hcap.live))]
    exact congrArg (·[i]?) (buffer_of_live hcap.live)
  · rw [List.append_assoc]
    rfl
  · rw [edges_append, ← h.base]
    exact hkept.append hnew

/-- An offset that was captured before is not captured again. -/
theorem Prefilling.again {c : KVCache α} {full : List α} {start o : Nat} {done todo : List Nat}
    (h : Prefilling c full start done todo) (hchain : (done ++ todo).IsChain (· < ·))
    (ho : o ∈ done) (hlt : start < o) : c.captureReached o = c := by
  obtain ⟨ids, hcaptured, hdenote⟩ := h.captured
  have hpairs := List.pairwise_append.mp (List.isChain_iff_pairwise.mp hchain)
  have hdone : ∀ e ∈ done.zip ids, e.2 = none → e.1 ≠ o := by
    intro e he hnone
    have := hdenote.nil_le (List.isChain_iff_pairwise.mpr hpairs.1) e he hnone
    omega
  have htodo : ∀ o' ∈ todo, o' ≠ o := fun o' ho' => Nat.ne_of_gt (hpairs.2.2 o ho o' ho')
  have hids : ids.length = done.length := hdenote.length.trans (length_edges full start done)
  unfold captureReached PendingSnapshots.captureReached
  rw [hcaptured]
  dsimp only
  rw [h.offsets, PendingSnapshots.captureReachedFrom_skip hids hdone,
    PendingSnapshots.captureReachedFrom_later htodo]
  dsimp only
  rw [← hcaptured, ← h.offsets]
  rfl

theorem foldl_captureReached_eq {c : KVCache α} {offsets : List Nat}
    (h : ∀ o ∈ offsets, c.captureReached o = c) : offsets.foldl captureReached c = c := by
  induction offsets with
  | nil => rfl
  | cons o offsets ih =>
    rw [List.foldl_cons, h o List.mem_cons_self]
    exact ih fun o' ho' => h o' (List.mem_cons_of_mem _ ho')

/-- All offsets up to the one of the cache are captured in turn. -/
theorem Prefilling.captures {full : List α} {start : Nat} {todo : List Nat} {c : KVCache α}
    {done : List Nat} (h : Prefilling c full start done todo)
    (hchain : (done ++ todo).IsChain (· < ·)) (hkeys : c.keys.isNone = false)
    (hdone : ∀ o ∈ done, o ≤ c.offset) :
    ∃ done' todo', done' ++ todo' = done ++ todo ∧
      Prefilling ((todo.filter fun o => decide (o ≤ c.offset)).foldl captureReached c) full start
        done' todo' ∧
      ((todo.filter fun o => decide (o ≤ c.offset)).foldl captureReached c).live = c.live ∧
      (∀ o ∈ done', o ≤ c.offset) ∧ ∀ o ∈ todo', c.offset < o := by
  induction todo generalizing c done with
  | nil => exact ⟨done, [], rfl, h, rfl, hdone, fun o ho => nomatch ho⟩
  | cons o todo ih =>
    by_cases ho : o ≤ c.offset
    · have hfilter : (o :: todo).filter (fun o => decide (o ≤ c.offset)) =
          o :: todo.filter fun o => decide (o ≤ c.offset) :=
        List.filter_cons_of_pos (by simpa using ho)
      rw [hfilter, List.foldl_cons]
      obtain ⟨hnext, hlive⟩ := h.capture hchain hkeys ho
      have hoff := offset_of_live hlive
      have hkeys' : (c.captureReached o).keys = c.keys := congrArg Prod.fst hlive
      have happend : done ++ [o] ++ todo = done ++ o :: todo := (List.append_cons _ _ _).symm
      obtain ⟨done', todo', heq, hok, hlive', hdone', htodo'⟩ := ih hnext
        (happend.symm ▸ hchain) (hkeys' ▸ hkeys) (by
          intro o' ho'
          rw [hoff]
          rcases List.mem_append.mp ho' with ho' | ho'
          · exact hdone o' ho'
          · rw [List.mem_singleton.mp ho']
            exact ho)
      rw [hoff] at hok hlive' hdone' htodo'
      exact ⟨done', todo', heq.trans happend, hok, hlive'.trans hlive, hdone', htodo'⟩
    · have hpairs := List.pairwise_append.mp (List.isChain_iff_pairwise.mp hchain)
      have hlater : ∀ o' ∈ o :: todo, c.offset < o' := by
        intro o' ho'
        rcases List.mem_cons.mp ho' with rfl | ho'
        · exact not_le.mp ho
        · exact (not_le.mp ho).trans ((List.pairwise_cons.mp hpairs.2.1).1 o' ho')
      have hfilter : (o :: todo).filter (fun o => decide (o ≤ c.offset)) = [] :=
        List.filter_eq_nil_iff.mpr fun o' ho' => by simpa using hlater o' ho'
      rw [hfilter]
      exact ⟨done, o :: todo, rfl, h, rfl, hdone, hlater⟩

/-- The rows of a write are there, and nothing is captured yet. -/
theorem Prefilling.appendKV [Inhabited α] {c : KVCache α} {full rows : List α} {start : Nat}
    {done todo : List Nat} (h : Prefilling c full start done todo)
    (hdone : ∀ o ∈ done, o ≤ c.offset) (hrows : rows ≠ [])
    (hfull : ∀ i < rows.length, full[c.offset + i]? = rows[i]?) :
    Prefilling (c.appendKV rows).1 full start done todo ∧
      (c.appendKV rows).1.offset = c.offset + rows.length := by
  obtain ⟨hwf, hoff, hwritten, hbefore, hsnap, -, hbelow⟩ := appendKV_written h.wf hrows
  obtain ⟨ids, hcaptured, hdenote⟩ := h.captured
  refine ⟨⟨hwf, fun i hi => ?_, hsnap ▸ h.offsets, ⟨ids, hsnap ▸ hcaptured, ?_⟩, hsnap ▸ h.base⟩,
    hoff⟩
  · rw [hoff] at hi
    by_cases hlt : i < c.offset
    · rw [hbefore i hlt, h.rows i hlt]
    · have hrow := congrArg (·[i - c.offset]?) hwritten
      rw [getElem?_slice, if_pos (by omega), ← hfull _ (by omega),
        Nat.add_sub_cancel' (not_lt.mp hlt)] at hrow
      exact hrow
  · exact hdenote.congr fun n held hheld hmem => hbelow n held hheld (hdone _ (mem_edges hmem))

/-- A write captures the offsets that it crosses or ends on. -/
theorem Prefilling.update [Inhabited α] {c : KVCache α} {full rows : List α} {start : Nat}
    {done todo : List Nat} (h : Prefilling c full start done todo)
    (hchain : (done ++ todo).IsChain (· < ·)) (hdone : ∀ o ∈ done, o ≤ c.offset ∧ start < c.offset)
    (htodo : ∀ o ∈ todo, c.offset ≤ o) (hrows : rows ≠ [])
    (hfull : ∀ i < rows.length, full[c.offset + i]? = rows[i]?) :
    ∃ done' todo', done' ++ todo' = done ++ todo ∧
      Prefilling (c.update rows).1 full start done' todo' ∧
      (c.update rows).1.offset = c.offset + rows.length ∧
      (∀ o ∈ done', o ≤ c.offset + rows.length) ∧ ∀ o ∈ todo', c.offset + rows.length < o := by
  obtain ⟨hok, hoff⟩ := h.appendKV (fun o ho => (hdone o ho).1) hrows hfull
  have hagain : ∀ o ∈ done.filter (fun o => decide (c.offset ≤ o) &&
      decide (o ≤ (c.appendKV rows).1.offset)),
      (c.appendKV rows).1.captureReached o = (c.appendKV rows).1 := by
    intro o ho
    obtain ⟨hmem, hin⟩ := List.mem_filter.mp ho
    have hle := of_decide_eq_true (Bool.and_eq_true_iff.mp hin).1
    have hlt := (hdone o hmem).2
    exact hok.again hchain hmem (by omega)
  have htodoFilter : todo.filter (fun o => decide (c.offset ≤ o) &&
      decide (o ≤ (c.appendKV rows).1.offset)) =
      todo.filter fun o => decide (o ≤ (c.appendKV rows).1.offset) :=
    List.filter_congr fun o ho => by rw [decide_eq_true (htodo o ho), Bool.true_and]
  have hupdate : (c.update rows).1 = (todo.filter fun o =>
      decide (o ≤ (c.appendKV rows).1.offset)).foldl captureReached (c.appendKV rows).1 := by
    show (c.appendKV rows).1.captureLazySnapshots c.offset (c.appendKV rows).1.offset = _
    unfold captureLazySnapshots PendingSnapshots.scheduledIn
    rw [hok.offsets, List.filter_append, List.foldl_append, foldl_captureReached_eq hagain,
      htodoFilter]
  obtain ⟨done', todo', heq, hok', hlive, hdone', htodo'⟩ := hok.captures hchain rfl fun o ho => by
    have := (hdone o ho).1
    omega
  rw [← hupdate] at hok' hlive
  rw [hoff] at hdone' htodo'
  exact ⟨done', todo', heq, hok', (offset_of_live hlive).trans hoff, hdone', htodo'⟩

/-- Between two writes all offsets behind that of the cache are to come. -/
theorem Prefilling.run [Inhabited α] {full : List α} {start : Nat} {writes : List (List α)}
    {c : KVCache α} {done todo : List Nat} (h : Prefilling c full start done todo)
    (hchain : (done ++ todo).IsChain (· < ·)) (hstart : start < c.offset)
    (hdone : ∀ o ∈ done, o ≤ c.offset) (htodo : ∀ o ∈ todo, c.offset < o)
    (hne : ∀ rows ∈ writes, rows ≠ []) (hfull : writes.flatten <+: full.drop c.offset) :
    ∃ done' todo', done' ++ todo' = done ++ todo ∧
      Prefilling (writes.foldl (fun c rows => (c.update rows).1) c) full start done' todo' ∧
      ∀ o ∈ todo', c.offset + writes.flatten.length < o := by
  induction writes generalizing c done todo with
  | nil => exact ⟨done, todo, rfl, h, htodo⟩
  | cons rows writes ih =>
    rw [List.flatten_cons] at hfull
    obtain ⟨hrows, hrest⟩ := rows_of_prefix hfull
    have hne' := hne rows List.mem_cons_self
    obtain ⟨done', todo', heq, hok, hoff, hdone', htodo'⟩ := h.update hchain
      (fun o ho => ⟨hdone o ho, hstart⟩) (fun o ho => (htodo o ho).le) hne' hrows
    rw [← hoff] at hdone' htodo' hrest
    obtain ⟨done₂, todo₂, heq₂, hok₂, htodo₂⟩ := ih hok (heq.symm ▸ hchain) (by omega) hdone' htodo'
      (fun rows' h' => hne rows' (List.mem_cons_of_mem _ h')) hrest
    refine ⟨done₂, todo₂, heq₂.trans heq, hok₂, fun o ho => ?_⟩
    have hlt := htodo₂ o ho
    rw [List.flatten_cons, List.length_append]
    omega

theorem Prefilling.taken {c : KVCache α} {full : List α} {start : Nat} {offsets : List Nat}
    (h : Prefilling c full start offsets []) :
    c.takeSnapshots.1.Denote c.takeSnapshots.2 (edges full start offsets) := by
  obtain ⟨ids, hcaptured, hdenote⟩ := h.captured
  unfold takeSnapshots PendingSnapshots.take
  rw [hcaptured, List.map_nil, List.append_nil]
  exact hdenote

/-- A schedule, the writes of a prompt, and what `TakeSnapshots` returns. -/
def prefill [Inhabited α] (c : KVCache α) (offsets : List Nat) (writes : List (List α)) :
    Option (KVCache α × List (Option Nat)) :=
  (c.prepareSnapshots offsets).map fun c =>
    (writes.foldl (fun c rows => (c.update rows).1) c).takeSnapshots

/-- The snapshots are those of the rows between two offsets, however the prompt is cut. -/
theorem prefill_edges [Inhabited α] {c : KVCache α} (h : c.Wf)
    (hidle : c.snapshots.captured = none) {offsets : List Nat} (hchain : offsets.IsChain (· < ·))
    (hle : ∀ o ∈ offsets, c.offset ≤ o) {writes : List (List α)}
    (hne : ∀ rows ∈ writes, rows ≠ []) {stream : List α} (hcut : writes.flatten <+: stream)
    (hreach : ∀ o ∈ offsets, o ≤ c.offset + writes.flatten.length) :
    ∃ out, c.prefill offsets writes = some out ∧
      out.1.Denote out.2 (edges (c.buffer.take c.offset ++ stream) c.offset offsets) := by
  have hlen : (c.buffer.take c.offset).length = c.offset := by
    rw [List.length_take, Nat.min_eq_left h.offset]
  have hprep : c.prepareSnapshots offsets =
      some { c with snapshots := ⟨offsets, some (offsets.map fun _ => none), c.offset⟩ } := by
    unfold prepareSnapshots PendingSnapshots.prepare
    rw [hidle, if_neg (by simp), if_pos]
    · rfl
    exact ⟨List.all_eq_true.mpr fun o ho => decide_eq_true (hle o ho), hchain⟩
  have hstart : Prefilling
      { c with snapshots := ⟨offsets, some (offsets.map fun _ => none), c.offset⟩ }
      (c.buffer.take c.offset ++ stream) c.offset [] offsets := by
    refine ⟨⟨h.step, h.offset, h.fresh, h.nodup, h.isLazy, h.ok⟩, fun i hi => ?_, rfl,
      ⟨[], rfl, rfl⟩, rfl⟩
    have hi' : i < (c.buffer.take c.offset).length := hi.trans_eq hlen.symm
    rw [List.getElem?_append_left hi', List.getElem?_take, if_pos hi]
    rfl
  unfold prefill
  rw [hprep, Option.map_some]
  refine ⟨_, rfl, ?_⟩
  cases writes with
  | nil =>
    have hsame : ∀ o ∈ offsets, o = c.offset := fun o ho => le_antisymm (hreach o ho) (hle o ho)
    rw [edges_start _ hsame]
    show (offsets.map fun _ => none).map _ = _
    rw [List.map_map, List.map_map]
    rfl
  | cons rows writes =>
    have hdrop : (c.buffer.take c.offset ++ stream).drop c.offset = stream :=
      List.drop_left' hlen
    rw [List.flatten_cons, ← hdrop] at hcut
    obtain ⟨hrows, hrest⟩ := rows_of_prefix hcut
    have hne' := hne rows List.mem_cons_self
    have hpos := List.length_pos_of_ne_nil hne'
    obtain ⟨done, todo, heq, hok, hoff, hdone, htodo⟩ := hstart.update hchain nofun hle hne' hrows
    rw [← hoff] at hdone htodo
    obtain ⟨done', todo', heq', hok', htodo'⟩ := hok.run (heq.symm ▸ hchain)
      (hoff ▸ Nat.lt_add_of_pos_right hpos) hdone htodo
      (fun rows' h' => hne rows' (List.mem_cons_of_mem _ h')) (hoff.symm ▸ hrest)
    have hall : done' ++ todo' = offsets := heq'.trans heq
    have hnil : todo' = [] := by
      refine List.eq_nil_iff_forall_not_mem.mpr fun o ho => ?_
      have hlt := htodo' o ho
      have hle' := hreach o (hall ▸ List.mem_append_right done' ho)
      rw [List.flatten_cons, List.length_append] at hle'
      rw [hoff] at hlt
      exact absurd hle' (not_le.mpr (by dsimp only at hlt; omega))
    rw [hnil, List.append_nil] at hall
    rw [hnil, hall] at hok'
    exact hok'.taken

end KVCache

/-! ## Every run -/

namespace Ledger

variable {α : Type*} [Inhabited α]

/-- Whatever is entered, the cache is in order. -/
theorem apply_wf {L : Ledger α} (h : L.cache.Wf) {op : KVOp α} (hop : L.Guard op) :
    (L.apply op).cache.Wf := by
  have hinv : Inv ⟨L.cache, L.cache.denotes⟩ := ⟨h, rfl⟩
  cases op with
  | update keys =>
    have hwritten := KVCache.appendKV_written h hop
    exact (KVCache.captureLazySnapshots_captures hwritten.wf L.cache.offset).wf
  | prepareSnapshots offsets => exact (@apply_inv α _ _ hinv (.prepareSnapshots offsets) hop trivial).wf
  | takeSnapshots => exact (@apply_inv α _ _ hinv .takeSnapshots hop trivial).wf
  | snapshot fromOffset => exact (@apply_inv α _ _ hinv (.snapshot fromOffset) hop trivial).wf
  | restore snapshot target => exact (@apply_inv α _ _ hinv (.restore snapshot target) hop trivial).wf
  | split snapshot splitAt => exact (@apply_inv α _ _ hinv (.split snapshot splitAt) hop trivial).wf
  | merge parent child => exact (@apply_inv α _ _ hinv (.merge parent child) hop trivial).wf
  | close id => exact (@apply_inv α _ _ hinv (.close id) hop trivial).wf
  | free => exact (@apply_inv α _ _ hinv .free hop trivial).wf

omit [Inhabited α] in
theorem newKVCache_wf : (newKVCache : KVCache α).Wf :=
  ⟨Nat.succ_pos 255, Nat.zero_le _, fun id s hs => by simp [newKVCache] at hs, List.nodup_nil,
    fun id => by simp [newKVCache], fun id s hs => by simp [newKVCache] at hs⟩

theorem wf_invariant : (ledgerSys α).Invariant fun L => L.cache.Wf := by
  refine TSys.Inductive.invariant { init := ?_, step := ?_ }
  · rintro L rfl
    exact newKVCache_wf
  · rintro L op _ h ⟨hop, rfl⟩
    exact apply_wf h hop

end Ledger

end Prismalama.Mlxrunner
