import Prismalama.Mlxrunner.KVPrefill
import Prismalama.Mlxrunner.Speculation

/-!
# Snapshots of a prefill: the recurrent cache

The state of a recurrent layer cannot be cut back, so that a write is cut at the offsets it
crosses. The offsets that are captured are the same as those of the KV cache, and what is captured
depends on the prompt and the offsets alone (`prefill_snapshots`, for both caches).
-/

namespace Prismalama.Mlxrunner

open Prismalama.Lib

namespace PendingSnapshots

/-- A capture without a snapshot leaves its entry as it was. -/
theorem captureReachedFrom_nil {C : Type*} {reached : Nat} {snap : C → C × Option Nat} {c : C}
    (h : snap c = (c, none)) (offsets : List Nat) (captured : List (Option Nat)) :
    (captureReachedFrom reached snap c offsets captured).1 = c ∧
      (captureReachedFrom reached snap c offsets captured).2.1 = captured := by
  induction offsets generalizing captured with
  | nil => exact ⟨rfl, rfl⟩
  | cons o offsets ih =>
    cases captured with
    | nil => exact ⟨rfl, rfl⟩
    | cons id captured =>
      unfold captureReachedFrom
      obtain ⟨hc, hcaptured⟩ := ih captured
      split
      · next hthis =>
        rw [h]
        exact ⟨hc, hthis.1 ▸ congrArg (none :: ·) hcaptured⟩
      · exact ⟨hc, congrArg (id :: ·) hcaptured⟩

theorem captureReached_nil {C : Type*} {reached : Nat} {snap : C → C × Option Nat} {c : C}
    (h : snap c = (c, none)) (p : PendingSnapshots) :
    ∃ base, p.captureReached reached snap c = (c, { p with base := base }) := by
  unfold captureReached
  split
  · exact ⟨p.base, rfl⟩
  · next captured hcaptured =>
    obtain ⟨hc, hsame⟩ := @captureReachedFrom_nil _ reached _ _ h p.offsets captured
    refine ⟨if (captureReachedFrom reached snap c p.offsets captured).2.2 = true then reached
      else p.base, Prod.ext hc ?_⟩
    dsimp only
    rw [hsame, hcaptured]

end PendingSnapshots

namespace RecurrentCache

variable {α : Type*}

/-- The state at each offset; a cache that was not used has none. -/
def states (c : RecurrentCache α) (full : List α) (offsets : List Nat) :
    List (Option (RecurrentSnapshot α)) :=
  offsets.map fun o =>
    if o = c.offset ∧ c.state.isNone = true then none else some ⟨full.take o, o⟩

/-- The snapshots of a schedule have these states; nil is for none. -/
def Denote (c : RecurrentCache α) (ids : List (Option Nat))
    (states : List (Option (RecurrentSnapshot α))) : Prop :=
  ids.map (Option.map fun id => c.heap.lookup id) = states.map (Option.map some)

/-- A schedule, the writes of a prompt, and what `TakeSnapshots` returns. -/
def prefill (c : RecurrentCache α) (offsets : List Nat) (writes : List (List α)) :
    Option (RecurrentCache α × List (Option Nat)) :=
  (c.prepareSnapshots offsets).map fun c => (writes.foldl update c).takeSnapshots

/-- The offset of the cache is captured at once, if there is a state. -/
theorem Tracks.prepare_fills {c : RecurrentCache α} {full seq : List α} (h : c.Tracks seq)
    (hfull : seq <+: full) (hidle : c.snapshots.captured = none) {offsets : List Nat}
    (hle : ∀ o ∈ offsets, c.offset ≤ o) (hchain : offsets.IsChain (· < ·)) :
    ∃ c₁, c.prepareSnapshots offsets = some c₁ ∧ c₁.Tracks seq ∧
      c₁.snapshots.Filled offsets (OpenAt full c₁)
        fun o => o = c.offset ∧ c.state.isNone = false := by
  obtain ⟨p, hprep, hnone⟩ := PendingSnapshots.prepare_filled hidle hle hchain (OpenAt full c)
  have hkeeps : Keeps c.state c.offset { c with snapshots := p } := ⟨rfl, rfl, h.fresh⟩
  have hbound := hkeeps.captureBoundary c.offset
  refine ⟨({ c with snapshots := p } : RecurrentCache α).captureBoundary c.offset, ?_,
    ⟨hbound.offset.trans h.offset, by rw [hbound.state, h.state], hbound.fresh⟩, ?_⟩
  · rw [prepareSnapshots, hprep]
    rfl
  rcases Option.eq_none_or_eq_some c.state with hstate | ⟨st, hstate⟩
  · have hsnap : ({ c with snapshots := p } : RecurrentCache α).snapshot c.offset =
        ({ c with snapshots := p }, none) := by
      unfold snapshot
      rw [hstate]
    obtain ⟨base, hsame⟩ := @PendingSnapshots.captureReached_nil _ c.offset
      (fun c' : RecurrentCache α => c'.snapshot c.offset) _ hsnap p
    have hbound' : ({ c with snapshots := p } : RecurrentCache α).captureBoundary c.offset =
        { c with snapshots := { p with base := base } } := by
      unfold captureBoundary captureReached
      rw [hsame]
    rw [hbound', hstate]
    exact PendingSnapshots.Filled.congr hnone fun o _ => by simp
  · have hst : st = full.take c.offset := by
      have hseq := h.state
      rw [hstate] at hseq
      rw [show st = seq from hseq, h.offset]
      exact List.prefix_iff_eq_take.mp hfull
    have hkeeps' : Keeps (some st) c.offset { c with snapshots := p } := ⟨hstate, rfl, h.fresh⟩
    obtain ⟨-, -, hfilled⟩ := (snapshot_captures hst c.offset).filled hkeeps' hnone not_false
    refine PendingSnapshots.Filled.congr hfilled fun o _ => ?_
    rw [hstate]
    exact ⟨fun ho => ⟨ho.resolve_left not_false, rfl⟩, fun ho => .inr ho.1⟩

/-- The writes of a prompt fill the entries up to its end. -/
theorem Tracks.run_fills {full : List α} {writes : List (List α)} {c : RecurrentCache α}
    {seq : List α} (h : c.Tracks seq) (hfull : seq ++ writes.flatten <+: full)
    (hne : ∀ rows ∈ writes, rows ≠ []) {offsets : List Nat} {Done : Nat → Prop}
    (hfilled : c.snapshots.Filled offsets (OpenAt full c) Done)
    (hnot : ∀ o, seq.length < o → ¬ Done o) (hnodup : offsets.Nodup) :
    (writes.foldl RecurrentCache.update c).snapshots.Filled offsets
      (OpenAt full (writes.foldl RecurrentCache.update c))
      fun o => Done o ∨ seq.length < o ∧ o ≤ seq.length + writes.flatten.length := by
  induction writes generalizing c seq Done with
  | nil =>
    exact hfilled.congr fun o _ => by
      rw [List.flatten_nil, List.length_nil]
      exact ⟨.inl, fun h => h.resolve_right (by omega)⟩
  | cons rows writes ih =>
    rw [List.flatten_cons, ← List.append_assoc] at hfull
    have hpos := List.length_pos_of_ne_nil (hne rows List.mem_cons_self)
    have hlen : (seq ++ rows).length = seq.length + rows.length := List.length_append
    have hupd := h.update_fills ((List.prefix_append _ _).trans hfull) hfilled hnot
      (hnot _ (by omega)) hnodup
    refine PendingSnapshots.Filled.congr (ih (h.update rows) hfull
      (fun rows' h' => hne rows' (List.mem_cons_of_mem _ h')) hupd fun o hlt => ?_) fun o _ => ?_
    · rintro (hdone | hin)
      · exact hnot o (by omega) hdone
      · omega
    · rw [hlen, List.flatten_cons, List.length_append, or_assoc]
      refine or_congr_right ?_
      omega

/-- What `TakeSnapshots` returns of a filled schedule. -/
theorem denote_of_filled {c : RecurrentCache α} {full : List α} {offsets : List Nat}
    {Done : Nat → Prop} (h : c.snapshots.Filled offsets (OpenAt full c) Done)
    {stateAt : Nat → Option (RecurrentSnapshot α)}
    (hstate : ∀ o ∈ offsets, Done o ∧ stateAt o = some ⟨full.take o, o⟩ ∨
      ¬ Done o ∧ stateAt o = none) :
    c.takeSnapshots.1.Denote c.takeSnapshots.2 (offsets.map stateAt) := by
  obtain ⟨-, captured, hcaptured, hslots⟩ := h
  have hids : c.takeSnapshots.2 = captured := by
    unfold takeSnapshots PendingSnapshots.take
    rw [hcaptured]
    rfl
  rw [hids]
  unfold Denote
  clear hids hcaptured
  induction hslots with
  | nil => rfl
  | cons hslot _ ih =>
    rw [List.map_cons, List.map_cons, List.map_cons,
      ih fun o ho => hstate o (List.mem_cons_of_mem _ ho)]
    refine congrArg (· :: _) ?_
    rcases hstate _ List.mem_cons_self with ⟨hdone, heq⟩ | ⟨hnot, heq⟩
    · obtain ⟨-, n, rfl, sn, hsn, rfl, hfull⟩ | ⟨hnot, -⟩ := hslot
      · rw [heq, ← hfull]
        exact congrArg some hsn
      · exact absurd hdone hnot
    · obtain ⟨hdone, -⟩ | ⟨-, rfl⟩ := hslot
      · exact absurd hdone hnot
      · rw [heq]
        rfl

/-- The snapshots have the states at the offsets, however the prompt is cut. -/
theorem prefill_states {c : RecurrentCache α} {seq : List α} (h : c.Tracks seq)
    (hidle : c.snapshots.captured = none) {offsets : List Nat} (hchain : offsets.IsChain (· < ·))
    (hle : ∀ o ∈ offsets, c.offset ≤ o) {writes : List (List α)}
    (hne : ∀ rows ∈ writes, rows ≠ []) {stream : List α} (hcut : writes.flatten <+: stream)
    (hreach : ∀ o ∈ offsets, o ≤ c.offset + writes.flatten.length) :
    ∃ out, c.prefill offsets writes = some out ∧
      out.1.Denote out.2 (c.states (c.state.getD [] ++ stream) offsets) := by
  rw [h.state]
  obtain ⟨c₁, hprep, htracks, hfilled⟩ :=
    h.prepare_fills (List.prefix_append seq stream) hidle hle hchain
  have hoff := h.offset
  have hrun := htracks.run_fills ((List.prefix_append_right_inj seq).mpr hcut) hne hfilled
    (fun o hlt hdone => by omega) (List.isChain_iff_pairwise.mp hchain).nodup
  unfold prefill
  rw [hprep, Option.map_some]
  refine ⟨_, rfl, denote_of_filled hrun fun o ho => ?_⟩
  have hlo := hle o ho
  have hhi := hreach o ho
  by_cases hstart : o = c.offset ∧ c.state.isNone = true
  · rw [if_pos hstart]
    refine .inr ⟨?_, rfl⟩
    rintro (hdone | hin)
    · rw [hstart.2] at hdone
      cases hdone.2
    · omega
  · rw [if_neg hstart]
    refine .inl ⟨?_, rfl⟩
    by_cases heq : o = c.offset
    · exact .inl ⟨heq, Bool.eq_false_iff.mpr fun hnone => hstart ⟨heq, hnone⟩⟩
    · exact .inr (by omega)

end RecurrentCache

/-! ## Every run -/

/-- The calls of a recurrent cache. `Merge` closes the first of its snapshots, and `Split` does
nothing. -/
inductive RecurrentOp (α : Type*)
  | update (rows : List α)
  | prepareSnapshots (offsets : List Nat)
  | takeSnapshots
  | snapshot (fromOffset : Nat)
  | restore (snapshot : Option Nat) (target : Int)
  | close (id : Nat)
  | free

namespace RecurrentCache

variable {α : Type*}

def apply (c : RecurrentCache α) : RecurrentOp α → RecurrentCache α
  | .update rows => c.update rows
  | .prepareSnapshots offsets => (c.prepareSnapshots offsets).getD c
  | .takeSnapshots => c.takeSnapshots.1
  | .snapshot fromOffset => (c.snapshot fromOffset).1
  | .restore snapshot target => (c.restore snapshot target).1
  | .close id => c.close id
  | .free => c.free

/-- The cache from `NewRecurrentCache` on. -/
def sys (α : Type*) : TSys (RecurrentCache α) (RecurrentOp α) where
  init c := c = newRecurrentCache
  step c op c' := c' = c.apply op

/-- A snapshot has as many rows as its offset says. -/
def Lengths (c : RecurrentCache α) : Prop :=
  ∀ (id : Nat) (sn : RecurrentSnapshot α), c.heap.lookup id = some sn → sn.state.length = sn.offset

theorem Lengths.alloc {c : RecurrentCache α} (h : c.Lengths) {st : List α} {o : Nat}
    (hlen : st.length = o) : (c.alloc st o).1.Lengths := by
  intro id sn hsn
  unfold RecurrentCache.alloc at hsn
  rw [GoMap.lookup_insert_ite] at hsn
  split at hsn
  · cases hsn
    exact hlen
  · exact h id sn hsn

theorem Lengths.snapshot {c : RecurrentCache α} (h : c.Lengths)
    (hstate : ∀ st, c.state = some st → st.length = c.offset) (fromOffset : Nat) :
    (c.snapshot fromOffset).1.Lengths := by
  unfold RecurrentCache.snapshot
  split
  · exact h
  · next st hst => exact h.alloc (hstate st hst)

/-- A boundary is captured with the state that the cache has. -/
theorem Lengths.captureBoundary {c : RecurrentCache α} {state : Option (List α)} {offset : Nat}
    (h : c.Lengths) (hkeeps : Keeps state offset c)
    (hstate : ∀ st, state = some st → st.length = offset) (reached : Nat) :
    (c.captureBoundary reached).Lengths := by
  have hsnap : ∀ c' : RecurrentCache α, Keeps state offset c' ∧ c'.Lengths →
      Keeps state offset (c'.snapshot reached).1 ∧ (c'.snapshot reached).1.Lengths := by
    rintro c' ⟨hkept, hlengths⟩
    refine ⟨hkept.snapshot _, hlengths.snapshot (fun st hst => ?_) _⟩
    rw [hkept.state] at hst
    rw [hkept.offset, hstate st hst]
  exact (PendingSnapshots.captureReached_rule hsnap c.snapshots ⟨hkeeps, h⟩).2

theorem Lengths.captureBoundaryState {c : RecurrentCache α} (h : c.Lengths) {reached : Nat}
    {st : List α} (hlen : st.length = reached) : (c.captureBoundaryState reached st).Lengths := by
  have hsnap : ∀ c' : RecurrentCache α, c'.Lengths → (c'.alloc st reached).1.Lengths :=
    fun _ hc' => hc'.alloc hlen
  have hcaptured : (c.snapshots.captureReached reached (fun c' => c'.alloc st reached) c).1.Lengths :=
    PendingSnapshots.captureReached_rule hsnap c.snapshots h
  exact hcaptured

theorem Tracks.update_lengths {c : RecurrentCache α} {seq : List α} (h : c.Tracks seq)
    (hlengths : c.Lengths) (rows : List α) : (c.update rows).Lengths := by
  have hsplits : (c.atSplits seq rows).Lengths := by
    refine List.foldlRecOn (motive := Lengths) _ _ hlengths fun c' hc' e he => ?_
    obtain ⟨s, hs, rfl⟩ := List.mem_map.mp he
    obtain ⟨o, ho, rfl⟩ := List.mem_map.mp hs
    have hin := (Bool.and_eq_true_iff.mp (List.mem_filter.mp ho).2).2
    have hlt := of_decide_eq_true hin
    have hoff := h.offset
    refine hc'.captureBoundaryState ?_
    rw [List.length_append, List.length_take, Nat.min_eq_left (by omega)]
  have hend : (c.atEnd seq rows).Lengths := hsplits
  rw [h.update_eq rows]
  refine hend.captureBoundary (h.atEnd rows) (fun st hst => ?_) _
  rw [← Option.some.inj hst]

/-- The state has seen as many rows as the offset says, and so have the snapshots. -/
structure Sound (c : RecurrentCache α) : Prop where
  tracks : c.Tracks (c.state.getD [])
  lengths : c.Lengths

theorem Sound.state_length {c : RecurrentCache α} (h : c.Sound) (st : List α)
    (hst : c.state = some st) : st.length = c.offset := by
  rw [h.tracks.offset, hst]
  rfl

theorem Sound.apply {c : RecurrentCache α} (h : c.Sound) (op : RecurrentOp α) :
    (c.apply op).Sound := by
  obtain ⟨⟨hoff, -, hfresh⟩, hlengths⟩ := id h
  cases op with
  | update rows =>
    have hupd := h.tracks.update rows
    exact ⟨⟨by rw [RecurrentCache.apply, hupd.offset, hupd.state], rfl, hupd.fresh⟩,
      h.tracks.update_lengths hlengths rows⟩
  | prepareSnapshots offsets =>
    show ((c.prepareSnapshots offsets).getD c).Sound
    unfold prepareSnapshots
    cases c.snapshots.prepare c.offset offsets with
    | none => exact h
    | some p =>
      have hkeeps : Keeps c.state c.offset { c with snapshots := p } := ⟨rfl, rfl, hfresh⟩
      have hbound := hkeeps.captureBoundary c.offset
      have hlengths' : ({ c with snapshots := p } : RecurrentCache α).Lengths := hlengths
      show (({ c with snapshots := p } : RecurrentCache α).captureBoundary c.offset).Sound
      exact ⟨⟨hbound.offset.trans (by rw [hbound.state, hoff]), rfl, hbound.fresh⟩,
        hlengths'.captureBoundary hkeeps h.state_length _⟩
  | takeSnapshots => exact ⟨⟨hoff, rfl, hfresh⟩, hlengths⟩
  | snapshot fromOffset =>
    have hkeeps : Keeps c.state c.offset c := ⟨rfl, rfl, hfresh⟩
    have hsnap := hkeeps.snapshot fromOffset
    exact ⟨⟨hsnap.offset.trans (by rw [hoff, RecurrentCache.apply, hsnap.state]), rfl, hsnap.fresh⟩,
      hlengths.snapshot h.state_length _⟩
  | restore snapshot target =>
    show (c.restore snapshot target).1.Sound
    unfold restore
    split
    · exact h
    · next id =>
      split
      · exact h
      · next sn hsn =>
        split
        · exact h
        · exact ⟨⟨(hlengths id sn hsn).symm, rfl, hfresh⟩, hlengths⟩
  | close id =>
    refine ⟨h.tracks.close id, fun id' sn hsn => ?_⟩
    rw [RecurrentCache.apply, RecurrentCache.close, GoMap.lookup_erase_ite] at hsn
    split at hsn
    · cases hsn
    · exact hlengths id' sn hsn
  | free => exact ⟨⟨rfl, rfl, hfresh⟩, hlengths⟩

theorem sound_invariant : (sys α).Invariant Sound := by
  refine TSys.Inductive.invariant { init := ?_, step := ?_ }
  · rintro c rfl
    exact ⟨⟨rfl, rfl, fun id sn hsn => by simp [newRecurrentCache] at hsn⟩,
      fun id sn hsn => by simp [newRecurrentCache] at hsn⟩
  · rintro c op _ h rfl
    exact h.apply op

end RecurrentCache

/-- However a prompt is cut into writes, and whatever was done with the caches before, the
snapshots are of the rows between two offsets, and of the states at each of them. -/
theorem prefill_snapshots {α : Type*} [Inhabited α] {offsets : List Nat}
    (hchain : offsets.IsChain (· < ·)) {writes : List (List α)} (hne : ∀ rows ∈ writes, rows ≠ [])
    {stream : List α} (hcut : writes.flatten <+: stream) :
    (∀ L, (Ledger.ledgerSys α).Reachable L → L.cache.snapshots.captured = none →
      (∀ o ∈ offsets, L.cache.offset ≤ o ∧ o ≤ L.cache.offset + writes.flatten.length) →
      ∃ out, L.cache.prefill offsets writes = some out ∧ out.1.Denote out.2
        (edges (L.cache.buffer.take L.cache.offset ++ stream) L.cache.offset offsets)) ∧
    (∀ c, (RecurrentCache.sys α).Reachable c → c.snapshots.captured = none →
      (∀ o ∈ offsets, c.offset ≤ o ∧ o ≤ c.offset + writes.flatten.length) →
      ∃ out, c.prefill offsets writes = some out ∧
        out.1.Denote out.2 (c.states (c.state.getD [] ++ stream) offsets)) := by
  refine ⟨fun L hreach hidle hrange => ?_, fun c hreach hidle hrange => ?_⟩
  · exact KVCache.prefill_edges (Ledger.wf_invariant L hreach) hidle hchain
      (fun o ho => (hrange o ho).1) hne hcut fun o ho => (hrange o ho).2
  · exact RecurrentCache.prefill_states (RecurrentCache.sound_invariant c hreach).tracks hidle
      hchain (fun o ho => (hrange o ho).1) hne hcut fun o ho => (hrange o ho).2

theorem prefill_snapshots_three :
    (∃ out, (newKVCache : KVCache Nat).prefill [2, 3] [[7, 8], [9]] = some out ∧
      out.1.Denote out.2 (edges ([] ++ [7, 8, 9]) 0 [2, 3])) ∧
    ∃ out, (newRecurrentCache : RecurrentCache Nat).prefill [2, 3] [[7, 8], [9]] = some out ∧
      out.1.Denote out.2 (newRecurrentCache.states ([] ++ [7, 8, 9]) [2, 3]) := by
  obtain ⟨hkv, hrecurrent⟩ := prefill_snapshots (show [2, 3].IsChain (· < ·) by decide)
    (show ∀ rows ∈ [[7, 8], [9]], rows ≠ [] by decide) (List.prefix_refl [7, 8, 9])
  exact ⟨hkv ⟨newKVCache, fun _ => none⟩ (.init rfl) rfl (by decide),
    hrecurrent newRecurrentCache (.init rfl) rfl (by decide)⟩

/-- At its own offset a cache has no rows to hold, and a new one no state. -/
theorem prefill_nil :
    ((newKVCache : KVCache Nat).prefill [0, 2] [[7, 8]]).map (·.2) = some [none, some 0] ∧
      ((newRecurrentCache : RecurrentCache Nat).prefill [0, 2] [[7, 8]]).map (·.2) =
        some [none, some 0] := by
  decide

end Prismalama.Mlxrunner
