import Prismalama.Mlxrunner.KVSnapshots

/-!
# Runs of the KV cache

The ledger says what each open snapshot held when it was captured; a split or a
merge is entered as the parts or the whole of what was entered before. It is the
cache that copies at once. The claim about the lazy one is that its snapshots
denote what the ledger says, in every state of a run.
-/

namespace Prismalama.Mlxrunner

open Prismalama.Lib

/-- A cache and its ledger. -/
structure Ledger (α : Type*) where
  cache : KVCache α
  held : Nat → Option (Held α)

inductive KVOp (α : Type*)
  | update (keys : List α)
  | prepareSnapshots (offsets : List Nat)
  | takeSnapshots
  | snapshot (fromOffset : Nat)
  | restore (snapshot : Option Nat) (target : Int)
  | split (snapshot : Option Nat) (splitAt : Int)
  | merge (parent child : Option Nat)
  | close (id : Nat)
  | free

namespace Ledger

variable {α : Type*}

/-- Enter the snapshots that are new in `c'` with the rows its buffer holds. -/
def capture (c c' : KVCache α) (held : Nat → Option (Held α)) : Nat → Option (Held α) :=
  fun id =>
    if id < c.fresh then held id
    else (c'.heap.lookup id).map fun s =>
      ⟨s.fromOffset, s.toOffset, slice c'.buffer s.fromOffset s.toOffset⟩

/-- Enter the parts of a snapshot that was split. -/
def enterSplit (held : Nat → Option (Held α)) (mid : Nat) (snapshot : Option Nat)
    (parts : Option Nat × Option Nat) : Nat → Option (Held α) :=
  match snapshot.bind held, snapshot, parts with
  | some h, some id, (some p, some ch) =>
    Function.update (Function.update (Function.update held id none) p
      (some ⟨h.fromOffset, mid, h.rows.take (mid - h.fromOffset)⟩)) ch
      (some ⟨mid, h.toOffset, h.rows.drop (mid - h.fromOffset)⟩)
  | _, _, _ => held

def enterClose (held : Nat → Option (Held α)) : Option Nat → Nat → Option (Held α)
  | none => held
  | some id => Function.update held id none

/-- Enter a merge: what the two held, one after the other. -/
def enterMerge (held : Nat → Option (Held α)) (parent child merged : Option Nat) :
    Nat → Option (Held α) :=
  let closed := enterClose (enterClose held parent) child
  match parent.bind held, child.bind held, merged with
  | some hp, some hc, some m =>
    Function.update closed m (some ⟨hp.fromOffset, hc.toOffset, hp.rows ++ hc.rows⟩)
  | _, _, _ => closed

def apply [Inhabited α] (L : Ledger α) : KVOp α → Ledger α
  | .update keys =>
    let c := (L.cache.update keys).1
    ⟨c, capture L.cache c L.held⟩
  | .prepareSnapshots offsets =>
    { L with cache := (L.cache.prepareSnapshots offsets).getD L.cache }
  | .takeSnapshots => { L with cache := L.cache.takeSnapshots.1 }
  | .snapshot fromOffset =>
    let c := (L.cache.snapshot fromOffset).1
    ⟨c, capture L.cache c L.held⟩
  | .restore snapshot target => { L with cache := (L.cache.restore snapshot target).1 }
  | .split snapshot splitAt =>
    let out := L.cache.split snapshot splitAt
    ⟨out.1, enterSplit L.held splitAt.toNat snapshot out.2⟩
  | .merge parent child =>
    let out := L.cache.merge parent child
    ⟨out.1, enterMerge L.held parent child out.2⟩
  | .close id => ⟨L.cache.close id, enterClose L.held (some id)⟩
  | .free => { L with cache := L.cache.free }

def IsOpen (c : KVCache α) (snapshot : Option Nat) : Prop :=
  ∀ id ∈ snapshot, (c.heap.lookup id).isSome = true

/-- The calls of a run: snapshots that are passed are open, merged ones are
adjacent, a schedule is drained before the next. -/
def Guard (L : Ledger α) : KVOp α → Prop
  | .update keys => keys ≠ []
  | .prepareSnapshots offsets => (L.cache.prepareSnapshots offsets).isSome = true
  | .restore snapshot _ => IsOpen L.cache snapshot
  | .split snapshot _ => IsOpen L.cache snapshot
  | .merge parent child =>
    IsOpen L.cache parent ∧ IsOpen L.cache child ∧
      ∀ p ∈ parent, ∀ ch ∈ child, ∀ ps ∈ L.cache.heap.lookup p, ∀ cs ∈ L.cache.heap.lookup ch,
        ps.toOffset = cs.fromOffset
  | .close id => IsOpen L.cache (some id)
  | .takeSnapshots | .snapshot _ | .free => True

/-- An update that lands on a lazy snapshot finds the `rewound` flag set. -/
def FlagsOverwrite (L : Ledger α) : KVOp α → Prop
  | .update keys => L.cache.rewound = true ∨ ¬L.cache.LandsOnLazy keys.length
  | _ => True

instance (c : KVCache α) (snapshot : Option Nat) : Decidable (IsOpen c snapshot) :=
  inferInstanceAs (Decidable (∀ id ∈ snapshot, (c.heap.lookup id).isSome = true))

instance [DecidableEq α] (L : Ledger α) : (op : KVOp α) → Decidable (L.Guard op)
  | .update keys => inferInstanceAs (Decidable (keys ≠ []))
  | .prepareSnapshots offsets =>
    inferInstanceAs (Decidable ((L.cache.prepareSnapshots offsets).isSome = true))
  | .restore snapshot _ => inferInstanceAs (Decidable (IsOpen L.cache snapshot))
  | .split snapshot _ => inferInstanceAs (Decidable (IsOpen L.cache snapshot))
  | .merge parent child => inferInstanceAs (Decidable (IsOpen L.cache parent ∧
      IsOpen L.cache child ∧ ∀ p ∈ parent, ∀ ch ∈ child, ∀ ps ∈ L.cache.heap.lookup p,
        ∀ cs ∈ L.cache.heap.lookup ch, ps.toOffset = cs.fromOffset))
  | .close id => inferInstanceAs (Decidable (IsOpen L.cache (some id)))
  | .takeSnapshots => .isTrue trivial
  | .snapshot _ => .isTrue trivial
  | .free => .isTrue trivial

instance (c : KVCache α) (n : Nat) : Decidable (c.LandsOnLazy n) :=
  inferInstanceAs (Decidable (∃ id ∈ c.lazySnapshots, ∃ s ∈ c.heap.lookup id,
    s.fromOffset < c.offset + n ∧ c.offset < s.toOffset))

instance (L : Ledger α) : (op : KVOp α) → Decidable (L.FlagsOverwrite op)
  | .update keys => inferInstanceAs (Decidable (L.cache.rewound = true ∨
      ¬L.cache.LandsOnLazy keys.length))
  | .prepareSnapshots _ => .isTrue trivial
  | .takeSnapshots => .isTrue trivial
  | .snapshot _ => .isTrue trivial
  | .restore _ _ => .isTrue trivial
  | .split _ _ => .isTrue trivial
  | .merge _ _ => .isTrue trivial
  | .close _ => .isTrue trivial
  | .free => .isTrue trivial

/-- The cache from `NewKVCache` on. -/
def ledgerSys (α : Type*) [Inhabited α] : TSys (Ledger α) (KVOp α) :=
  TSys.ofFn (fun L => L = ⟨newKVCache, fun _ => none⟩) Guard apply

/-! ## The invariant -/

/-- The lazy cache refines the ledger. -/
structure Inv (L : Ledger α) : Prop where
  wf : L.cache.Wf
  denotes : L.cache.denotes = L.held

theorem Captures.denotes {c c' : KVCache α} (h : KVCache.Captures c c') :
    c'.denotes = capture c c' c.denotes := by
  funext id
  unfold capture
  split
  · rename_i hid
    unfold KVCache.denotes
    rw [h.old id hid, KVCache.rowsOf_of_live h.live]
  · rename_i hid
    unfold KVCache.denotes
    cases hs : c'.heap.lookup id with
    | none => rfl
    | some s =>
      have hnone := h.new id s (not_lt.mp hid) hs
      refine congrArg some (congrArg (Held.mk s.fromOffset s.toOffset) ?_)
      unfold KVCache.rowsOf
      rw [hnone]
      rfl

theorem exists_of_denotes {c : KVCache α} {id : Nat} {h : Held α} (hden : c.denotes id = some h) :
    ∃ s, c.heap.lookup id = some s ∧
      h = ⟨s.fromOffset, s.toOffset, c.rowsOf s⟩ := by
  unfold KVCache.denotes at hden
  obtain ⟨s, hs, heq⟩ := Option.map_eq_some_iff.mp hden
  exact ⟨s, hs, heq.symm⟩

theorem update_inv [Inhabited α] {L : Ledger α} (h : L.Inv) {keys : List α} (hne : keys ≠ [])
    (hflag : L.FlagsOverwrite (.update keys)) : (L.apply (.update keys)).Inv := by
  obtain ⟨hwf, hden, -, -, -, -, hfresh⟩ := KVCache.appendKV_spec h.wf hne hflag
  have hcap := KVCache.captureLazySnapshots_captures hwf L.cache.offset
  refine ⟨hcap.wf, ?_⟩
  show (L.cache.update keys).1.denotes = capture L.cache (L.cache.update keys).1 L.held
  refine (Captures.denotes hcap).trans ?_
  funext id
  unfold capture
  rw [hfresh, hden, h.denotes]
  rfl

theorem split_inv [Inhabited α] {L : Ledger α} (h : L.Inv) (snapshot : Option Nat)
    (splitAt : Int) : (L.apply (.split snapshot splitAt)).Inv := by
  show Inv ⟨(L.cache.split snapshot splitAt).1,
    enterSplit L.held splitAt.toNat snapshot (L.cache.split snapshot splitAt).2⟩
  cases snapshot with
  | none => exact h
  | some id =>
    cases hs : L.cache.heap.lookup id with
    | none =>
      have hnone := KVCache.denotes_eq_none hs
      rw [h.denotes] at hnone
      have hsplit : L.cache.split (some id) splitAt = (L.cache, none, none) := by
        simp only [KVCache.split, hs]
      rw [hsplit]
      refine ⟨h.wf, ?_⟩
      simp only [enterSplit, Option.bind_some, hnone]
      exact h.denotes
    | some s =>
      have hheld := KVCache.denotes_eq_some hs
      rw [h.denotes] at hheld
      rcases KVCache.split_cases hs splitAt with ⟨-, hsplit⟩ | ⟨-, hsplit⟩ | ⟨hlo, hhi, hsplit⟩
      · rw [hsplit]
        refine ⟨h.wf, ?_⟩
        simp only [enterSplit, Option.bind_some, hheld]
        exact h.denotes
      · rw [hsplit]
        refine ⟨h.wf, ?_⟩
        simp only [enterSplit, Option.bind_some, hheld]
        exact h.denotes
      · have hn : 0 < (splitAt - s.fromOffset).toNat := by omega
        obtain ⟨hids, hwf, hden⟩ := KVCache.splitSnapshot_spec h.wf hs hn (by omega)
        have hmid : s.fromOffset + (splitAt - s.fromOffset).toNat = splitAt.toNat := by omega
        have hidx : splitAt.toNat - s.fromOffset = (splitAt - s.fromOffset).toNat := by omega
        rw [hsplit]
        refine ⟨hwf, ?_⟩
        simp only [enterSplit, Option.bind_some, hheld, hids]
        rw [hden, h.denotes, hmid, hidx]

theorem merge_inv [Inhabited α] {L : Ledger α} (h : L.Inv) (parent child : Option Nat)
    (hop : L.Guard (.merge parent child)) : (L.apply (.merge parent child)).Inv := by
  obtain ⟨hp, hch, hadj⟩ := hop
  show Inv ⟨(L.cache.merge parent child).1,
    enterMerge L.held parent child (L.cache.merge parent child).2⟩
  cases parent with
  | none =>
    cases child with
    | none => exact h
    | some ch =>
      obtain ⟨hwf, -, hden, -⟩ := KVCache.close_spec h.wf ch
      refine ⟨hwf, ?_⟩
      show (L.cache.close ch).denotes = Function.update L.held ch none
      rw [hden, h.denotes]
  | some p =>
    obtain ⟨ps, hps⟩ := Option.isSome_iff_exists.mp (hp p rfl)
    have hpheld := KVCache.denotes_eq_some hps
    rw [h.denotes] at hpheld
    cases child with
    | none =>
      obtain ⟨hwf, -, hden, -⟩ := KVCache.close_spec h.wf p
      refine ⟨hwf, ?_⟩
      simp only [enterMerge, Option.bind_some, Option.bind_none, hpheld, enterClose, KVCache.merge]
      rw [hden, h.denotes]
    | some ch =>
      obtain ⟨cs, hcs⟩ := Option.isSome_iff_exists.mp (hch ch rfl)
      have hcheld := KVCache.denotes_eq_some hcs
      rw [h.denotes] at hcheld
      obtain ⟨hid, hwf, hden⟩ := KVCache.mergeSnapshots_spec h.wf hps hcs
        (hadj p rfl ch rfl ps hps cs hcs)
      simp only [KVCache.merge, hps, hcs]
      refine ⟨hwf, ?_⟩
      simp only [enterMerge, Option.bind_some, hpheld, hcheld, enterClose, hid]
      rw [hden, h.denotes]

theorem apply_inv [Inhabited α] {L : Ledger α} (h : L.Inv) {op : KVOp α} (hop : L.Guard op)
    (hflag : L.FlagsOverwrite op) : (L.apply op).Inv := by
  cases op with
  | update keys => exact update_inv h hop hflag
  | prepareSnapshots offsets =>
    show Inv { L with cache := (L.cache.prepareSnapshots offsets).getD L.cache }
    unfold KVCache.prepareSnapshots
    cases L.cache.snapshots.prepare L.cache.offset offsets with
    | none => exact h
    | some p =>
      exact ⟨⟨h.wf.step, h.wf.offset, h.wf.fresh, h.wf.nodup, h.wf.isLazy, h.wf.ok⟩, h.denotes⟩
  | takeSnapshots =>
    exact ⟨⟨h.wf.step, h.wf.offset, h.wf.fresh, h.wf.nodup, h.wf.isLazy, h.wf.ok⟩, h.denotes⟩
  | snapshot fromOffset =>
    have hcap := KVCache.lazySnapshot_captures h.wf fromOffset (le_refl L.cache.offset)
    refine ⟨hcap.wf, ?_⟩
    rw [apply, ← h.denotes]
    exact Captures.denotes hcap
  | restore snapshot target =>
    cases snapshot with
    | none =>
      simp only [apply, KVCache.restore]
      split
      · exact h
      · obtain ⟨hwf, hden⟩ := KVCache.rewind_spec h.wf target.toNat
        exact ⟨hwf, hden.trans h.denotes⟩
    | some id =>
      obtain ⟨s, hs⟩ := Option.isSome_iff_exists.mp (hop id rfl)
      obtain ⟨hwf, hden, -⟩ := KVCache.restore_some h.wf (KVCache.denotes_eq_some hs) target
      exact ⟨hwf, hden.trans h.denotes⟩
  | split snapshot splitAt => exact split_inv h snapshot splitAt
  | merge parent child => exact merge_inv h parent child hop
  | close id =>
    obtain ⟨hwf, -, hden, -⟩ := KVCache.close_spec h.wf id
    refine ⟨hwf, ?_⟩
    show (L.cache.close id).denotes = Function.update L.held id none
    rw [hden, h.denotes]
  | free =>
    obtain ⟨hwf, hden⟩ := KVCache.free_spec h.wf
    exact ⟨hwf, hden.trans h.denotes⟩

theorem ledger_invariant [Inhabited α] :
    ((ledgerSys α).restrict FlagsOverwrite).Invariant (Inv (α := α)) := by
  refine TSys.Inductive.invariant { init := ?_, step := ?_ }
  · rintro L rfl
    refine ⟨⟨Nat.succ_pos 255, Nat.zero_le _, fun id s hs => ?_, List.nodup_nil, fun id => ?_,
      fun id s hs => ?_⟩, rfl⟩
    · simp [newKVCache] at hs
    · simp [newKVCache]
    · simp [newKVCache] at hs
  · rintro L op _ hinv ⟨hflag, hop, rfl⟩
    exact apply_inv hinv hop hflag

/-! ## What holds in every run -/

/-- Every open snapshot denotes the range and the rows it held. -/
def Faithful (L : Ledger α) : Prop := ∀ id, L.cache.denotes id = L.held id

/-- A split inside the range makes two snapshots that hold its parts, and their
merge holds what was split. Elsewhere it gives back the snapshot. -/
def SplitMerges (L : Ledger α) : Prop :=
  ∀ id held (splitAt : Int), L.held id = some held →
    if held.fromOffset < splitAt ∧ splitAt < held.toOffset then
      ∃ c p ch c' m, L.cache.split (some id) splitAt = (c, some p, some ch) ∧
        c.denotes p = some ⟨held.fromOffset, splitAt.toNat,
          held.rows.take (splitAt.toNat - held.fromOffset)⟩ ∧
        c.denotes ch = some ⟨splitAt.toNat, held.toOffset,
          held.rows.drop (splitAt.toNat - held.fromOffset)⟩ ∧
        c.merge (some p) (some ch) = (c', some m) ∧ c'.denotes m = some held
    else
      (L.cache.split (some id) splitAt).1 = L.cache ∧
        (L.cache.split (some id) splitAt).2 ∈ [(none, some id), (some id, none)]

/-- When `Restore` brings the cache to the target, the live rows from the start
of the snapshot on are its rows. -/
def RestoresHeld [Inhabited α] (L : Ledger α) : Prop :=
  ∀ id held target, L.held id = some held → (L.cache.restore (some id) target).2 = true →
    (L.cache.restore (some id) target).1.offset = target ∧
      ((L.cache.restore (some id) target).1.state.getD []).drop held.fromOffset =
        held.rows.take (target.toNat - held.fromOffset)

theorem Inv.splitMerges {L : Ledger α} (h : L.Inv) : L.SplitMerges := by
  intro id held splitAt hheld
  rw [← h.denotes] at hheld
  obtain ⟨s, hs, rfl⟩ := exists_of_denotes hheld
  rcases KVCache.split_cases hs splitAt with ⟨hle, hsplit⟩ | ⟨hle, hsplit⟩ | ⟨hlo, hhi, hsplit⟩
  · have hnot : ¬((s.fromOffset : Int) < splitAt ∧ splitAt < s.toOffset) := by omega
    rw [if_neg hnot, hsplit]
    exact ⟨rfl, by simp⟩
  · have hnot : ¬((s.fromOffset : Int) < splitAt ∧ splitAt < s.toOffset) := by omega
    rw [if_neg hnot, hsplit]
    exact ⟨rfl, by simp⟩
  · rw [if_pos ⟨hlo, hhi⟩]
    have hn : 0 < (splitAt - s.fromOffset).toNat := by omega
    have hmid : s.fromOffset + (splitAt - s.fromOffset).toNat = splitAt.toNat := by omega
    have hidx : splitAt.toNat - s.fromOffset = (splitAt - s.fromOffset).toNat := by omega
    obtain ⟨hids, hwf, hden⟩ := KVCache.splitSnapshot_spec h.wf hs hn (by omega)
    rw [hids] at hsplit
    rw [hmid] at hden
    -- the parts, and then their merge
    have hp := congrFun hden L.cache.fresh
    have hch := congrFun hden (L.cache.fresh + 1)
    rw [Function.update_of_ne (by omega), Function.update_self] at hp
    rw [Function.update_self] at hch
    obtain ⟨ps, hps, hpeq⟩ := exists_of_denotes hp
    obtain ⟨cs, hcs, hceq⟩ := exists_of_denotes hch
    rw [Held.mk.injEq] at hpeq hceq
    obtain ⟨hpfrom, hpto, hprows⟩ := hpeq
    obtain ⟨hcfrom, hcto, hcrows⟩ := hceq
    obtain ⟨hm, -, hden'⟩ := KVCache.mergeSnapshots_spec hwf hps hcs (by omega)
    refine ⟨_, _, _, _, _, hsplit, ?_, ?_, KVCache.merge_open hps hcs, ?_⟩
    · rw [hp, hidx]
    · rw [hch, hidx]
    · rw [hm, hden', Function.update_self, ← hpfrom, ← hcto, ← hprows, ← hcrows,
        List.take_append_drop]

theorem Inv.restoresHeld [Inhabited α] {L : Ledger α} (h : L.Inv) : L.RestoresHeld := by
  intro id held target hheld hok
  rw [← h.denotes] at hheld
  obtain ⟨-, -, hrestored⟩ := KVCache.restore_some h.wf hheld target
  obtain ⟨hnonneg, hoff, hslice⟩ := hrestored hok
  refine ⟨by omega, ?_⟩
  have hstate : (L.cache.restore (some id) target).1.state.getD [] =
      (L.cache.restore (some id) target).1.buffer.take target.toNat := by
    unfold KVCache.state KVCache.buffer
    rw [hoff]
    cases (L.cache.restore (some id) target).1.keys with
    | none => simp
    | some rows => rfl
  rw [hstate, drop_take_eq_slice, hslice]

/-- In every run whose updates find the `rewound` flag set when they land on a
lazy snapshot, snapshots denote what they held when captured, a merge undoes a
split, and a restore brings back the rows of its snapshot. -/
theorem snapshots_faithful [Inhabited α] {L : Ledger α}
    (hreach : ((ledgerSys α).restrict FlagsOverwrite).Reachable L) :
    L.Faithful ∧ L.SplitMerges ∧ L.RestoresHeld :=
  have hinv := ledger_invariant L hreach
  ⟨fun id => congrFun hinv.denotes id, hinv.splitMerges, hinv.restoresHeld⟩

/-- A rewind onto a lazy snapshot that is copied out and restored. -/
theorem snapshots_faithful_rewind :
    let L := [.update [1, 2, 3, 4, 5, 6], .update [7, 8, 9, 10], .snapshot 6, .restore none 5,
      .update [50, 60], .restore (some 0) 9].foldl apply (⟨newKVCache, fun _ => none⟩ : Ledger Nat)
    L.Faithful ∧ L.SplitMerges ∧ L.RestoresHeld := by
  intro L
  have hinit : ((ledgerSys Nat).restrict FlagsOverwrite).Reachable ⟨newKVCache, fun _ => none⟩ :=
    .init rfl
  have hreach : ((ledgerSys Nat).restrict FlagsOverwrite).Reachable L :=
    TSys.Reachable.run_restrict hinit _ (by decide +kernel)
  exact snapshots_faithful hreach

/-- Rows 6 to 9 are a lazy snapshot. After a rewind to 5 an update of one row
does not touch them but clears the flag, and the next one overwrites row 6. -/
theorem cleared_flag_overwrites :
    ∃ L : Ledger Nat, (ledgerSys Nat).Reachable L ∧ ¬L.Faithful ∧
      L.held 0 = some ⟨6, 10, [7, 8, 9, 10]⟩ ∧ L.cache.denotes 0 = some ⟨6, 10, [60, 8, 9, 10]⟩ := by
  let ops : List (KVOp Nat) := [.update [1, 2, 3, 4, 5, 6], .update [7, 8, 9, 10], .snapshot 6,
    .restore none 5, .update [50], .update [60]]
  let L := ops.foldl apply (⟨newKVCache, fun _ => none⟩ : Ledger Nat)
  have hinit : (ledgerSys Nat).Reachable ⟨newKVCache, fun _ => none⟩ := .init rfl
  have hheld : L.held 0 = some ⟨6, 10, [7, 8, 9, 10]⟩ := by decide +kernel
  have hnow : L.cache.denotes 0 = some ⟨6, 10, [60, 8, 9, 10]⟩ := by decide +kernel
  refine ⟨L, TSys.Reachable.run hinit ops (by decide), fun hfaithful => ?_, hheld, hnow⟩
  have heq := hfaithful 0
  rw [hheld, hnow] at heq
  cases heq

end Ledger

end Prismalama.Mlxrunner
