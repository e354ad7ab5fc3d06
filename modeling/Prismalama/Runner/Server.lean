import Prismalama.Lib.TSys
import Prismalama.Runner.Batch

/-!
# The slots of a runner (`runner/ollamarunner/runner.go`, `runner/ollamarunner/cache.go`)

The sequences of a server and its slots over one causal cache. A request gets a slot whose inputs
begin like its prompt, or a copy of such a beginning. `forwardBatch` takes inputs of the sequences
and has cells stored for them, the first section of `computeBatch` counts them as inputs of the
slots, the second one ends sequences. A batch is set up when the one before has begun to be
computed, which may not be at its end yet; requests come at any time.
-/

namespace Prismalama.Runner.Server

open Prismalama.Lib Prismalama.Kvcache

/-- `input.Input` -/
structure Item where
  token : Int
  multimodalHash : Nat
  sameBatch : Nat
  deriving DecidableEq

def Item.input (x : Item) : Input := ⟨x.token, x.sameBatch⟩

/-- `InputCacheSlot`; its `Id` is its index. -/
structure Slot where
  inputs : List Item
  inUse : Bool
  lastUsed : Int
  deriving DecidableEq

structure InputCache where
  slots : List Slot
  cache : Causal

structure Config where
  numCtx : Int
  batchSize : Nat
  multiUserCache : Bool

/-! ## `LoadCacheSlot` -/

def countCommonPrefix : List Item → List Item → Nat
  | a :: as, b :: bs =>
    if a.token ≠ b.token ∨ a.multimodalHash ≠ b.multimodalHash then 0
    else countCommonPrefix as bs + 1
  | _, _ => 0

/-- `longest` and `longestSlot`; -1 and nil at first. -/
abbrev Longest := Option (Nat × Nat)

def Longest.lt (longest : Longest) (count : Nat) : Bool :=
  match longest with
  | none => true
  | some (n, _) => n < count

/-- The loop of `findLongestCacheSlot`. -/
def longestFrom (prompt : List Item) : Nat → List Slot → Longest → Longest
  | _, [], longest => longest
  | i, s :: rest, longest =>
    if s.inUse = true then longestFrom prompt (i + 1) rest longest
    else
      let count := countCommonPrefix s.inputs prompt
      longestFrom prompt (i + 1) rest (if longest.lt count = true then some (count, i) else longest)

inductive LoadError
  | noAvailableSlots
  | remove (err : KvError)

namespace InputCache

def inputs (ic : InputCache) (slot : Nat) : List Item := ((ic.slots[slot]?).map Slot.inputs).getD []

def inUse (ic : InputCache) (slot : Nat) : Bool := ((ic.slots[slot]?).map Slot.inUse).getD false

def modify (ic : InputCache) (slot : Nat) (f : Slot → Slot) : InputCache :=
  { ic with slots := ic.slots.modify slot f }

def setInputs (ic : InputCache) (slot : Nat) (inputs : List Item) : InputCache :=
  ic.modify slot fun s => { s with inputs := inputs }

/-- The cache after it, the slot and the number of inputs; the slot is an index. -/
def findLongestCacheSlot (ic : InputCache) (prompt : List Item) :
    Except LoadError (InputCache × Nat × Nat) :=
  match longestFrom prompt 0 ic.slots none with
  | none => .error .noAvailableSlots
  | some (longest, slot) => .ok (ic, slot, longest)

end InputCache

/-- The loop of `findBestCacheSlot`, with `oldest` and `oldestSlot`: now and nil at first. -/
def bestFrom (prompt : List Item) (now : Int) : Nat → List Slot → Longest × Option (Int × Nat) →
    Longest × Option (Int × Nat)
  | _, [], best => best
  | i, s :: rest, (longest, oldest) =>
    let count := countCommonPrefix s.inputs prompt
    bestFrom prompt now (i + 1) rest
      (if longest.lt count = true then some (count, i) else longest,
        if s.lastUsed < (oldest.map Prod.fst).getD now ∧ s.inUse = false then some (s.lastUsed, i)
        else oldest)

namespace InputCache

/-- `none` for a nil slot. -/
def findBestCacheSlot (ic : InputCache) (prompt : List Item) (now : Int) :
    Option (Except LoadError (InputCache × Nat × Nat)) :=
  match bestFrom prompt now 0 ic.slots (none, none) with
  | (none, _) => none
  | (some (longest, longestSlot), oldest) =>
    if longest = (ic.inputs longestSlot).length ∧ ic.inUse longestSlot = false then
      some (.ok (ic, longestSlot, longest))
    else
      match oldest with
      | none => none
      | some (_, oldestSlot) =>
        if ic.inUse oldestSlot = true then some (.error .noAvailableSlots)
        else if 0 < longest ∧ longestSlot ≠ oldestSlot then
          let ic := ic.setInputs oldestSlot ((ic.inputs longestSlot).take longest)
          some (.ok ({ ic with cache := ic.cache.copyPrefix longestSlot oldestSlot longest },
            oldestSlot, longest))
        else some (.ok (ic, oldestSlot, longest))

/-- How many inputs of a slot that was found are taken; one input of the prompt is left to sample,
which slices an empty prompt up to -1. -/
def numPast (ic : InputCache) (slot : Nat) (prompt : List Item) (cachePrompt : Bool) (n : Nat) :
    Nat :=
  let numPast := if cachePrompt = true then n else 0
  let numPast := if numPast = prompt.length then numPast - 1 else numPast
  if 0 < numPast ∧ ic.cache.canResume slot numPast = false then 0 else numPast

/-- `LoadCacheSlot`: the cache after it, the slot and the inputs that are left of the prompt;
`none` for a panic. -/
def loadCacheSlot (cfg : Config) (ic : InputCache) (prompt : List Item) (cachePrompt : Bool)
    (now now' : Int) (backend : Option KvError) :
    Option (InputCache × Except LoadError (Nat × List Item)) :=
  let found :=
    if cfg.multiUserCache = false then some (ic.findLongestCacheSlot prompt)
    else ic.findBestCacheSlot prompt now
  found.bind fun found =>
    match found with
    | .error e => some (ic, .error e)
    | .ok (ic, slot, n) =>
      let ic := ic.modify slot fun s => { s with inUse := true, lastUsed := now' }
      if prompt = [] then none
      else
        let numPast := ic.numPast slot prompt cachePrompt n
        match ic.cache.remove slot numPast maxInt32 backend with
        | (cache, none) =>
          some (({ ic with cache := cache } : InputCache).setInputs slot (prompt.take numPast),
            .ok (slot, prompt.drop numPast))
        | (cache, some _) =>
          match cache.remove slot 0 maxInt32 backend with
          | (cache, some err) => some ({ ic with cache := cache }, .error (.remove err))
          | (cache, none) =>
            some (({ ic with cache := cache } : InputCache).setInputs slot [], .ok (slot, prompt))

end InputCache

/-! ## `ShiftCacheSlot` -/

inductive Shift
  | keepExceedsContext
  | reprocess (ic : InputCache) (newInputs : List Item)
  | shifted (ic : InputCache)

namespace InputCache

/-- `ShiftCacheSlot` for the context and the `numKeep` of `W`. -/
def shiftCacheSlot (ic : InputCache) (W : Window Item) (slot : Nat) (backend : Option KvError) :
    Shift :=
  let inputs := ic.inputs slot
  if W.numCtx ≤ W.numKeep then .keepExceedsContext
  else if W.discard inputs ≤ 0 then .shifted ic
  else
    match ic.cache.remove slot W.numKeep (W.numKeep + W.discard inputs) backend with
    | (cache, none) =>
      .shifted (({ ic with cache := cache } : InputCache).setInputs slot (W.kept inputs))
    | (cache, some _) =>
      let cache := (cache.remove slot 0 maxInt32 backend).1
      .reprocess (({ ic with cache := cache } : InputCache).setInputs slot []) (W.kept inputs)

/-- The cache does not remove what is dropped. -/
def shiftFails (ic : InputCache) (W : Window Item) (slot : Nat) (backend : Option KvError) : Bool :=
  (ic.cache.remove slot W.numKeep (W.numKeep + W.discard (ic.inputs slot)) backend).2.isSome

end InputCache

section Slots

variable {ic : InputCache} {slot : Nat} {xs : List Item}

theorem inputs_of_get {s : Slot} (h : ic.slots[slot]? = some s) : ic.inputs slot = s.inputs := by
  rw [InputCache.inputs, h]
  rfl

theorem get_modify {s : Slot} (f : Slot → Slot) (h : ic.slots[slot]? = some s) :
    (ic.modify slot f).slots[slot]? = some (f s) := by
  unfold InputCache.modify
  rw [List.getElem?_modify_eq, h]
  rfl

theorem inputs_setInputs {s : Slot} (h : ic.slots[slot]? = some s) :
    (ic.setInputs slot xs).inputs slot = xs := inputs_of_get (get_modify _ h)

theorem inputs_setInputs_of_ne (h : ic.inputs slot ≠ []) (xs : List Item) :
    (ic.setInputs slot xs).inputs slot = xs := by
  cases hget : ic.slots[slot]? with
  | none =>
    rw [InputCache.inputs, hget] at h
    exact absurd rfl h
  | some s => exact inputs_setInputs hget

theorem inputs_setInputs_nil (ic : InputCache) (slot : Nat) :
    (ic.setInputs slot []).inputs slot = [] := by
  cases hget : ic.slots[slot]? with
  | none =>
    show (((ic.slots.modify slot _)[slot]?).map Slot.inputs).getD [] = []
    rw [List.getElem?_modify_eq, hget]
    rfl
  | some s => exact inputs_setInputs hget

end Slots

/-- The slot and the error after a shift. -/
def Shift.alone (slot : Nat) : Shift → Runner.Shift Item
  | .keepExceedsContext => .failed
  | .reprocess _ newInputs => .reprocess newInputs
  | .shifted ic => .shifted (ic.inputs slot)

def Shift.cache (c : Causal) : Shift → Causal
  | .keepExceedsContext => c
  | .reprocess ic _ => ic.cache
  | .shifted ic => ic.cache

section Shift

variable {ic : InputCache} {W : Window Item} {slot : Nat} {backend : Option KvError}

/-- Other slots do not matter to a shift. -/
theorem alone_shiftCacheSlot : (ic.shiftCacheSlot W slot backend).alone slot =
    W.shiftSlot (ic.shiftFails W slot backend) (ic.inputs slot) := by
  rw [InputCache.shiftCacheSlot, Window.shiftSlot, InputCache.shiftFails]
  dsimp only
  by_cases hctx : W.numCtx ≤ W.numKeep
  · rw [if_pos hctx, if_pos hctx]
    rfl
  · rw [if_neg hctx, if_neg hctx]
    by_cases hzero : W.discard (ic.inputs slot) ≤ 0
    · rw [if_pos hzero, if_pos hzero]
      rfl
    · rw [if_neg hzero, if_neg hzero]
      have hne : ic.inputs slot ≠ [] := by
        intro hnil
        rw [hnil] at hzero
        exact hzero Window.discard_nil
      rcases ic.cache.remove slot W.numKeep (W.numKeep + W.discard (ic.inputs slot)) backend with
        ⟨cache, _ | err⟩
      · exact congrArg Runner.Shift.shifted (inputs_setInputs_of_ne hne _)
      · rfl

theorem shiftSlot_of_fails {fails : Bool} (h : 0 < W.discard (ic.inputs slot) →
    ic.shiftFails W slot backend = fails) :
    W.shiftSlot fails (ic.inputs slot) = (ic.shiftCacheSlot W slot backend).alone slot := by
  rw [alone_shiftCacheSlot]
  by_cases hpos : 0 < W.discard (ic.inputs slot)
  · rw [h hpos]
  · exact Window.shiftSlot_of_discard (not_lt.mp hpos) _ _

/-- Nothing is left in a slot whose inputs are processed again. -/
theorem inputs_of_reprocess {ic' : InputCache} {newInputs : List Item}
    (h : ic.shiftCacheSlot W slot backend = .reprocess ic' newInputs) : ic'.inputs slot = [] := by
  rw [InputCache.shiftCacheSlot] at h
  dsimp only at h
  split at h
  · cases h
  · split at h
    · cases h
    · split at h
      · cases h
      · obtain ⟨rfl, -⟩ := Shift.reprocess.inj h
        exact inputs_setInputs_nil _ slot

theorem cache_shiftCacheSlot :
    (Runner.shiftCacheSlot (causalCache backend) W.numCtx (some ic.cache)
      ⟨slot, (ic.inputs slot).map W.input⟩ W.numKeep).1 =
        some ((ic.shiftCacheSlot W slot backend).cache ic.cache) := by
  rw [InputCache.shiftCacheSlot, Runner.shiftCacheSlot]
  have hdiscard : shiftDiscard W.numCtx ((ic.inputs slot).map W.input) W.numKeep =
      W.discard (ic.inputs slot) := rfl
  dsimp only
  rw [hdiscard]
  by_cases hctx : W.numCtx ≤ W.numKeep
  · rw [if_pos hctx, if_pos hctx]
    rfl
  · rw [if_neg hctx, if_neg hctx]
    by_cases hzero : W.discard (ic.inputs slot) ≤ 0
    · rw [if_pos hzero, if_pos hzero]
      rfl
    · rw [if_neg hzero, if_neg hzero]
      obtain ⟨⟨cache, err⟩, hremove⟩ : ∃ out, ic.cache.remove slot W.numKeep
          (W.numKeep + W.discard (ic.inputs slot)) backend = out := ⟨_, rfl⟩
      have hcausal : (causalCache backend).remove ic.cache slot W.numKeep
          (W.numKeep + W.discard (ic.inputs slot)) = (cache, err.isSome) :=
        congrArg (fun out => (out.1, out.2.isSome)) hremove
      rw [hremove, hcausal]
      cases err with
      | none => rfl
      | some err => rfl

/-- The cache, the slot and the error are those of `ShiftCacheSlot` on a causal cache. -/
theorem isOutcome_shiftCacheSlot :
    let out := Runner.shiftCacheSlot (causalCache backend) W.numCtx (some ic.cache)
      ⟨slot, (ic.inputs slot).map W.input⟩ W.numKeep
    out.1 = some ((ic.shiftCacheSlot W slot backend).cache ic.cache) ∧
      W.IsOutcome out.2.1 out.2.2 ((ic.shiftCacheSlot W slot backend).alone slot) := by
  refine ⟨cache_shiftCacheSlot, ?_⟩
  rw [alone_shiftCacheSlot]
  exact Window.isOutcome_shiftSlot (causalCache backend) ic.cache slot (ic.inputs slot)

end Shift

/-! ## `forwardBatch` -/

structure Seq where
  /-- which sequence it is, among all that there were -/
  key : Nat
  slot : Nat
  inputs : List Item
  pendingInputs : List Item
  numKeep : Nat
  shift : Bool
  deriving DecidableEq

def Seq.window (cfg : Config) (q : Seq) : Window Item := ⟨Item.input, cfg.numCtx, q.numKeep, q.shift⟩

/-- The variables of the loop over the inputs of a sequence. -/
structure Setup where
  ic : InputCache
  inputs : List Item
  pendingInputs : List Item
  batch : List (Token × Item)
  batchSize : Nat
  /-- the sequence is where the next batch begins -/
  stalled : Bool
  /-- the slot was emptied, and the sequence is not in the batch -/
  skipped : Bool
  /-- inputs were added for it all the same -/
  spoiled : Bool
  removed : Bool

/-- Take the input at index `i`, which was `inp` before the loop. -/
def Setup.add (st : Setup) (slot i : Nat) (inp : Item) : Setup :=
  { st with
    batch := st.batch ++
      [(⟨slot, (st.ic.inputs slot).length + st.pendingInputs.length⟩, st.inputs.getD i inp)]
    pendingInputs := st.pendingInputs ++ [inp]
    spoiled := st.spoiled || st.skipped }

/-- The loop over the inputs as they were before it; `none` for an error. -/
def setupLoop (cfg : Config) (q : Seq) (backend : Option KvError) :
    Nat → List Item → Setup → Option Setup
  | _, [], st => some st
  | i, inp :: rest, st =>
    let minBatch := 1 + inp.sameBatch
    let st := { st with batchSize := max st.batchSize minBatch }
    if st.batchSize < st.batch.length + minBatch then
      some { st with stalled := st.pendingInputs.isEmpty }
    else if cfg.numCtx < (st.ic.inputs q.slot).length + st.pendingInputs.length + minBatch then
      if st.pendingInputs ≠ [] then some st
      else if q.shift = false then some { st with removed := true }
      else
        match st.ic.shiftCacheSlot (q.window cfg) q.slot backend with
        | .keepExceedsContext => none
        | .reprocess ic newInputs =>
          setupLoop cfg q backend (i + 1) rest
            { st with ic := ic, inputs := newInputs ++ st.inputs, skipped := true }
        | .shifted ic => setupLoop cfg q backend (i + 1) rest ({ st with ic := ic }.add q.slot i inp)
    else setupLoop cfg q backend (i + 1) rest (st.add q.slot i inp)

/-- The variables without the slots and sequences beside this one. -/
def Setup.alone (slot : Nat) (st : Setup) : Runner.Setup Item where
  slot := st.ic.inputs slot
  inputs := st.inputs
  pendingInputs := st.pendingInputs
  batchLen := st.batch.length
  batchSize := st.batchSize
  taken := !(st.skipped || st.removed)
  removed := st.removed

theorem Setup.alone_add (st : Setup) (slot i : Nat) (inp : Item) :
    (st.add slot i inp).alone slot = (st.alone slot).add inp := by
  have hlen : (st.add slot i inp).batch.length = st.batch.length + 1 := List.length_append
  show (⟨_, _, _, (st.add slot i inp).batch.length, _, _, _⟩ : Runner.Setup Item) = _
  rw [hlen]
  rfl

theorem Setup.alone_batchSize (st : Setup) (slot n : Nat) :
    ({ st with batchSize := max st.batchSize (1 + n) } : Setup).alone slot =
      { st.alone slot with batchSize := max (st.alone slot).batchSize (1 + n) } := by
  show (⟨_, _, _, _, ((max st.batchSize (1 + n) : Nat) : Int), _, _⟩ : Runner.Setup Item) = _
  rw [Nat.cast_max, Nat.cast_add, Nat.cast_one]
  rfl

/-- Which inputs of a sequence are taken depends on its own slot, on how long the batch is and on
whether the cache can be shifted, which is tried before the first input is taken. -/
theorem setupLoop_alone {cfg : Config} {q : Seq} {backend : Option KvError} {fails : Bool}
    (old : List Item) (i : Nat) {st : Setup} (hremoved : st.removed = false)
    (hfails : st.pendingInputs = [] → 0 < (q.window cfg).discard (st.ic.inputs q.slot) →
      st.ic.shiftFails (q.window cfg) q.slot backend = fails) :
    (setupLoop cfg q backend i old st).map (Setup.alone q.slot) =
      (q.window cfg).setupLoop fails old (st.alone q.slot) := by
  induction old generalizing i st with
  | nil => rfl
  | cons inp rest ih =>
    -- behind an input that was taken no shift is tried
    have hadd : ∀ st₁ : Setup, st₁.removed = false →
        (setupLoop cfg q backend (i + 1) rest (st₁.add q.slot i inp)).map (Setup.alone q.slot) =
          (q.window cfg).setupLoop fails rest ((st₁.alone q.slot).add inp) := by
      intro st₁ hremoved₁
      have hne : (st₁.add q.slot i inp).pendingInputs ≠ [] := List.concat_ne_nil _ _
      rw [@ih (i + 1) (st₁.add q.slot i inp) hremoved₁ fun hnil => absurd hnil hne, Setup.alone_add]
    have hsize := st.alone_batchSize q.slot inp.sameBatch
    have hbatch : max (st.alone q.slot).batchSize (1 + ((q.window cfg).input inp).sameBatch) <
        (st.alone q.slot).batchLen + (1 + ((q.window cfg).input inp).sameBatch) ↔
          max st.batchSize (1 + inp.sameBatch) < st.batch.length + (1 + inp.sameBatch) := by
      show max (st.batchSize : Int) (1 + inp.sameBatch) < st.batch.length + (1 + inp.sameBatch) ↔ _
      omega
    have hnumCtx : (q.window cfg).numCtx < (st.alone q.slot).slot.length +
        (st.alone q.slot).pendingInputs.length + (1 + ((q.window cfg).input inp).sameBatch) ↔
          cfg.numCtx < (st.ic.inputs q.slot).length + st.pendingInputs.length +
            (1 + inp.sameBatch : Nat) := by
      rw [Nat.cast_add, Nat.cast_one]
      rfl
    rw [setupLoop, Window.setupLoop]
    dsimp only
    by_cases hfull : max st.batchSize (1 + inp.sameBatch) < st.batch.length + (1 + inp.sameBatch)
    · rw [if_pos hfull, if_pos (hbatch.mpr hfull)]
      exact congrArg some hsize
    rw [if_neg hfull, if_neg (mt hbatch.mp hfull)]
    by_cases hroom : cfg.numCtx < (st.ic.inputs q.slot).length + st.pendingInputs.length +
        (1 + inp.sameBatch : Nat)
    · rw [if_pos hroom, if_pos (hnumCtx.mpr hroom)]
      by_cases hpending : st.pendingInputs = []
      · have hpending' : (st.alone q.slot).pendingInputs = [] := hpending
        rw [if_neg (not_not.mpr hpending), if_neg (not_not.mpr hpending')]
        by_cases hshift : q.shift = false
        · have hwindow : (q.window cfg).shift = false := hshift
          rw [if_pos hshift, if_pos hwindow]
          refine congrArg some (({ st with removed := true } : Setup).alone_batchSize q.slot
            inp.sameBatch |>.trans ?_)
          show (⟨_, _, _, _, _, !(st.skipped || true), true⟩ : Runner.Setup Item) = _
          rw [Bool.or_true]
          rfl
        · have hwindow : (q.window cfg).shift ≠ false := hshift
          rw [if_neg hshift, if_neg hwindow]
          -- the first input: nothing was added yet, and the cache is as it was
          have hfirst : (q.window cfg).shiftSlot fails (st.alone q.slot).slot =
              (st.ic.shiftCacheSlot (q.window cfg) q.slot backend).alone q.slot :=
            shiftSlot_of_fails (hfails hpending)
          rw [hfirst]
          cases hcase : st.ic.shiftCacheSlot (q.window cfg) q.slot backend with
          | keepExceedsContext => rfl
          | reprocess ic newInputs =>
            -- nothing is left to be shifted again
            have hnil := inputs_of_reprocess hcase
            have halone := @ih (i + 1) { st with
              batchSize := max st.batchSize (1 + inp.sameBatch), ic := ic,
              inputs := newInputs ++ st.inputs, skipped := true } hremoved fun _ hpos => by
                rw [hnil] at hpos
                exact absurd hpos (not_lt.mpr Window.discard_nil)
            rw [Setup.alone_batchSize { st with
              ic := ic, inputs := newInputs ++ st.inputs, skipped := true }] at halone
            refine halone.trans ?_
            show (q.window cfg).setupLoop fails rest ⟨ic.inputs q.slot, _, _, _, _, _, _⟩ = _
            rw [hnil]
            rfl
          | shifted ic =>
            refine (hadd { st with
              batchSize := max st.batchSize (1 + inp.sameBatch), ic := ic } hremoved).trans ?_
            rw [Setup.alone_batchSize { st with ic := ic }]
            rfl
      · have hpending' : (st.alone q.slot).pendingInputs ≠ [] := hpending
        rw [if_pos hpending, if_pos hpending']
        exact congrArg some hsize
    · rw [if_neg hroom, if_neg (mt hnumCtx.mp hroom)]
      refine (hadd { st with batchSize := max st.batchSize (1 + inp.sameBatch) } hremoved).trans ?_
      rw [hsize]
      rfl

/-- What the loop does to the inputs of a sequence, beside others. -/
theorem setupLoop_taken {cfg : Config} {q : Seq} {backend : Option KvError} {st st' : Setup}
    (hremoved : st.removed = false) (hpending : st.pendingInputs = [])
    (h : setupLoop cfg q backend 0 st.inputs st = some st') :
    Window.Taken (q.window cfg) (st.ic.shiftFails (q.window cfg) q.slot backend)
      (st.alone q.slot) (st'.alone q.slot) := by
  have halone := @setupLoop_alone cfg q backend _ st.inputs 0 st hremoved fun _ _ => rfl
  rw [h] at halone
  exact Window.setupLoop_taken hpending halone.symm

/-- The variables of the loop over the sequences. -/
structure Build where
  ic : InputCache
  seqs : List (Option Seq)
  /-- the sequences in the batch -/
  taken : List (Option Nat)
  batch : List (Token × Item)
  resumeSeq : Option Nat
  spoiled : Bool

def startSetup (cfg : Config) (b : Build) (q : Seq) : Setup :=
  ⟨b.ic, q.inputs, q.pendingInputs, b.batch, cfg.batchSize, false, false, b.spoiled, false⟩

/-- What is left of a sequence after its loop. -/
def endSetup (b : Build) (i : Nat) (q : Seq) (st : Setup) : Build where
  ic := if st.removed = true then st.ic.modify q.slot fun s => { s with inUse := false } else st.ic
  seqs := b.seqs.set i
    (if st.removed = true then none
    else some { q with
      inputs := st.inputs.drop st.pendingInputs.length
      pendingInputs := st.pendingInputs })
  taken := if st.skipped = true ∨ st.removed = true then b.taken.set i none else b.taken
  batch := st.batch
  resumeSeq := b.resumeSeq.or (if st.stalled = true then some i else none)
  spoiled := st.spoiled

/-- One round of the loop over the sequences. -/
def buildSeq (cfg : Config) (backend : Option KvError) (b : Build) (i : Nat) : Option Build :=
  match b.seqs[i]? with
  | some (some q) =>
    (setupLoop cfg q backend 0 q.inputs (startSetup cfg b q)).map (endSetup b i q)
  | _ => some b

structure State where
  ic : InputCache
  seqs : List (Option Seq)
  nextSeq : Nat
  nextKey : Nat
  /-- the batch that was set up -/
  ready : Option (List (Option Nat))
  /-- the batch that is computed, and for which sequences a token is sampled -/
  computing : Option (List (Option Nat) × List Bool)
  /-- the input that was last written to a cell, or will be by the batch that is on its way -/
  data : Nat → Item

/-- The sequences in turn, `nextSeq` first. -/
def order (s : State) : List Nat :=
  (List.range s.seqs.length).map fun k => (s.nextSeq + k) % s.seqs.length

def startBuild (s : State) : Build :=
  ⟨s.ic, s.seqs, s.seqs.map fun o => o.map Seq.key, [], none, false⟩

def build (cfg : Config) (backend : Option KvError) (s : State) : Option Build :=
  (order s).foldlM (buildSeq cfg backend) (startBuild s)

/-- What the cells hold after a batch. -/
def written (data : Nat → Item) (items : List Item) (locs : List Nat) (j : Nat) : Item :=
  match (items.zip locs).find? fun e => e.2 == j with
  | some e => e.1
  | none => data j

/-- `forwardBatch`; `none` for an error, which ends the runner. -/
def forwardBatch (cfg : Config) (backend : Option KvError) (s : State) : Option State :=
  (build cfg backend s).bind fun b =>
    let s := { s with
      ic := b.ic
      seqs := b.seqs
      nextSeq := b.resumeSeq.getD ((s.nextSeq + s.seqs.length - 1) % s.seqs.length + 1) }
    if b.batch = [] then some s
    else
      let batch := b.batch.map Prod.fst
      -- the last loop of `updateSlidingWindow` visits nothing in a cache without a window
      match b.ic.cache.startForward batch (b.ic.cache.withBatch batch).lowestPos.keys false with
      | (_, some _) => none
      | (cache, none) =>
        some { s with
          ic := { b.ic with cache := cache }
          ready := some b.taken
          data := written s.data (b.batch.map Prod.snd) cache.curLoc }

/-! ## `computeBatch` -/

/-- The sequence is in the batch. -/
def inBatch (taken : List (Option Nat)) (i : Nat) (q : Seq) : Bool := taken[i]? == some (some q.key)

/-- The first section for one sequence, with the token that will be sampled for it. -/
def beginSeq (taken : List (Option Nat)) (token : Nat → Item) (i : Nat) (q : Seq) : Seq :=
  if inBatch taken i q = true then
    { q with pendingInputs := [], inputs := if q.inputs ≠ [] then q.inputs else [token i] }
  else q

/-- Change the slots of the sequences for which there is a change, one after the other. -/
def editSlots (edit : Nat → Seq → Option (Slot → Slot)) (seqs : List (Option Seq))
    (ic : InputCache) : InputCache :=
  seqs.zipIdx.foldl (fun ic e =>
    match e.1 with
    | some q => ((edit e.2 q).map (ic.modify q.slot)).getD ic
    | none => ic) ic

def commit (taken : List (Option Nat)) (i : Nat) (q : Seq) : Option (Slot → Slot) :=
  if inBatch taken i q = true then some fun s => { s with inputs := s.inputs ++ q.pendingInputs }
  else none

def samples (taken : List (Option Nat)) (i : Nat) : Option Seq → Bool
  | some q => inBatch taken i q && q.inputs.isEmpty
  | none => false

/-- The first section of `computeBatch`. -/
def beginCompute (taken : List (Option Nat)) (token : Nat → Item) (s : State) : State :=
  { s with
    ic := editSlots (commit taken) s.seqs s.ic
    seqs := s.seqs.mapIdx fun i o => o.map (beginSeq taken token i)
    ready := none
    computing := some (taken, s.seqs.mapIdx (samples taken)) }

/-- The second section ends the sequence and cuts its slot. -/
def ends (taken : List (Option Nat)) (sampled : List Bool) (outcome : Nat → Option Nat) (i : Nat)
    (q : Seq) : Option Nat :=
  if sampled[i]? = some true ∧ inBatch taken i q = true then outcome i else none

def cut (taken : List (Option Nat)) (sampled : List Bool) (outcome : Nat → Option Nat) (i : Nat)
    (q : Seq) : Option (Slot → Slot) :=
  (ends taken sampled outcome i q).map fun tokenLen s =>
    { s with inputs := s.inputs.take tokenLen, inUse := false }

/-- The second section of `computeBatch`; `outcome` is the length to which a slot is cut when its
sequence ends, which is all of it but at a stop string. -/
def endCompute (taken : List (Option Nat)) (sampled : List Bool) (outcome : Nat → Option Nat)
    (s : State) : State :=
  { s with
    ic := editSlots (cut taken sampled outcome) s.seqs s.ic
    seqs := s.seqs.mapIdx fun i o =>
      o.filter fun q => (ends taken sampled outcome i q).isNone
    computing := none }

/-! ## Runs -/

/-- A sequence as it is put to the others. -/
structure Request where
  prompt : List Item
  numKeep : Nat
  shift : Bool
  cachePrompt : Bool

/-- `completion` and `embeddings`, once `seqsSem` is acquired. -/
def addSequence (cfg : Config) (req : Request) (now now' : Int) (backend : Option KvError)
    (s : State) : Option State :=
  (s.seqs.findIdx? Option.isNone).bind fun i =>
    (s.ic.loadCacheSlot cfg req.prompt req.cachePrompt now now' backend).map fun r =>
      match r with
      | (ic, .error _) => { s with ic := ic }
      | (ic, .ok (slot, inputs)) =>
        { s with
          ic := ic
          seqs := s.seqs.set i (some ⟨s.nextKey, slot, inputs, [], req.numKeep, req.shift⟩)
          nextKey := s.nextKey + 1 }

inductive Action
  | request (req : Request) (now now' : Int) (backend : Option KvError)
  | forward (backend : Option KvError)
  | beginCompute (token : Nat → Item)
  | endCompute (outcome : Nat → Option Nat)

/-- A step; `none` when the server waits or panics. -/
def act (cfg : Config) (s : State) : Action → Option State
  | .request req now now' backend => addSequence cfg req now now' backend s
  | .forward backend =>
    if s.ready.isSome = true ∨ s.seqs.all Option.isNone = true then none
    else forwardBatch cfg backend s
  | .beginCompute token =>
    match s.ready, s.computing with
    | some taken, none => some (beginCompute taken token s)
    | _, _ => none
  | .endCompute outcome =>
    match s.computing with
    | some (taken, sampled) => some (endCompute taken sampled outcome s)
    | none => none

/-- `NewInputCache` for a causal cache without a window. -/
structure Starts (cfg : Config) (parallel cachePadding : Nat) (hasShift : Bool) (s : State) :
    Prop where
  slots : s.ic.slots = List.replicate parallel ⟨[], false, 0⟩
  cache : (newCausalCache cachePadding hasShift).init parallel cfg.numCtx.toNat cfg.batchSize =
    some s.ic.cache
  seqs : s.seqs = List.replicate parallel none
  ready : s.ready = none
  computing : s.computing = none
  numCtx_le : cfg.numCtx ≤ maxInt32
  batchSize_le : (cfg.batchSize : Int) ≤ cfg.numCtx

def sys (cfg : Config) (parallel cachePadding : Nat) (hasShift : Bool) : TSys State Action where
  init := Starts cfg parallel cachePadding hasShift
  step s a s' := act cfg s a = some s'

/-- No input is added for a sequence behind the emptying of its slot, and a batch without inputs is
not set up while another is computed: the next batch would not wait for that one. -/
def StepOk (cfg : Config) (s : State) : Action → Prop
  | .forward backend => ∀ b, build cfg backend s = some b →
      b.spoiled = false ∧ (b.batch = [] → s.computing = none)
  | _ => True

end Prismalama.Runner.Server
