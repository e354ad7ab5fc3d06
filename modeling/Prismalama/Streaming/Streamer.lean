import Prismalama.Lib.GoMap
import Prismalama.Lib.TSys

/-!
# Layer streaming (`ml/streaming/budget.go`, `prefetch.go`, `streamer.go`)

The streamer reads layers ahead of their use and keeps the bytes of the resident
ones under a budget. Each read is a goroutine of the prefetcher: it sends its
result and then removes its entry from `inflight`. A call of the streamer is a
list of instructions, and between any two of them the goroutines may take steps.

A goroutine is known by its layer: while the entry of a layer is in `inflight`
no other is started for it.
-/

namespace Prismalama.Streaming

open Prismalama.Lib

/-! ## Budget -/

inductive LayerState
  | evicted
  | loading
  | resident
deriving DecidableEq

structure LayerEntry where
  state : LayerState
  sizeBytes : Nat
  seqNo : Nat
deriving DecidableEq

/-- The number of values of a `uint64`. -/
def wrap64 : Nat := 18446744073709551616

structure BudgetTracker where
  budgetBytes : Nat
  usedBytes : Nat
  states : List LayerEntry
  /-- `budgetSeqNo` -/
  seqNo : Nat
deriving DecidableEq

namespace BudgetTracker

def setState (bt : BudgetTracker) (layerIdx : Nat) (f : LayerEntry → LayerEntry) : BudgetTracker :=
  { bt with states := bt.states.modify layerIdx f }

/-- `State` -/
def state (bt : BudgetTracker) (layerIdx : Nat) : LayerState :=
  match bt.states[layerIdx]? with
  | none => .evicted
  | some e => e.state

/-- `MarkLoading` -/
def markLoading (bt : BudgetTracker) (layerIdx : Nat) : BudgetTracker :=
  bt.setState layerIdx fun e => { e with state := .loading }

/-- `MarkResident`; `false` for an error. -/
def markResident (bt : BudgetTracker) (layerIdx : Nat) : BudgetTracker × Bool :=
  match bt.states[layerIdx]? with
  | none => (bt, false)
  | some e =>
    if e.state = .resident then
      ({ bt.setState layerIdx (fun e => { e with seqNo := bt.seqNo + 1 }) with
          seqNo := bt.seqNo + 1 }, true)
    else if bt.budgetBytes < e.sizeBytes then (bt, false)
    else
      ({ bt.setState layerIdx (fun e => { e with state := .resident, seqNo := bt.seqNo + 1 }) with
          usedBytes := (bt.usedBytes + e.sizeBytes) % wrap64
          seqNo := bt.seqNo + 1 }, true)

/-- `MarkEvicted` -/
def markEvicted (bt : BudgetTracker) (layerIdx : Nat) : BudgetTracker :=
  match bt.states[layerIdx]? with
  | none => bt
  | some e =>
    { bt.setState layerIdx (fun e => { e with state := .evicted }) with
        usedBytes :=
          if e.state = .resident then (bt.usedBytes + wrap64 - e.sizeBytes) % wrap64
          else bt.usedBytes }

/-- The candidates that are evicted until `deficit` bytes are freed. -/
def takeUntilFreed (deficit : Nat) : Nat → List (Nat × LayerEntry) → List Nat
  | _, [] => []
  | freed, c :: cands =>
    if deficit ≤ freed then []
    else c.1 :: takeUntilFreed deficit ((freed + c.2.sizeBytes) % wrap64) cands

/-- `NeedEvict`, with one protected layer. -/
def needEvict (bt : BudgetTracker) (wantBytes protect : Nat) : List Nat :=
  let avail := (bt.budgetBytes + wrap64 - bt.usedBytes) % wrap64
  if wantBytes ≤ avail then []
  else
    let cands := (bt.states.zipIdx.map fun e => (e.2, e.1)).filter fun c =>
      decide (c.2.state = .resident) && decide (c.1 ≠ protect)
    takeUntilFreed (wantBytes - avail) 0
      (cands.insertionSort fun c d => c.2.seqNo ≤ d.2.seqNo)

end BudgetTracker

/-! ## Streamer -/

structure StreamerConfig (τ : Type*) where
  /-- The sizes of the layers. -/
  layers : List Nat
  budgetBytes : Nat
  prefetchAhead : Nat
  /-- What the file has for a layer. -/
  tensors : Nat → τ
  /-- Sizes and budget are `uint64`. -/
  budgetBytes_lt : budgetBytes < wrap64
  layers_lt : ∀ size ∈ layers, size < wrap64

structure PrefetchResult (τ : Type*) where
  layerIndex : Nat
  /-- `none` for an error. -/
  tensors : Option τ

/-- Why a call returned an error. -/
inductive StreamError
  /-- `layer %d out of range` -/
  | outOfRange
  /-- `failed to start prefetch for layer %d` -/
  | notStarted
  /-- `prefetch layer %d`: the read failed. -/
  | prefetch
  /-- `layer %d (%d bytes) exceeds total budget (%d bytes)` -/
  | exceedsBudget
  /-- `ctx.Err()` -/
  | cancelled
  /-- `compute layer %d`: the callback failed. -/
  | compute
deriving DecidableEq

/-- How far a goroutine is. -/
inductive Fetching
  | reading
  | sent
deriving DecidableEq

inductive Instr
  /-- `kickPrefetch` of the layer to prepare. -/
  | kick (layerIdx : Nat)
  /-- `waitForLayer`, up to the select. -/
  | wait (layerIdx : Nat)
  /-- The select of `waitForLayer`. -/
  | receive (layerIdx : Nat)
  /-- `kickPrefetch` of a layer ahead of the prepared one. -/
  | ahead (layerIdx next : Nat)
  /-- `Prepare` returns without an error. -/
  | prepared (layerIdx : Nat)
  /-- The callback of `RunAllLayers`. -/
  | compute (layerIdx : Nat)
  | release (layerIdx : Nat)
deriving DecidableEq

structure Streamer (τ : Type*) where
  budget : BudgetTracker
  residentData : GoMap Nat τ
  /-- The channels: `none` while nothing has been sent. -/
  pending : GoMap Nat (Option (PrefetchResult τ))
  inflight : GoMap Nat Fetching
  /-- What the current call still does. -/
  todo : List Instr
  /-- The error of the last call. -/
  error : Option StreamError
  /-- The last call was `RunAllLayers`. -/
  running : Bool
  /-- How often a layer was fetched, and its result consumed. -/
  fetched : Nat → Nat
  consumed : Nat → Nat

namespace Streamer

variable {τ : Type*} (cfg : StreamerConfig τ)

/-- `NewStreamer` -/
def newStreamer : Streamer τ where
  budget := ⟨cfg.budgetBytes, 0, cfg.layers.map fun size => ⟨.evicted, size, 0⟩, 0⟩
  residentData := ∅
  pending := ∅
  inflight := ∅
  todo := []
  error := none
  running := false
  fetched := fun _ => 0
  consumed := fun _ => 0

/-- `Release` -/
def releaseLayer (s : Streamer τ) (layerIdx : Nat) : Streamer τ :=
  { s with
    residentData := s.residentData.erase layerIdx
    budget := s.budget.markEvicted layerIdx }

/-- `evictIfNeeded` -/
def evictIfNeeded (s : Streamer τ) (layerIdx : Nat) : Streamer τ :=
  (s.budget.needEvict (cfg.layers.getD layerIdx 0) layerIdx).foldl releaseLayer s

/-- `Fetch`, and the channel it returns put into `pending`. -/
def fetch (s : Streamer τ) (layerIdx : Nat) : Streamer τ :=
  if (s.inflight.lookup layerIdx).isSome then s
  else
    { s with
      inflight := s.inflight.insert layerIdx .reading
      pending := s.pending.insert layerIdx none
      fetched := Function.update s.fetched layerIdx (s.fetched layerIdx + 1) }

/-- The layer is there or on its way. -/
def Known (s : Streamer τ) (layerIdx : Nat) : Prop :=
  (s.residentData.lookup layerIdx).isSome = true ∨ (s.pending.lookup layerIdx).isSome = true

instance (s : Streamer τ) (layerIdx : Nat) : Decidable (s.Known layerIdx) :=
  inferInstanceAs (Decidable ((s.residentData.lookup layerIdx).isSome = true ∨
    (s.pending.lookup layerIdx).isSome = true))

/-- `MarkLoading` -/
def startLoading (s : Streamer τ) (layerIdx : Nat) : Streamer τ :=
  { s with budget := s.budget.markLoading layerIdx }

/-- `kickPrefetch` -/
def kickPrefetch (s : Streamer τ) (layerIdx : Nat) : Streamer τ :=
  if s.Known layerIdx then s
  else fetch (startLoading (evictIfNeeded cfg s layerIdx) layerIdx) layerIdx

/-- The call returns an error. -/
def fail (s : Streamer τ) (e : StreamError) : Streamer τ := { s with todo := [], error := some e }

/-- The result of a layer is taken from its channel. -/
def consume (s : Streamer τ) (layerIdx : Nat) : Streamer τ :=
  { s with
    pending := s.pending.erase layerIdx
    consumed := Function.update s.consumed layerIdx (s.consumed layerIdx + 1) }

/-- `waitForLayer` after a result was received. -/
def accept (s : Streamer τ) (layerIdx : Nat) (result : PrefetchResult τ) : Streamer τ :=
  match result.tensors with
  | none => { s with budget := s.budget.markEvicted layerIdx }.fail .prefetch
  | some tensors =>
    let marked := s.budget.markResident layerIdx
    let s := { s with residentData := s.residentData.insert layerIdx tensors, budget := marked.1 }
    if marked.2 then s else s.fail .exceedsBudget

/-- One instruction. -/
def exec (s : Streamer τ) : Instr → Streamer τ
  | .kick layerIdx => kickPrefetch cfg s layerIdx
  | .wait layerIdx =>
    if (s.residentData.lookup layerIdx).isSome then s
    else if (s.pending.lookup layerIdx).isSome then { s with todo := .receive layerIdx :: s.todo }
    else { s with todo := .kick layerIdx :: .receive layerIdx :: s.todo }
  | .receive layerIdx =>
    match s.pending.lookup layerIdx with
    | none => s.fail .notStarted
    | some none => s
    | some (some result) => accept (s.consume layerIdx) layerIdx result
  | .ahead _ next => kickPrefetch cfg s next
  | .prepared _ => s
  | .compute _ => s
  | .release layerIdx => s.releaseLayer layerIdx

/-! ## Calls -/

/-- `Prepare` of a layer. -/
def prepare (layerIdx : Nat) : List Instr :=
  .kick layerIdx :: .wait layerIdx ::
    (((List.range cfg.prefetchAhead).map fun i => layerIdx + (i + 1)).filter
      (· < cfg.layers.length)).map (Instr.ahead layerIdx) ++ [.prepared layerIdx]

/-- One round of `RunAllLayers`. -/
def runLayer (i : Nat) : List Instr :=
  prepare cfg i ++ .compute i ::
    (if cfg.prefetchAhead ≤ i then [.release (i - cfg.prefetchAhead)] else [])

/-- `RunAllLayers` -/
def runAllLayers : List Instr :=
  (List.range cfg.layers.length).flatMap (runLayer cfg) ++
    ((List.range cfg.layers.length).filter fun i =>
      decide (cfg.layers.length ≤ i + cfg.prefetchAhead)).map .release

inductive Label
  | prepare (layerIdx : Int)
  | release (layerIdx : Int)
  | runAllLayers
  /-- The next instruction. -/
  | next
  /-- The select takes `ctx.Done()`. -/
  | cancelled
  /-- The callback of `RunAllLayers` returns an error. -/
  | callbackFails
  /-- The goroutine of a layer sends its result; `false` for an error. -/
  | send (layerIdx : Nat) (ok : Bool)
  /-- The goroutine of a layer removes its entry and ends. -/
  | remove (layerIdx : Nat)

/-- A new call. -/
def call (s : Streamer τ) (todo : List Instr) (running : Bool) : Streamer τ :=
  { s with todo := todo, error := none, running := running }

def apply (s : Streamer τ) : Label → Streamer τ
  | .prepare layerIdx =>
    if 0 ≤ layerIdx ∧ layerIdx < cfg.layers.length then
      s.call (prepare cfg layerIdx.toNat) false
    else (s.call [] false).fail .outOfRange
  | .release layerIdx =>
    s.call (if 0 ≤ layerIdx then [.release layerIdx.toNat] else []) false
  | .runAllLayers => s.call (runAllLayers cfg) true
  | .next =>
    match s.todo with
    | [] => s
    | instr :: todo => exec cfg { s with todo := todo } instr
  | .cancelled => s.fail .cancelled
  | .callbackFails => s.fail .compute
  | .send layerIdx ok =>
    { s with
      inflight := s.inflight.insert layerIdx .sent
      pending := s.pending.insert layerIdx
        (some ⟨layerIdx, if ok then some (cfg.tensors layerIdx) else none⟩) }
  | .remove layerIdx => { s with inflight := s.inflight.erase layerIdx }

/-- The next instruction waits for a result that has not been sent. -/
def blocked (s : Streamer τ) : Bool :=
  match s.todo with
  | .receive layerIdx :: _ =>
    match s.pending.lookup layerIdx with
    | some none => true
    | _ => false
  | _ => false

/-- The next instruction is a select on a channel. -/
def selecting (s : Streamer τ) : Bool :=
  match s.todo with
  | .receive layerIdx :: _ => (s.pending.lookup layerIdx).isSome
  | _ => false

/-- The next instruction is the callback. -/
def computing (s : Streamer τ) : Bool :=
  match s.todo with
  | .compute _ :: _ => true
  | _ => false

/-- When a step can be taken: calls one after the other, a receive when there is
a result or no channel, the steps of a goroutine in turn. -/
def Enabled (s : Streamer τ) : Label → Prop
  | .prepare _ | .release _ | .runAllLayers => s.todo = []
  | .next => s.todo ≠ [] ∧ s.blocked = false
  | .cancelled => s.selecting = true
  | .callbackFails => s.computing = true
  | .send layerIdx _ => s.inflight.lookup layerIdx = some .reading
  | .remove layerIdx => s.inflight.lookup layerIdx = some .sent

instance (s : Streamer τ) : (a : Label) → Decidable (s.Enabled a)
  | .prepare _ => inferInstanceAs (Decidable (s.todo = []))
  | .release _ => inferInstanceAs (Decidable (s.todo = []))
  | .runAllLayers => inferInstanceAs (Decidable (s.todo = []))
  | .next => inferInstanceAs (Decidable (s.todo ≠ [] ∧ s.blocked = false))
  | .cancelled => inferInstanceAs (Decidable (s.selecting = true))
  | .callbackFails => inferInstanceAs (Decidable (s.computing = true))
  | .send layerIdx _ => inferInstanceAs (Decidable (s.inflight.lookup layerIdx = some .reading))
  | .remove layerIdx => inferInstanceAs (Decidable (s.inflight.lookup layerIdx = some .sent))

/-- All runs of a streamer. -/
def sys : TSys (Streamer τ) Label := TSys.ofFn (· = newStreamer cfg) Enabled (apply cfg)

end Streamer

end Prismalama.Streaming
