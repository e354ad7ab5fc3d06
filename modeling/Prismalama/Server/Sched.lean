import Mathlib
import Prismalama.Lib.GoMap
import Prismalama.Lib.GoStrings
import Prismalama.Lib.TSys

/-!
# The scheduler (`server/sched.go`)

Two loops and the goroutines of the requests share the runners. A step is what
one of them does while it holds a lock, or between two blocking operations, so
that a run is any interleaving. What decides whether a runner is reused, fits or
has to make room is left open: the labels carry the answers.

A request carries the place of the goroutine that serves it. The channels of
requests are not kept in order: any request that was sent may be received.

`maxQueue` is the capacity of `pendingReqCh`. With 0 the channel is unbuffered and
a request gets through while the loop waits for one; the model turns all of them
away then.
-/

namespace Prismalama.Server

open Prismalama.Lib

/-- What `schedulerModelKey` returns. -/
abbrev Key := GoString

/-- A runner is known by its place in the list of those that were ever created. -/
abbrev RunnerId := Nat

abbrev RequestId := Nat

structure RunnerRef where
  modelKey : Key
  pid : Int
  /-- A `uint`. -/
  refCount : Nat
  sessionDuration : Int
  /-- `expireTimer` is not nil. -/
  expireTimer : Bool
  /-- The timer was neither stopped nor has it fired. -/
  armed : Bool
  /-- The request whose load holds `refMu`. -/
  loader : Option RequestId
  /-- `unload` was called. -/
  unloaded : Bool
deriving DecidableEq

/-- Where a request is. -/
inductive Phase
  -- in `getRunner`
  | lookup
  | check (r : RunnerId)
  | use (r : RunnerId)
  | enqueue
  -- in `processPending`
  | queued
  | schedule
  | scheduleCheck (r : RunnerId)
  | scheduleUse (r : RunnerId)
  | findRunner
  | load (first : Bool)
  | expire (r : RunnerId)
  | waitUnload
  | evictAll (todo : List RunnerId) (n : Nat)
  | waitAll (n : Nat)
  -- in the goroutine that `load` starts
  | loading (r : RunnerId)
  -- delivered, and then in `processCompleted`
  | delivered (r : RunnerId)
  | notified (r : RunnerId)
  | finishing (r : RunnerId)
  | finished
  | failed
deriving DecidableEq

structure LlmRequest where
  model : Key
  sessionDuration : Option Int
  oomRetryAttempted : Bool
  /-- The context is done. -/
  done : Bool
  phase : Phase
  /-- The runner that was sent on `successCh`. -/
  successCh : Option RunnerId
  /-- The runners whose count went down when the request had finished. -/
  settled : List RunnerId
deriving DecidableEq

/-- Where `processCompleted` is. -/
inductive CompletedLoop
  | select
  | finish (q : RequestId)
  | expire (r : RunnerId)
  | unloaded
deriving DecidableEq

structure State where
  runners : List RunnerRef
  loaded : GoMap Key RunnerId
  requests : List LlmRequest
  /-- The request that `processPending` is at. -/
  pending : Option RequestId
  completed : CompletedLoop
  expiredCh : List RunnerId
  /-- The number of events in it. -/
  unloadedCh : Nat
  /-- Timers that fired, before they have the lock. -/
  fired : List RunnerId
  /-- Expired events that are sent again after a while. -/
  retries : List RunnerId
  /-- Calls of `expireRunner` and its like, before they have the lock. -/
  expirers : List RunnerId

inductive LoadOutcome
  | failed
  | evict (oom : Bool)
  | started (pid : Int) (keepAlive : Int)
deriving DecidableEq

inductive Label
  | getRunner (model : Key) (sessionDuration : Option Int)
  | caller (q : RequestId) (needsReload : Bool)
  | receive (q : RequestId)
  | schedule (needsReload full : Bool)
  | findRunner (r : Option RunnerId)
  | load (o : LoadOutcome)
  | evict (i : Nat)
  | recvUnloaded
  | loaded (q : RequestId) (pid : Option Int)
  | cancel (q : RequestId)
  | notify (q : RequestId)
  | recvFinished (q : RequestId)
  | recvExpired
  | complete
  | fire (r : RunnerId)
  | callback (i : Nat)
  | retry (i : Nat)
  | expireRunner (model : Key)
  | expireCaller (i : Nat)
deriving DecidableEq

namespace State

/-- A runner whose lock is free. -/
def lock (s : State) (r : RunnerId) : Option RunnerRef :=
  (s.runners[r]?).filter fun x => x.loader.isNone

def setRunner (s : State) (r : RunnerId) (x : RunnerRef) : State :=
  { s with runners := s.runners.set r x }

def setRequest (s : State) (q : RequestId) (y : LlmRequest) : State :=
  { s with requests := s.requests.set q y }

end State

/-- `Stop` and nil. -/
def RunnerRef.stopTimer (x : RunnerRef) : RunnerRef := { x with expireTimer := false, armed := false }

/-- `unload` -/
def RunnerRef.unload (x : RunnerRef) : RunnerRef := { x.stopTimer with unloaded := true }

/-- `runner.refCount--` on a `uint`. -/
def decr (n : Nat) : Nat := if n = 0 then 18446744073709551615 else n - 1

/-- The critical section in which a runner is told to go, with its lock held. -/
def expireNow (s : State) (r : RunnerId) (x : RunnerRef) : State :=
  { s.setRunner r { x.stopTimer with sessionDuration := 0 } with
    expiredCh := if x.refCount = 0 then s.expiredCh ++ [r] else s.expiredCh }

/-- A runner that one more request uses. -/
def RunnerRef.use (x : RunnerRef) (y : LlmRequest) : RunnerRef :=
  { x.stopTimer with
    refCount := x.refCount + 1
    sessionDuration := y.sessionDuration.getD x.sessionDuration }

/-- A request that was sent its runner. -/
def LlmRequest.deliver (y : LlmRequest) (r : RunnerId) : LlmRequest :=
  { y with phase := .delivered r, successCh := some r }

/-- `useLoadedRunner`, with the lock of the runner held. -/
def useLoadedRunner (s : State) (q : RequestId) (y : LlmRequest) (r : RunnerId) (x : RunnerRef) :
    State :=
  (s.setRunner r (x.use y)).setRequest q (y.deliver r)

/-- `getRunner` -/
def stepCaller (maxQueue : Nat) (s : State) (q : RequestId) (y : LlmRequest) (needsReload : Bool) :
    Option State :=
  match y.phase with
  | .lookup =>
    match AList.lookup y.model s.loaded with
    | none => some (s.setRequest q { y with phase := .enqueue })
    | some r => some (s.setRequest q { y with phase := .check r })
  | .check r =>
    (s.lock r).map fun x =>
      -- an unloaded runner has no options
      if (x.unloaded || needsReload) = true then s.setRequest q { y with phase := .enqueue }
      else s.setRequest q { y with phase := .use r }
  | .use r => (s.lock r).map fun x => useLoadedRunner s q y r x
  | .enqueue =>
    if s.requests.countP (fun y => y.phase == .queued) < maxQueue then
      some (s.setRequest q { y with phase := .queued })
    else some (s.setRequest q { y with phase := .failed })
  | _ => none

/-- `processPending`, up to a load. -/
def stepSchedule (s : State) (q : RequestId) (y : LlmRequest) (needsReload full : Bool) :
    Option State :=
  match y.phase with
  | .schedule =>
    match AList.lookup y.model s.loaded with
    | some r => some (s.setRequest q { y with phase := .scheduleCheck r })
    | none =>
      if full = true ∧ s.loaded.keys ≠ [] then
        some (s.setRequest q { y with phase := .findRunner })
      else some (s.setRequest q { y with phase := .load s.loaded.keys.isEmpty })
  | .scheduleCheck r =>
    (s.lock r).map fun x =>
      if (x.unloaded || needsReload) = true then s.setRequest q { y with phase := .expire r }
      else s.setRequest q { y with phase := .scheduleUse r }
  | .scheduleUse r =>
    (s.lock r).map fun x => { useLoadedRunner s q y r x with pending := none }
  | .expire r =>
    (s.lock r).map fun x => (expireNow s r x).setRequest q { y with phase := .waitUnload }
  | _ => none

/-- `findRunnerToUnload`, whichever it is. -/
def stepFindRunner (s : State) (q : RequestId) (y : LlmRequest) (r : Option RunnerId) :
    Option State :=
  match y.phase, r with
  | .findRunner, none =>
    if s.loaded.keys = [] then some (s.setRequest q { y with phase := .schedule }) else none
  | .findRunner, some r =>
    if s.loaded.keys.any (fun k => AList.lookup k s.loaded == some r) = true then
      some (s.setRequest q { y with phase := .expire r })
    else none
  | _, _ => none

/-- The part of `load` after the server was started: the new runner takes the place
of one that is still there. -/
def addRunner (s : State) (q : RequestId) (y : LlmRequest) (pid keepAlive : Int) : State :=
  let runner : RunnerRef := {
    modelKey := y.model
    pid := pid
    refCount := 0
    sessionDuration := y.sessionDuration.getD keepAlive
    expireTimer := false
    armed := false
    loader := some q
    unloaded := false }
  let old : List RunnerRef :=
    match AList.lookup y.model s.loaded with
    | none => s.runners
    | some r => s.runners.modify r RunnerRef.unload
  { s with
    runners := old ++ [runner]
    loaded := AList.insert y.model s.runners.length s.loaded
    requests := s.requests.set q { y with phase := .loading s.runners.length }
    pending := none }

/-- `load` -/
def stepLoad (s : State) (q : RequestId) (y : LlmRequest) : LoadOutcome → Option State
  | .failed =>
    match y.phase with
    | .load _ => some { s.setRequest q { y with phase := .failed } with pending := none }
    | _ => none
  | .evict oom =>
    match y.phase with
    | .load first =>
      let y' := { y with oomRetryAttempted := y.oomRetryAttempted || oom }
      if first = true then some (s.setRequest q { y' with phase := .schedule })
      else if y'.oomRetryAttempted = true then
        let todo := (s.loaded.keys.filter (· ≠ y.model)).filterMap fun k => AList.lookup k s.loaded
        some (s.setRequest q { y' with phase := .evictAll todo todo.length })
      else some (s.setRequest q { y' with phase := .findRunner })
    | _ => none
  | .started pid keepAlive =>
    match y.phase with
    | .load _ =>
      -- the lock of a runner that is still there
      if ∀ r ∈ AList.lookup y.model s.loaded, (s.lock r).isSome = true then
        some (addRunner s q y pid keepAlive)
      else none
    | _ => none

/-- `evictAllAndWait`: the runners are told to go, in any order. -/
def stepEvict (s : State) (q : RequestId) (y : LlmRequest) (i : Nat) : Option State :=
  match y.phase with
  | .evictAll todo n =>
    match todo[i]? with
    | some r =>
      (s.lock r).map fun x =>
        (expireNow s r x).setRequest q { y with phase := .evictAll (todo.eraseIdx i) n }
    | none =>
      if todo = [] then some (s.setRequest q { y with phase := .waitAll n }) else none
  | .waitAll 0 => some (s.setRequest q { y with phase := .schedule })
  | _ => none

/-- An event from `unloadedCh`. -/
def stepUnloaded (s : State) : Option State :=
  match s.unloadedCh with
  | 0 => none
  | n + 1 =>
    match s.pending with
    | none => some { s with unloadedCh := n }
    | some q =>
      (s.requests[q]?).bind fun y =>
        match y.phase with
        | .waitUnload => some { s.setRequest q { y with phase := .schedule } with unloadedCh := n }
        | .waitAll (k + 1) => some { s.setRequest q { y with phase := .waitAll k } with unloadedCh := n }
        | _ => none

/-- The goroutine of `load`: the server runs, with its process, or it does not. -/
def stepLoaded (s : State) (q : RequestId) (y : LlmRequest) (pid : Option Int) : Option State :=
  match y.phase with
  | .loading r =>
    (s.runners[r]?).map fun x =>
      match pid with
      | none =>
        { (s.setRunner r { x with loader := none }).setRequest q { y with phase := .failed } with
          expiredCh := s.expiredCh ++ [r] }
      | some pid =>
        (s.setRunner r { x with
          pid := if x.pid < 0 then pid else x.pid
          refCount := x.refCount + 1
          loader := none }).setRequest q (y.deliver r)
  | _ => none

/-- The end of a request, for the runner that was found under its key. -/
def finish (s : State) (q : RequestId) (y : LlmRequest) (r : RunnerId) (x : RunnerRef) : State :=
  let n := decr x.refCount
  let s' := { s.setRequest q { y with phase := .finished, settled := y.settled ++ [r] } with
    completed := .select }
  if n = 0 then
    if x.sessionDuration ≤ 0 then
      { s'.setRunner r { x.stopTimer with refCount := n } with expiredCh := s.expiredCh ++ [r] }
    -- a new timer or the old one, set again
    else s'.setRunner r { x with refCount := n, expireTimer := true, armed := true }
  else s'.setRunner r { x with refCount := n }

/-- An expired event, with the lock of its runner held. -/
def expired (s : State) (r : RunnerId) (x : RunnerRef) : State :=
  if 0 < x.refCount then { s with completed := .select, retries := s.retries ++ [r] }
  else
    match (AList.lookup x.modelKey s.loaded).bind fun r' => s.runners[r']? with
    | none => { s with completed := .select }
    | some x' =>
      if x.pid ≠ x'.pid then { s.setRunner r x.unload with completed := .select }
      else
        { s.setRunner r x.unload with
          loaded := AList.erase x.modelKey s.loaded
          completed := .unloaded }

/-- `processCompleted`, after it has received something. -/
def stepComplete (s : State) : Option State :=
  match s.completed with
  | .select => none
  | .finish q =>
    (s.requests[q]?).bind fun y =>
      match y.phase with
      | .finishing r => (s.lock r).map fun x => finish s q y r x
      | _ => none
  | .expire r => (s.lock r).map fun x => expired s r x
  | .unloaded => some { s with completed := .select, unloadedCh := s.unloadedCh + 1 }

/-- A finished request: the runner is looked up by the key of the model. -/
def stepRecvFinished (s : State) (q : RequestId) (y : LlmRequest) : Option State :=
  match s.completed, y.phase with
  | .select, .notified _ =>
    match AList.lookup y.model s.loaded with
    | none => some (s.setRequest q { y with phase := .finished })
    | some r => some { s.setRequest q { y with phase := .finishing r } with completed := .finish q }
  | _, _ => none

def step (maxQueue : Nat) (s : State) : Label → Option State
  | .getRunner model sessionDuration =>
    some { s with requests := s.requests ++ [{
      model := model
      sessionDuration := sessionDuration
      oomRetryAttempted := false
      done := false
      phase := .lookup
      successCh := none
      settled := [] }] }
  | .caller q needsReload => (s.requests[q]?).bind fun y => stepCaller maxQueue s q y needsReload
  | .receive q =>
    (s.requests[q]?).bind fun y =>
      if s.pending = none ∧ y.phase = .queued then
        if y.done = true then some (s.setRequest q { y with phase := .failed })
        else some { s.setRequest q { y with phase := .schedule } with pending := some q }
      else none
  | .schedule needsReload full =>
    s.pending.bind fun q => (s.requests[q]?).bind fun y => stepSchedule s q y needsReload full
  | .findRunner r =>
    s.pending.bind fun q => (s.requests[q]?).bind fun y => stepFindRunner s q y r
  | .load o => s.pending.bind fun q => (s.requests[q]?).bind fun y => stepLoad s q y o
  | .evict i => s.pending.bind fun q => (s.requests[q]?).bind fun y => stepEvict s q y i
  | .recvUnloaded => stepUnloaded s
  | .loaded q pid => (s.requests[q]?).bind fun y => stepLoaded s q y pid
  | .cancel q => (s.requests[q]?).map fun y => s.setRequest q { y with done := true }
  | .notify q =>
    (s.requests[q]?).bind fun y =>
      match y.phase with
      | .delivered r =>
        if y.done = true then some (s.setRequest q { y with phase := .notified r }) else none
      | _ => none
  | .recvFinished q => (s.requests[q]?).bind fun y => stepRecvFinished s q y
  | .recvExpired =>
    match s.completed, s.expiredCh with
    | .select, r :: rest => some { s with completed := .expire r, expiredCh := rest }
    | _, _ => none
  | .complete => stepComplete s
  | .fire r =>
    (s.runners[r]?).bind fun x =>
      if x.armed = true then
        some { s.setRunner r { x with armed := false } with fired := s.fired ++ [r] }
      else none
  | .callback i =>
    (s.fired[i]?).bind fun r => (s.lock r).map fun x =>
      { s.setRunner r x.stopTimer with
        fired := s.fired.eraseIdx i
        expiredCh := s.expiredCh ++ [r] }
  | .retry i =>
    (s.retries[i]?).map fun r =>
      { s with retries := s.retries.eraseIdx i, expiredCh := s.expiredCh ++ [r] }
  | .expireRunner model =>
    (AList.lookup model s.loaded).map fun r => { s with expirers := s.expirers ++ [r] }
  | .expireCaller i =>
    (s.expirers[i]?).bind fun r => (s.lock r).map fun x =>
      { expireNow s r x with expirers := s.expirers.eraseIdx i }

/-- `InitScheduler` -/
def initial : State := ⟨[], ∅, [], none, .select, [], 0, [], [], []⟩

def system (maxQueue : Nat) : TSys State Label where
  init s := s = initial
  step s a s' := step maxQueue s a = some s'

end Prismalama.Server
