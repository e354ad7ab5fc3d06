import Prismalama.Mlxrunner.Cache

/-!
# Decoding with and without drafts (`x/mlxrunner/mtp.go`, `pipeline.go`)

The greedy decode loop of `TextGenerationPipeline`, and the loop that lets a draft model
propose tokens and keeps those that the target model would have chosen.

The target is what it computes from the caches: a hidden state for each query, and the
greedy token of its logits. `ctx` says which of the looks at the context, in the order
of time, finds it cancelled. `none` is a panic, or the end of the fuel of the loop.
-/

namespace Prismalama.Mlxrunner

universe u

/-- What the loops call: `T` are tokens, `H` hidden states, `D` states of the decoder
and `R` responses. -/
structure Runner (T H D R : Type u) where
  /-- `Model.Forward`: the hidden state of each query, from the caches before it. -/
  forward : List (Cache T) → Nat → List T → Nat → H
  /-- The greedy token of `Model.Unembed`. -/
  unembed : H → T
  /-- A step of the draft model: the next draft, and the projected hidden state. -/
  draft : T → H → Nat → List (Cache T) → T × H
  isEOS : T → Bool
  /-- `decoder.decode` -/
  decode : D → T → D × Option R
  ctx : Nat → Bool
  numPredict : Nat

inductive MtpDraftSchedule
  | heuristic
  | constant
  deriving DecidableEq

structure MtpOptions where
  initialDraftTokens : Nat
  maxDraftTokens : Nat
  draftSchedule : MtpDraftSchedule
  serialValidate : Bool

/-- The variables of a decode loop, its session and the final response. -/
structure Decoding (T D R : Type u) where
  caches : List (Cache T)
  position : Nat
  outputs : List T
  generated : Nat
  doneReason : Nat
  dec : D
  responses : List R
  clock : Nat

/-- What a decode loop leaves behind; `final` is the final response, `DoneReason` and
`EvalCount`, unless the context was cancelled. -/
structure Decoded (T D R : Type u) where
  state : Decoding T D R
  final : Option (Nat × Nat)

namespace Cache

variable {α : Type*} [Inhabited α]

/-- The `Close` calls of a loop over snapshots. -/
def closeAll (c : Cache α) (snaps : List (Option Nat)) : Cache α :=
  snaps.foldl (fun c s => s.elim c c.close) c

/-- The loop body of `commitSpeculation`; `none` when it panics. -/
def commitSpeculation (c : Cache α) (accepted draftCount before : Nat) : Option (Cache α) :=
  let out := c.takeSnapshots
  let target := before + accepted
  if accepted < draftCount then
    -- the snapshots that are not restored from are closed first
    let snap := out.2[accepted]?.join
    let c := out.1.closeAll (out.2.set accepted none)
    let rewound := c.restore none target
    let restored := if rewound.2 then rewound else rewound.1.restore snap target
    if restored.2 then some (restored.1.closeAll [snap]) else none
  else some (out.1.closeAll out.2)

end Cache

namespace Runner

variable {T H D R : Type u} [Inhabited T] [DecidableEq T] (r : Runner T H D R)

/-- `targetForward` -/
def targetForward (s : Decoding T D R) (tokens : List T) : Decoding T D R × (Nat → H) :=
  ({ s with
      caches := s.caches.map fun c => c.update tokens
      position := s.position + tokens.length },
    r.forward s.caches s.position tokens)

/-- The greedy token of `lastLogits`. -/
def lastToken (hidden : Nat → H) (tokens : List T) : T := r.unembed (hidden (tokens.length - 1))

/-- `ctx.Err()`, or the choice between `ctx.Done()` and a send. -/
def cancelled (s : Decoding T D R) : Decoding T D R × Bool :=
  ({ s with clock := s.clock + 1 }, r.ctx s.clock)

/-- Decode a token and send the response; whether the context was cancelled. -/
def send (s : Decoding T D R) (id : T) : Decoding T D R × Bool :=
  let out := r.decode s.dec id
  let s := { s with dec := out.1 }
  match out.2 with
  | none => (s, false)
  | some resp =>
    let c := r.cancelled s
    if c.2 then (c.1, true) else ({ c.1 with responses := c.1.responses ++ [resp] }, false)

/-- The final response is sent. -/
def finish (s : Decoding T D R) (evalCount : Nat) : Decoded T D R :=
  let c := r.cancelled s
  ⟨c.1, if c.2 then none else some (c.1.doneReason, evalCount)⟩

/-! ## The plain loop -/

/-- The loop of `TextGenerationPipeline`, with the number of tokens still to come. -/
def decodeLoop (evalCount : Nat) : Nat → T → Decoding T D R → Decoded T D R
  | 0, _, s => r.finish s evalCount
  | n + 1, sample, s =>
    let c := r.cancelled s
    if c.2 then ⟨c.1, none⟩
    else
      let step := r.targetForward c.1 [sample]
      let s := { step.1 with outputs := step.1.outputs ++ [sample] }
      if r.isEOS sample then r.finish { s with doneReason := 0 } s.generated
      else
        let sent := r.send s sample
        if sent.2 then ⟨sent.1, none⟩
        else
          decodeLoop evalCount n (r.lastToken step.2 [sample])
            { sent.1 with generated := sent.1.generated + 1 }

/-- `TextGenerationPipeline` behind the prefill, when it does not draft. -/
def textGenerationPipeline (s : Decoding T D R) (seed : List T) : Decoded T D R :=
  let step := r.targetForward s seed
  r.decodeLoop r.numPredict r.numPredict (r.lastToken step.2 seed)
    { step.1 with doneReason := 1, generated := 0 }

/-! ## Drafts -/

/-- `generateMTPDrafts` -/
def generateMTPDrafts (caches : List (Cache T)) (position : Nat) : Nat → T → H → List T
  | 0, _, _ => []
  | n + 1, token, hidden =>
    let next := r.draft token hidden position caches
    next.1 :: generateMTPDrafts caches position n next.1 next.2

/-- The first loop of `emitTokens`: what is streamed, and whether an end was met. -/
def record : List T → Decoding T D R → Decoding T D R × List T × Bool
  | [], s => (s, [], false)
  | id :: rest, s =>
    let s := { s with outputs := s.outputs ++ [id] }
    if r.isEOS id then ({ s with doneReason := 0 }, [], true)
    else
      let out := record rest { s with generated := s.generated + 1 }
      (out.1, id :: out.2.1, out.2.2)

/-- The second loop of `emitTokens`. -/
def stream : List T → Decoding T D R → Decoding T D R × Bool
  | [], s => (s, false)
  | id :: rest, s =>
    let sent := r.send s id
    if sent.2 then sent else stream rest sent.1

/-- What `emitTokens` returns. -/
structure Emitted (T D R : Type u) where
  state : Decoding T D R
  done : Bool
  err : Bool

/-- `emitTokens` -/
def emitTokens (s : Decoding T D R) (results : List T) : Emitted T D R :=
  let recorded := r.record results s
  let streamed := r.stream recorded.2.1 recorded.1
  ⟨streamed.1, recorded.2.2 || decide (r.numPredict ≤ recorded.1.generated), streamed.2⟩

/-- What the validation of drafts returns. -/
structure Accepted (T D R : Type u) where
  state : Decoding T D R
  next : Option T
  accepted : Nat
  done : Bool
  err : Bool

/-- The loop over the drafts and the tokens the target selected: the number of accepted
drafts, the correction, and whether an end was accepted. -/
def validate : List T → List T → Nat × Option T × Bool
  | id :: drafts, selected :: rest =>
    if selected ≠ id then (0, some selected, false)
    else if r.isEOS id then (1, none, true)
    else
      let out := validate drafts rest
      (out.1 + 1, out.2)
  | _, _ => (0, none, false)

/-- `scheduleSpeculation` -/
def scheduleSpeculation (caches : List (Cache T)) (before draftCount : Nat) :
    Option (List (Cache T)) :=
  caches.mapM fun c => c.prepareSnapshots ((List.range draftCount).map (before + ·))

/-- `acceptMTPDraftsBatched`; `base` is the greedy token of the base logits. -/
def acceptMTPDraftsBatched (s : Decoding T D R) (base : T) (drafts : List T) :
    Option (Accepted T D R) := do
  let before := s.position
  let scheduled ← scheduleSpeculation s.caches before drafts.length
  let hiddenSeq := r.forward scheduled before drafts
  let selected := base :: (List.range drafts.length).map fun i => r.unembed (hiddenSeq i)
  let out := r.validate drafts selected
  let caches ← (scheduled.map fun c => c.update drafts).mapM fun c =>
    c.commitSpeculation out.1 drafts.length before
  let emitted := r.emitTokens { s with caches := caches, position := before + out.1 }
    (drafts.take out.1)
  if emitted.err then return ⟨emitted.state, none, out.1, emitted.done || out.2.2, true⟩
  if emitted.done || out.2.2 then return ⟨emitted.state, none, out.1, true, false⟩
  -- the bonus token when every draft was accepted
  return ⟨emitted.state, some (out.2.1.getD (selected.getLastD base)), out.1, false, false⟩

/-- `acceptMTPDraftsSerial`, from the greedy token of the last logits. -/
def acceptMTPDraftsSerial : Decoding T D R → T → List T → Nat → Accepted T D R
  | s, selected, [], accepted => ⟨s, some selected, accepted, false, false⟩
  | s, selected, id :: drafts, accepted =>
    if selected ≠ id then ⟨s, some selected, accepted, false, false⟩
    else
      let step := r.targetForward s [id]
      let emitted := r.emitTokens step.1 [id]
      if emitted.err then ⟨emitted.state, none, accepted + 1, emitted.done, true⟩
      else if emitted.done then ⟨emitted.state, none, accepted + 1, true, false⟩
      else acceptMTPDraftsSerial emitted.state (r.lastToken step.2 [id]) drafts (accepted + 1)

/-- `acceptMTPDrafts` -/
def acceptMTPDrafts (opts : MtpOptions) (s : Decoding T D R) (base : T) (drafts : List T) :
    Option (Accepted T D R) :=
  if opts.serialValidate then some (r.acceptMTPDraftsSerial s base drafts 0)
  else r.acceptMTPDraftsBatched s base drafts

/-- The draft limit after a round. -/
def nextDraftLimit (opts : MtpOptions) (draftLimit draftCount accepted : Nat) : Nat :=
  if opts.draftSchedule = .constant then draftLimit
  else if accepted = draftCount then min opts.maxDraftTokens (draftLimit + 2)
  else max 1 (draftLimit - 1)

/-- The loop of `runGreedyMTPDecode`. -/
def mtpLoop (opts : MtpOptions) : Nat → Nat → T → Decoding T D R → Option (Decoded T D R)
  | fuel, draftLimit, current, s =>
    if r.numPredict ≤ s.generated then some (r.finish s s.generated)
    else
      match fuel with
      | 0 => none
      | fuel + 1 => do
        let c := r.cancelled s
        if c.2 then return ⟨c.1, none⟩
        let step := r.targetForward c.1 [current]
        let base := r.lastToken step.2 [current]
        let emitted := r.emitTokens step.1 [current]
        let s := emitted.state
        if emitted.err then return ⟨s, none⟩
        if emitted.done then return r.finish s s.generated
        let drafts := r.generateMTPDrafts s.caches (s.position - 1)
          (min draftLimit (r.numPredict - s.generated)) current (step.2 0)
        if drafts = [] then mtpLoop opts fuel draftLimit base s
        else
          let out ← r.acceptMTPDrafts opts s base drafts
          let draftLimit := nextDraftLimit opts draftLimit drafts.length out.accepted
          if out.err then return ⟨out.state, none⟩
          if out.done || decide (r.numPredict ≤ out.state.generated) then
            return r.finish out.state out.state.generated
          let next ← out.next
          mtpLoop opts fuel draftLimit next out.state

/-- `runGreedyMTPDecode` -/
def runGreedyMTPDecode (opts : MtpOptions) (s : Decoding T D R) (seed : List T) :
    Option (Decoded T D R) :=
  let step := r.targetForward s seed
  r.mtpLoop opts r.numPredict opts.initialDraftTokens (r.lastToken step.2 seed)
    { step.1 with doneReason := 1, generated := 0 }

end Runner

end Prismalama.Mlxrunner
