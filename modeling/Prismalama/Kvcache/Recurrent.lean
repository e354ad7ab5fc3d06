import Prismalama.Kvcache.Causal
import Prismalama.Kvcache.RecurrentCheckpoints

/-!
# The recurrent cache (`kvcache/recurrent.go`)

A causal cache beside per-sequence recurrent state. The state lives in buffers
with one row for each slot; sequences share a slot after `CopyPrefix` until one
of them is written (copy-on-write), and each slot has its checkpoint store.

Tensor operations take effect in the order they are issued. `rows b slot` is
the row of buffer `b`; a buffer not yet allocated holds zeros once it is. The
graph of a reserve pass is measured, never computed, so its updates write
nothing.
-/

namespace Prismalama.Kvcache

open Prismalama.Lib

structure Recurrent (R : Type*) where
  kv : Causal
  maxSequences : Nat
  recurrentStateSize : Nat
  slotForSeq : GoMap Int Nat
  refCount : List Nat
  /-- The slot allocated next comes first. -/
  freeSlots : List Nat
  /-- The buffers allocated, `convStates` and `recurrentStates`. -/
  buffers : List StateBuffer
  rows : StateBuffer → Nat → R
  checkpointCount : Nat
  checkpointMinPos : Int
  checkpointInterval : Int
  checkpoints : GoMap Nat (SlotCheckpointStore R)
  pendingRestore : GoMap Int CheckpointRestore
  curCheckpointPos : List Int
  curCheckpointSlots : GoMap Nat Nat
  reserveCheckpoints : Bool
  checkpointReserved : List StateBuffer
  curSeqs : List Int
  curSlots : List Nat
  curSlotsInput : List Nat
  curSeqTokens : Nat
  writableEnsured : Bool
  writableError : Option KvError

/-- `NewRecurrentCache` and `Init` over an initialised causal cache. -/
def newRecurrentCache {R : Type*} [Inhabited R] (kv : Causal) (recurrentStateSize maxSequences : Nat) :
    Recurrent R where
  kv := kv
  maxSequences := maxSequences
  recurrentStateSize := recurrentStateSize
  slotForSeq := ∅
  refCount := List.replicate maxSequences 0
  freeSlots := List.range maxSequences
  buffers := []
  rows := fun _ _ => default
  checkpointCount := 24
  checkpointMinPos := 16
  checkpointInterval := 1664
  checkpoints := ∅
  pendingRestore := ∅
  curCheckpointPos := []
  curCheckpointSlots := ∅
  reserveCheckpoints := false
  checkpointReserved := []
  curSeqs := []
  curSlots := []
  curSlotsInput := []
  curSeqTokens := 0
  writableEnsured := false
  writableError := none

namespace Recurrent

variable {R : Type*} [Inhabited R]

/-! ## Slots and rows -/

/-- `allocSlot`; it fails with `ErrKvCacheFull` when no slot is free. -/
def allocSlot (c : Recurrent R) : Option (Nat × Recurrent R) :=
  match c.freeSlots with
  | [] => none
  | slot :: rest => some (slot, { c with freeSlots := rest })

def freeSlot (c : Recurrent R) (slot : Nat) : Recurrent R :=
  if slot < c.maxSequences then { c with freeSlots := slot :: c.freeSlots } else c

def validSlot (c : Recurrent R) (slot : Nat) : Bool := decide (slot < c.refCount.length)

/-- `c.refCount[slot]`. -/
def refs (c : Recurrent R) (slot : Nat) : Nat := c.refCount.getD slot 0

/-- `convBuffer` and `recurrentBuffer`: the buffer is allocated with zeros if it is new. -/
def ensureBuffer (c : Recurrent R) (b : StateBuffer) : Recurrent R :=
  if b ∈ c.buffers then c
  else
    { c with
      buffers := c.buffers ++ [b]
      rows := fun b' => if b' = b then fun _ => default else c.rows b' }

/-- `SetRows` of one row. -/
def setRow (c : Recurrent R) (b : StateBuffer) (slot : Nat) (row : R) : Recurrent R :=
  { c with rows := fun b' j => if b' = b ∧ j = slot then row else c.rows b' j }

def zeroSlots (c : Recurrent R) (slots : List Nat) : Recurrent R :=
  { c with rows := fun b j => if b ∈ c.buffers ∧ j ∈ slots then default else c.rows b j }

def copyRecurrentState (c : Recurrent R) (srcSlot dstSlot : Nat) : Recurrent R :=
  { c with rows := fun b j =>
      if b ∈ c.buffers ∧ j = dstSlot then c.rows b srcSlot else c.rows b j }

/-! ## Checkpoints -/

/-- The store of a slot; a slot without one gets an empty store. -/
def storeOf (c : Recurrent R) (slot : Nat) : SlotCheckpointStore R :=
  (c.checkpoints.lookup slot).getD (newSlotCheckpointStore c.checkpointCount)

def setStore (c : Recurrent R) (slot : Nat) (store : SlotCheckpointStore R) : Recurrent R :=
  { c with checkpoints := c.checkpoints.insert slot store }

/-- `checkpointStore`, for its effect. -/
def checkpointStore (c : Recurrent R) (slot : Nat) : Recurrent R := c.setStore slot (c.storeOf slot)

/-- Change the store of a slot that has one. -/
def updateStore (c : Recurrent R) (slot : Nat)
    (f : SlotCheckpointStore R → SlotCheckpointStore R) : Recurrent R :=
  match c.checkpoints.lookup slot with
  | none => c
  | some store => c.setStore slot (f store)

def clearCheckpoints (c : Recurrent R) (slot : Nat) : Recurrent R :=
  c.updateStore slot SlotCheckpointStore.reset

def shiftCheckpoints (c : Recurrent R) (slot : Nat) (beginIndex endIndex : Int) : Recurrent R :=
  c.updateStore slot fun store => store.shiftRange beginIndex endIndex

/-- The highest position of `seq` in the batch. -/
def posMax (batch : List Token) (seq : Int) : Option Int :=
  ((batch.filter fun t => t.seq = seq).map Token.pos).max?

/-- `planCheckpoints` for one sequence of the batch and its slot. -/
def planCheckpoint (batch : List Token) (out : Recurrent R × List Int) (x : Int × Nat) :
    Recurrent R × List Int :=
  match posMax batch x.1 with
  | none => (out.1, out.2 ++ [-1])
  | some pos =>
    if pos < out.1.checkpointMinPos then (out.1, out.2 ++ [-1])
    else
      let lastPos := (out.1.storeOf x.2).lastPos
      (out.1.checkpointStore x.2,
        out.2 ++ [if lastPos < 0 ∨ out.1.checkpointInterval ≤ i32 (pos - lastPos) then pos else -1])

def planCheckpoints (c : Recurrent R) (batch : List Token) : Recurrent R :=
  if c.checkpointCount = 0 ∨ c.curSeqs = [] then
    { c with curCheckpointPos := [], curCheckpointSlots := ∅ }
  else
    let out := (c.curSeqs.zip c.curSlots).foldl (planCheckpoint batch) (c, [])
    { out.1 with curCheckpointPos := out.2, curCheckpointSlots := ∅ }

/-- `checkpointIndexForSlot`: all layers of a pass save into one entry. -/
def checkpointIndexForSlot (c : Recurrent R) (slot : Nat) (pos : Int) : Recurrent R × Option Nat :=
  if c.checkpointCount = 0 then (c, none)
  else
    match c.curCheckpointSlots.lookup slot with
    | some idx => (c, some idx)
    | none =>
      let out := (c.storeOf slot).record pos
      let c := c.setStore slot out.1
      match out.2 with
      | none => (c, none)
      | some idx => ({ c with curCheckpointSlots := c.curCheckpointSlots.insert slot idx }, some idx)

/-- Save a row of the buffer in an entry of the slot's store. -/
def saveRow (c : Recurrent R) (slot idx : Nat) (b : StateBuffer) (row : R) : Recurrent R :=
  c.updateStore slot fun store =>
    { store with entries := store.entries.modify idx fun entry =>
        { entry with saved := entry.saved.insert b row } }

/-- The body of the loop of `captureConvCheckpoint` and `captureRecurrentCheckpoint`. -/
def captureRow (b : StateBuffer) (src : List R) (c : Recurrent R) (x : Int × Nat) : Recurrent R :=
  if x.1 < 0 then c
  else
    let slot := c.curSlots.getD x.2 0
    let out := c.checkpointIndexForSlot slot x.1
    match out.2 with
    | none => out.1
    | some idx => out.1.saveRow slot idx b (src.getD x.2 default)

/-- `ensureCheckpointConv` and `ensureCheckpointRecurrent` on every entry of a store. -/
def reserveStore (b : StateBuffer) (store : SlotCheckpointStore R) : SlotCheckpointStore R :=
  { store with entries := store.entries.map fun entry =>
      match entry.saved.lookup b with
      | some _ => entry
      | none => { entry with saved := entry.saved.insert b default } }

/-- `reserveCheckpointConv` and `reserveCheckpointRecurrent`. -/
def reserveCheckpoint (c : Recurrent R) (b : StateBuffer) : Recurrent R :=
  if b ∈ c.checkpointReserved then c
  else
    let c := (List.range c.maxSequences).foldl
      (fun c slot => c.setStore slot (reserveStore b (c.storeOf slot))) c
    { c with checkpointReserved := b :: c.checkpointReserved }

/-- `captureConvCheckpoint` and `captureRecurrentCheckpoint`. -/
def captureCheckpoint (c : Recurrent R) (b : StateBuffer) (src : List R) : Recurrent R :=
  if c.checkpointCount = 0 then c
  else if c.reserveCheckpoints then c.reserveCheckpoint b
  else c.curCheckpointPos.zipIdx.foldl (captureRow b src) c

/-- An entry of `copyCheckpoints`: the position is taken over and every saved
row is copied over what the destination holds. -/
def copyEntry (srcEntry dstEntry : CheckpointEntry R) : CheckpointEntry R :=
  ⟨srcEntry.pos,
    srcEntry.saved.entries.foldl (fun saved e => saved.insert e.1 e.2) dstEntry.saved⟩

def copyCheckpoints (c : Recurrent R) (srcSlot dstSlot : Nat) : Recurrent R :=
  if c.checkpointCount = 0 then c
  else
    match c.checkpoints.lookup srcSlot with
    | none => c
    | some srcStore =>
      if srcStore.size = 0 then c
      else
        c.setStore dstSlot
          { entries := List.zipWith copyEntry srcStore.entries (c.storeOf dstSlot).entries
            size := srcStore.size
            next := srcStore.next
            lastPos := srcStore.lastPos }

def hasCheckpoint (c : Recurrent R) (seq pos : Int) : Bool :=
  if pos ≤ 0 then false
  else
    match c.slotForSeq.lookup seq with
    | none => false
    | some slot =>
      match c.checkpoints.lookup slot with
      | none => false
      | some store => (store.bestIndex pos).isSome

def canResume (c : Recurrent R) (seq pos : Int) : Bool :=
  if !c.kv.canResume seq pos then false
  else if pos = 0 then true
  else c.hasCheckpoint seq pos

/-- `PrepareRestore`: the number of tokens that can be kept, if any. -/
def prepareRestore (c : Recurrent R) (seq targetPos : Int) : Recurrent R × Option Int :=
  if targetPos ≤ 0 then (c, none)
  else
    match c.slotForSeq.lookup seq with
    | none => (c, none)
    | some slot =>
      match c.checkpoints.lookup slot with
      | none => (c, none)
      | some store =>
        match store.bestIndex targetPos with
        | none => (c, none)
        | some (idx, pos) =>
          ({ c with pendingRestore := c.pendingRestore.insert seq ⟨slot, idx, pos⟩ }, some (pos + 1))

def entryComplete (c : Recurrent R) (entry : CheckpointEntry R) : Bool :=
  c.buffers.all fun b => (entry.saved.lookup b).isSome

def restoreEntry (c : Recurrent R) (restore : CheckpointRestore) : Option (CheckpointEntry R) :=
  match c.checkpoints.lookup restore.slot with
  | none => none
  | some store =>
    match store.entries[restore.idx]? with
    | none => none
    | some entry => if 0 ≤ entry.pos ∧ c.entryComplete entry then some entry else none

def restoreComplete (c : Recurrent R) (restore : CheckpointRestore) : Bool :=
  (c.restoreEntry restore).isSome

def applyCheckpointRestore (c : Recurrent R) (restore : CheckpointRestore) :
    Recurrent R × Option KvError :=
  match c.restoreEntry restore with
  | none => (c, some .notSupported)
  | some entry =>
    let c := entry.saved.entries.foldl
      (fun c e => (c.ensureBuffer e.1).setRow e.1 restore.slot e.2) c
    (c.updateStore restore.slot fun store => store.pruneAfter restore.pos, none)

/-! ## `StartForward` -/

/-- The sequences of the batch in the order of their first token. -/
def batchSeqs (batch : List Token) : List Int :=
  batch.foldl (fun seqs t => if t.seq ∈ seqs then seqs else seqs ++ [t.seq]) []

/-- `setCurSlotsInput` -/
def setCurSlotsInput (c : Recurrent R) : Recurrent R := { c with curSlotsInput := c.curSlots }

def finalizeStartForward (c : Recurrent R) (batch : List Token) (reserve : Bool) : Recurrent R :=
  ({ c.setCurSlotsInput with
      writableEnsured := false
      writableError := none
      reserveCheckpoints := reserve } : Recurrent R).planCheckpoints batch

/-- A slot for a sequence that has none. -/
def takeSlot (c : Recurrent R) (seq : Int) : Option (Nat × Recurrent R) :=
  match c.allocSlot with
  | none => none
  | some (slot, c) =>
    some (slot, { c with
      slotForSeq := c.slotForSeq.insert seq slot
      refCount := c.refCount.set slot 1 })

/-- The loop that makes sure each sequence of the batch has a slot. It returns
the slots newly allocated, or `none` for them when it ran out of slots. -/
def ensureSlots : Recurrent R → List Int → List Nat → Recurrent R × Option (List Nat)
  | c, [], newSlots => (c, some newSlots)
  | c, seq :: rest, newSlots =>
    match c.slotForSeq.lookup seq with
    | some slot => ensureSlots { c with curSlots := c.curSlots ++ [slot] } rest newSlots
    | none =>
      match c.takeSlot seq with
      | none => (c, none)
      | some (slot, c) =>
        ensureSlots { c with curSlots := c.curSlots ++ [slot] } rest (newSlots ++ [slot])

/-- `startForwardSingleSeq` -/
def startForwardSingleSeq (c : Recurrent R) (seq : Int) (batch : List Token) (reserve : Bool) :
    Recurrent R × Option KvError :=
  let c := { c with curSeqs := [seq], curSeqTokens := batch.length }
  if reserve then
    (({ c with curSlots := [0] } : Recurrent R).finalizeStartForward batch true, none)
  else
    match c.slotForSeq.lookup seq with
    | some slot => (({ c with curSlots := [slot] } : Recurrent R).finalizeStartForward batch false, none)
    | none =>
      match c.takeSlot seq with
      | none => (c, some .errKvCacheFull)
      | some (slot, c) =>
        (({ c.zeroSlots [slot] with curSlots := [slot] } : Recurrent R).finalizeStartForward batch
          false, none)

/-- What `StartForward` does after the causal cache accepted the batch. -/
def startForwardSlots (c : Recurrent R) (batch : List Token) (reserve : Bool) :
    Recurrent R × Option KvError :=
  match batch with
  | [] =>
    ({ c with
        curSeqs := []
        curSlots := []
        curSlotsInput := []
        curSeqTokens := 0
        reserveCheckpoints := false
        writableEnsured := false
        writableError := none }, none)
  | first :: rest =>
    if rest.all fun t => t.seq == first.seq then
      c.startForwardSingleSeq first.seq batch reserve
    else
      let seqs := batchSeqs batch
      let want := batch.length / seqs.length
      let c := { c with curSeqs := seqs }
      if seqs.any fun s => (batch.filter fun t => t.seq = s).length != want then
        (c, some .notSupported)
      else
        let c := { c with curSeqTokens := want }
        if reserve then
          (({ c with curSlots := List.range seqs.length } : Recurrent R).finalizeStartForward batch
            true, none)
        else
          let out := ensureSlots { c with curSlots := [] } seqs []
          match out.2 with
          | none => (out.1, some .errKvCacheFull)
          | some newSlots => ((out.1.zeroSlots newSlots).finalizeStartForward batch false, none)

/-- `StartForward`: the state after it and the error it returns, if any. -/
def startForward (c : Recurrent R) (batch : List Token) (order : List Int) (reserve : Bool) :
    Recurrent R × Option KvError :=
  let out := c.kv.startForward batch order reserve
  let c := { c with kv := out.1 }
  match out.2 with
  | some err => (c, some err)
  | none => c.startForwardSlots batch reserve

/-! ## Copy-on-write -/

/-- Move a sequence from a shared slot to a private copy of it. -/
def detach (c : Recurrent R) (seq : Int) (slot : Nat) : Option (Nat × Recurrent R) :=
  match c.allocSlot with
  | none => none
  | some (newSlot, c) =>
    let c := { c with
      refCount := (c.refCount.set slot (c.refs slot - 1)).set newSlot 1
      slotForSeq := c.slotForSeq.insert seq newSlot }
    some (newSlot, (c.copyRecurrentState slot newSlot).copyCheckpoints slot newSlot)

/-- The loop of `EnsureWritable` over the sequences of the pass, the `i`-th first. -/
def ensureWritableFrom : Recurrent R → Nat → List Int → Recurrent R × Option KvError
  | c, _, [] => (c.setCurSlotsInput, none)
  | c, i, seq :: rest =>
    match c.slotForSeq.lookup seq with
    | none => ensureWritableFrom c (i + 1) rest
    | some slot =>
      if !c.validSlot slot || decide (c.refs slot ≤ 1) then ensureWritableFrom c (i + 1) rest
      else
        match c.detach seq slot with
        | none => (c, some .errKvCacheFull)
        | some (newSlot, c) =>
          ensureWritableFrom { c with curSlots := c.curSlots.set i newSlot } (i + 1) rest

/-- `EnsureWritable` -/
def ensureWritableAll (c : Recurrent R) : Recurrent R × Option KvError :=
  c.ensureWritableFrom 0 c.curSeqs

/-- `ensureWritableOnce` -/
def ensureWritableOnce (c : Recurrent R) : Recurrent R :=
  if c.writableEnsured then c
  else
    let needsWritable := c.curSeqs.any fun seq =>
      match c.slotForSeq.lookup seq with
      | none => false
      | some slot => c.validSlot slot && decide (1 < c.refs slot)
    if needsWritable then
      let out := c.ensureWritableAll
      match out.2 with
      | some err => { out.1 with writableEnsured := true, writableError := some err }
      | none => { out.1 with writableEnsured := true }
    else { c with writableEnsured := true }

/-- `contiguousSlots`: the first slot when the slots of the pass follow each other. -/
def contiguousSlots (c : Recurrent R) : Option Nat :=
  match c.curSlots with
  | [] => none
  | start :: _ => if c.curSlots = List.range' start c.curSlots.length then some start else none

/-- `currentSlotRows`: a view of contiguous slots, else the rows picked by index. -/
def currentSlotRows (c : Recurrent R) (b : StateBuffer) : List R :=
  match c.contiguousSlots with
  | some start => (List.range' start c.curSeqs.length).map (c.rows b)
  | none => c.curSlotsInput.map (c.rows b)

/-- `writeCurrentSlotRows` -/
def writeCurrentSlotRows (c : Recurrent R) (b : StateBuffer) (src : List R) : Recurrent R :=
  match c.contiguousSlots with
  | some start =>
    { c with rows := fun b' j =>
        if b' = b ∧ start ≤ j ∧ j < start + c.curSeqs.length then src.getD (j - start) default
        else c.rows b' j }
  | none => (c.curSlotsInput.zip src).foldl (fun c x => c.setRow b x.1 x.2) c

/-- The dimensions `RecurrentState` accepts. -/
def dimsOk (c : Recurrent R) (dims : List Int) : Bool :=
  !dims.isEmpty && dims.all (fun d => decide (0 < d)) && dims.prod == c.recurrentStateSize

/-- `ConvState` (without `dims`) and `RecurrentState`: the rows of the pass. -/
def readState (c : Recurrent R) (b : StateBuffer) (dims : Option (List Int)) :
    Recurrent R × Except KvError (List R) :=
  let c := c.ensureWritableOnce
  match c.writableError with
  | some err => (c, .error err)
  | none =>
    if (dims.map c.dimsOk).getD true then
      let c := c.ensureBuffer b
      (c, .ok (c.currentSlotRows b))
    else (c, .error .invalidRecurrentShape)

/-- `UpdateConvState` and `UpdateRecurrentState`. -/
def updateState (c : Recurrent R) (b : StateBuffer) (newState : List R) : Recurrent R :=
  let c := c.ensureBuffer b
  let c := if c.reserveCheckpoints then c else c.writeCurrentSlotRows b newState
  c.captureCheckpoint b newState

/-! ## `CopyPrefix` and `Remove` -/

/-- `dstSeq` gives up its slot; the slot keeps its checkpoints. -/
def dropSlot (c : Recurrent R) (dstSeq : Int) : Recurrent R :=
  match c.slotForSeq.lookup dstSeq with
  | none => c
  | some dstSlot =>
    let c :=
      if c.validSlot dstSlot then
        let n := c.refs dstSlot - 1
        let c := { c with refCount := c.refCount.set dstSlot n }
        if n = 0 then c.freeSlot dstSlot else c
      else c
    { c with slotForSeq := c.slotForSeq.erase dstSeq }

def copyPrefix (c : Recurrent R) (srcSeq dstSeq prefixLen : Int) : Recurrent R :=
  let c := ({ c with kv := c.kv.copyPrefix srcSeq dstSeq prefixLen } : Recurrent R).dropSlot dstSeq
  match c.slotForSeq.lookup srcSeq with
  | none => c
  | some srcSlot =>
    if c.validSlot srcSlot then
      { c with
        slotForSeq := c.slotForSeq.insert dstSeq srcSlot
        refCount := c.refCount.set srcSlot (c.refs srcSlot + 1) }
    else c

/-- The range in the middle of a sequence: shift the checkpoints behind it. -/
def removeMiddle (c : Recurrent R) (seq beginIndex endIndex : Int) (backend : Option KvError) :
    Recurrent R × Option KvError :=
  let out := c.kv.remove seq beginIndex endIndex backend
  let c := { c with kv := out.1 }
  match out.2 with
  | some err => (c, some err)
  | none =>
    let c := { c with pendingRestore := c.pendingRestore.erase seq }
    match c.slotForSeq.lookup seq with
    | none => (c, none)
    | some slot =>
      if !c.validSlot slot then (c, none)
      else if 1 < c.refs slot then
        match c.detach seq slot with
        | none => (c, some .errKvCacheFull)
        | some (newSlot, c) => (c.shiftCheckpoints newSlot beginIndex endIndex, none)
      else (c.shiftCheckpoints slot beginIndex endIndex, none)

/-- A sequence that is to restore a checkpoint leaves a shared slot, and the
restore is redirected to its copy. -/
def detachRestore (c : Recurrent R) (seq : Int) (restore : CheckpointRestore) :
    Recurrent R × Option KvError :=
  match c.slotForSeq.lookup seq with
  | none => (c, none)
  | some slot =>
    if c.validSlot slot && decide (1 < c.refs slot) then
      match c.detach seq slot with
      | none => (c, some .errKvCacheFull)
      | some (newSlot, c) =>
        ({ c with pendingRestore := c.pendingRestore.insert seq { restore with slot := newSlot } },
          none)
    else (c, none)

/-- The tail of a sequence: go back to the checkpoint prepared for it. -/
def removeTail (c : Recurrent R) (seq beginIndex endIndex : Int) (backend : Option KvError) :
    Recurrent R × Option KvError :=
  match c.pendingRestore.lookup seq with
  | none => (c, some .notSupported)
  | some restore =>
    if i32 (restore.pos + 1) ≠ beginIndex then (c, some .notSupported)
    else if !c.restoreComplete restore then (c, some .notSupported)
    else
      let out := c.detachRestore seq restore
      match out.2 with
      | some err => (out.1, some err)
      | none =>
        let c := out.1
        let res := c.kv.remove seq beginIndex endIndex backend
        let c := { c with kv := res.1 }
        match res.2 with
        | some err => (c, some err)
        | none =>
          let restore := (c.pendingRestore.lookup seq).getD ⟨0, 0, 0⟩
          ({ c with pendingRestore := c.pendingRestore.erase seq } :
            Recurrent R).applyCheckpointRestore restore

/-- The sequence gives up its slot, the last one also the slot's checkpoints. -/
def releaseSlot (c : Recurrent R) (seq : Int) (slot : Nat) : Recurrent R :=
  let n := c.refs slot - 1
  let c := { c with refCount := c.refCount.set slot n }
  let c := if n = 0 then (c.clearCheckpoints slot).freeSlot slot else c
  { c with slotForSeq := c.slotForSeq.erase seq }

/-- The whole sequence. -/
def removeAll (c : Recurrent R) (seq beginIndex endIndex : Int) (backend : Option KvError) :
    Recurrent R × Option KvError :=
  let out := c.kv.remove seq beginIndex endIndex backend
  let c := { c with kv := out.1 }
  match out.2 with
  | some err => (c, some err)
  | none =>
    let c := { c with pendingRestore := c.pendingRestore.erase seq }
    match c.slotForSeq.lookup seq with
    | none => (c, none)
    | some slot =>
      if !c.validSlot slot then ({ c with slotForSeq := c.slotForSeq.erase seq }, none)
      else (c.releaseSlot seq slot, none)

/-- `Remove`: the state after it and the error it returns, if any. -/
def remove (c : Recurrent R) (seq beginIndex endIndex : Int) (backend : Option KvError) :
    Recurrent R × Option KvError :=
  if 0 < beginIndex ∧ endIndex ≠ maxInt32 then c.removeMiddle seq beginIndex endIndex backend
  else if 0 < beginIndex then c.removeTail seq beginIndex endIndex backend
  else c.removeAll seq beginIndex endIndex backend

end Recurrent

end Prismalama.Kvcache
