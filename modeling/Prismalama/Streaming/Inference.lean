import Mathlib.Tactic

/-!
# Streamed inference (`ml/streaming/inference.go`)

While a graph is computed, the callback at the end of a block loads the weights
of the next block and evicts those of the block that is done. With a budget
nothing is evicted; a budget of 0 evicts every block. The initial load has put
all weights in place, so the question is which of them are zeros when a block is
computed.
-/

namespace Prismalama.Streaming

structure TensorRef where
  name : String
  offset : Nat
  size : Nat

structure LayerInfo where
  name : String
  tensors : List TensorRef

/-- A layer map as `BuildLayerMap` makes it: a layer for each block, and a tensor
in one layer only. -/
structure LayerMap where
  layers : List LayerInfo
  tensorDataBase : Nat
  blockCount : Nat
  blockCount_le : blockCount ≤ layers.length
  disjoint : ∀ (b b' : Nat) (li li' : LayerInfo), layers[b]? = some li → layers[b']? = some li' →
    ∀ ref ∈ li.tensors, ∀ ref' ∈ li'.tensors, ref.name = ref'.name → b = b'

/-- What a tensor holds. -/
inductive Content
  | weights
  | zeros
deriving DecidableEq

/-- What does not change: the map, the budget, the sizes of the tensors of the
backend, and the file. -/
structure StreamConfig where
  lm : LayerMap
  budgetBytes : Nat
  /-- The size of a tensor of the backend; `none` when it has no such tensor. -/
  tensorSize : String → Option Nat
  /-- Whether a range of the file can be read. -/
  readAt : Nat → Nat → Bool

structure InferenceStreamer where
  currentBlock : Int
  loadedWeights : Nat → Bool
  device : String → Content

namespace InferenceStreamer

variable (cfg : StreamConfig)

/-- `keepResident` -/
def keepResident : Bool := cfg.budgetBytes != 0

/-- `safeFromBytes`: a buffer of another size than the tensor's is not written. -/
def safeFromBytes (device : String → Content) (ref : TensorRef) (buf : Content) :
    String → Content :=
  if cfg.tensorSize ref.name = some ref.size then Function.update device ref.name buf else device

/-- The loop of `loadBlock`: the tensors, and whether all reads succeeded. -/
def loadTensors (device : String → Content) : List TensorRef → (String → Content) × Bool
  | [] => (device, true)
  | ref :: refs =>
    if cfg.tensorSize ref.name = none then loadTensors device refs
    else if cfg.readAt (cfg.lm.tensorDataBase + ref.offset) ref.size then
      loadTensors (safeFromBytes cfg device ref .weights) refs
    else (device, false)

/-- `loadBlock`; `false` for an error. -/
def loadBlock (is : InferenceStreamer) (blockIdx : Nat) : InferenceStreamer × Bool :=
  match cfg.lm.layers[blockIdx]? with
  | none => (is, false)
  | some li =>
    if is.loadedWeights blockIdx then (is, true)
    else
      let out := loadTensors cfg is.device li.tensors
      if out.2 then
        ({ is with
            device := out.1
            loadedWeights := Function.update is.loadedWeights blockIdx true }, true)
      else ({ is with device := out.1 }, false)

/-- `evictBlock` -/
def evictBlock (is : InferenceStreamer) (blockIdx : Nat) : InferenceStreamer :=
  let device := match cfg.lm.layers[blockIdx]? with
    | none => is.device
    | some li => li.tensors.foldl (fun device ref => safeFromBytes cfg device ref .zeros) is.device
  { is with
    device := device
    loadedWeights := Function.update is.loadedWeights blockIdx false }

/-- The streamer after the model was loaded. -/
def newInferenceStreamer : InferenceStreamer where
  currentBlock := -1
  loadedWeights := fun _ => false
  device := fun _ => .weights

/-- The output layer, when there is one, is the last. -/
def loadOutput (is : InferenceStreamer) : InferenceStreamer × Bool :=
  match cfg.lm.layers.getLast? with
  | none => (is, true)
  | some li =>
    if li.name = "output" then loadBlock cfg is (cfg.lm.layers.length - 1) else (is, true)

/-- `PrepareForInference`; `false` for an error. -/
def prepareForInference (is : InferenceStreamer) : InferenceStreamer × Bool :=
  if keepResident cfg then
    ({ is with
        loadedWeights := fun i => decide (i < cfg.lm.layers.length) || is.loadedWeights i
        currentBlock := 0 }, true)
  else
    let out := loadOutput cfg is
    if out.2 = false then out
    else
      let first := if 0 < cfg.lm.blockCount then loadBlock cfg out.1 0 else (out.1, true)
      if first.2 = false then first else ({ first.1 with currentBlock := 0 }, true)

/-- The next block is loaded, if there is one. -/
def loadNext (is : InferenceStreamer) (blockIdx : Nat) : InferenceStreamer × Bool :=
  if blockIdx + 1 < cfg.lm.blockCount then loadBlock cfg is (blockIdx + 1) else (is, true)

/-- The block that is done is evicted, unless it is kept. -/
def evictDone (is : InferenceStreamer) (blockIdx : Nat) : InferenceStreamer :=
  if blockIdx < cfg.lm.blockCount ∧ keepResident cfg = false then evictBlock cfg is blockIdx
  else is

/-- `OnBlockDone`; `false` cancels the graph. -/
def onBlockDone (is : InferenceStreamer) (blockIdx : Nat) : InferenceStreamer × Bool :=
  let loaded := loadNext cfg is blockIdx
  if loaded.2 = false then loaded
  else ({ evictDone cfg loaded.1 blockIdx with currentBlock := blockIdx + 1 }, true)

/-! ## Forward passes -/

/-- The streamer when a pass computes block `b`; `none` when it was cancelled. -/
def computing (is : InferenceStreamer) : Nat → Option InferenceStreamer
  | 0 => some is
  | b + 1 => (computing is b).bind fun is =>
    let out := onBlockDone cfg is b
    if out.2 then some out.1 else none

/-- The streamer after `k` passes. -/
def passes (is : InferenceStreamer) : Nat → Option InferenceStreamer
  | 0 => some is
  | k + 1 => (passes is k).bind fun is => computing cfg is cfg.lm.blockCount

/-- The weights of a block are in place. -/
def Loaded (is : InferenceStreamer) (b : Nat) : Prop :=
  ∀ li, cfg.lm.layers[b]? = some li → ∀ ref ∈ li.tensors, is.device ref.name = .weights

/-- `k` passes compute every block with its weights. -/
def ComputesLoaded (is : InferenceStreamer) (k : Nat) : Prop :=
  ∀ j < k, ∀ b < cfg.lm.blockCount, ∀ is', (passes cfg is j).bind (computing cfg · b) = some is' →
    Loaded cfg is' b

/-- A block has a tensor that an eviction clears. -/
def Evictable (b : Nat) : Prop :=
  ∃ li, cfg.lm.layers[b]? = some li ∧
    ∃ ref ∈ li.tensors, cfg.tensorSize ref.name = some ref.size

/-! ## Tensors of a block -/

variable {cfg} {is : InferenceStreamer}

variable (cfg) in
/-- Loading puts weights in place and changes nothing else. -/
theorem loadTensors_spec (refs : List TensorRef) (device : String → Content) :
    (∀ x, (loadTensors cfg device refs).1 x = .weights ∨
        (loadTensors cfg device refs).1 x = device x) ∧
      (∀ x, (∀ ref ∈ refs, ref.name ≠ x) → (loadTensors cfg device refs).1 x = device x) ∧
      (∀ x, device x = .weights → (loadTensors cfg device refs).1 x = .weights) ∧
      ((loadTensors cfg device refs).2 = true → ∀ ref ∈ refs,
        cfg.tensorSize ref.name = some ref.size →
          (loadTensors cfg device refs).1 ref.name = .weights) := by
  induction refs generalizing device with
  | nil => exact ⟨fun _ => .inr rfl, fun _ _ => rfl, fun _ h => h, fun _ _ h => nomatch h⟩
  | cons ref refs ih =>
    unfold loadTensors
    split
    · rename_i hnone
      obtain ⟨hor, hframe, hkeep, hall⟩ := ih device
      refine ⟨hor, fun x hx => hframe x fun r hr => hx r (List.mem_cons_of_mem ref hr), hkeep,
        fun hok r hr hfit => ?_⟩
      rcases List.mem_cons.mp hr with rfl | hr
      · rw [hnone] at hfit
        cases hfit
      · exact hall hok r hr hfit
    · split
      · obtain ⟨hor, hframe, hkeep, hall⟩ := ih (safeFromBytes cfg device ref .weights)
        have hwrite : ∀ x, safeFromBytes cfg device ref .weights x = .weights ∨
            safeFromBytes cfg device ref .weights x = device x := by
          intro x
          unfold safeFromBytes
          split
          · by_cases hx : x = ref.name
            · subst hx
              exact .inl (Function.update_self _ _ _)
            · exact .inr (Function.update_of_ne hx _ _)
          · exact .inr rfl
        refine ⟨fun x => ?_, fun x hx => ?_, fun x hx => ?_, fun hok r hr hfit => ?_⟩
        · rcases hor x with h | h
          · exact .inl h
          · rw [h]
            exact hwrite x
        · rw [hframe x fun r hr => hx r (List.mem_cons_of_mem ref hr)]
          unfold safeFromBytes
          split
          · exact Function.update_of_ne (Ne.symm (hx ref List.mem_cons_self)) _ _
          · rfl
        · refine hkeep x ?_
          rcases hwrite x with h | h
          · exact h
          · rw [h, hx]
        · rcases List.mem_cons.mp hr with rfl | hr
          · refine hkeep _ ?_
            rw [safeFromBytes, if_pos hfit, Function.update_self]
          · exact hall hok r hr hfit
      · exact ⟨fun _ => .inr rfl, fun _ _ => rfl, fun _ h => h, fun hok => nomatch hok⟩

variable (cfg) in
/-- Evicting clears the tensors of the right size and changes nothing else. -/
theorem evictTensors_spec (refs : List TensorRef) (device : String → Content) (x : String) :
    let out := refs.foldl (fun device ref => safeFromBytes cfg device ref .zeros) device
    (out x = .zeros ∧ ∃ ref ∈ refs, ref.name = x ∧ cfg.tensorSize ref.name = some ref.size) ∨
      (out x = device x ∧ ∀ ref ∈ refs, ref.name = x → cfg.tensorSize ref.name ≠ some ref.size) := by
  induction refs generalizing device with
  | nil => exact .inr ⟨rfl, fun _ h => nomatch h⟩
  | cons ref refs ih =>
    intro out
    rcases ih (safeFromBytes cfg device ref .zeros) with ⟨hzero, r, hr, hname⟩ | ⟨heq, hno⟩
    · exact .inl ⟨hzero, r, List.mem_cons_of_mem ref hr, hname⟩
    · by_cases hx : ref.name = x ∧ cfg.tensorSize ref.name = some ref.size
      · obtain ⟨rfl, hfit⟩ := hx
        refine .inl ⟨heq.trans ?_, ref, List.mem_cons_self, rfl, hfit⟩
        rw [safeFromBytes, if_pos hfit, Function.update_self]
      · refine .inr ⟨heq.trans ?_, fun r hr hname => ?_⟩
        · unfold safeFromBytes
          split
          · rename_i hfit
            exact Function.update_of_ne (fun h => hx ⟨h.symm, hfit⟩) _ _
          · rfl
        · rcases List.mem_cons.mp hr with rfl | hr
          · exact fun hfit => hx ⟨hname, hfit⟩
          · exact hno r hr hname

/-! ## The invariant -/

/-- A tensor that holds zeros belongs to a block that is not marked as loaded. -/
def ZerosUnloaded (cfg : StreamConfig) (is : InferenceStreamer) : Prop :=
  ∀ x, is.device x = .zeros → ∃ b li, cfg.lm.layers[b]? = some li ∧
    (∃ ref ∈ li.tensors, ref.name = x ∧ cfg.tensorSize ref.name = some ref.size) ∧
      is.loadedWeights b = false

theorem Content.eq_zeros {c : Content} (h : c ≠ .weights) : c = .zeros := by
  cases c with
  | weights => exact absurd rfl h
  | zeros => rfl

theorem ZerosUnloaded.loaded (h : ZerosUnloaded cfg is) {b : Nat}
    (hb : is.loadedWeights b = true) : Loaded cfg is b := by
  intro li hli ref href
  by_contra hne
  obtain ⟨b', li', hli', ⟨ref', href', hname, -⟩, hun⟩ := h ref.name (Content.eq_zeros hne)
  have heq := cfg.lm.disjoint b' b li' li hli' hli ref' href' ref href hname
  rw [heq, hb] at hun
  cases hun

theorem loadBlock_zerosUnloaded (h : ZerosUnloaded cfg is) (b : Nat) :
    ZerosUnloaded cfg (loadBlock cfg is b).1 := by
  unfold loadBlock
  cases hli : cfg.lm.layers[b]? with
  | none => exact h
  | some li =>
    simp only
    split
    · exact h
    · obtain ⟨hor, hframe, -, hall⟩ := loadTensors_spec cfg li.tensors is.device
      have hbefore : ∀ x, (loadTensors cfg is.device li.tensors).1 x = .zeros →
          is.device x = .zeros := by
        intro x hx
        rcases hor x with hw | hw
        · rw [hw] at hx
          cases hx
        · rwa [hw] at hx
      split
      · rename_i hok
        intro x hx
        obtain ⟨b', li', hli', ⟨ref, href, hname, hfit⟩, hun⟩ := h x (hbefore x hx)
        refine ⟨b', li', hli', ⟨ref, href, hname, hfit⟩, ?_⟩
        have hne : b' ≠ b := by
          rintro rfl
          rw [hli] at hli'
          cases hli'
          have hweights := hall hok ref href hfit
          rw [hname] at hweights
          have hx' : (loadTensors cfg is.device li.tensors).1 x = .zeros := hx
          rw [hweights] at hx'
          cases hx'
        exact (Function.update_of_ne hne _ _).trans hun
      · exact fun x hx => h x (hbefore x hx)

theorem evictBlock_zerosUnloaded (h : ZerosUnloaded cfg is) (b : Nat) :
    ZerosUnloaded cfg (evictBlock cfg is b) := by
  have hkept : ∀ b', is.loadedWeights b' = false →
      (evictBlock cfg is b).loadedWeights b' = false := by
    intro b' hb'
    show Function.update is.loadedWeights b false b' = false
    by_cases heq : b' = b
    · subst heq
      exact Function.update_self _ _ _
    · rw [Function.update_of_ne heq, hb']
  intro x hx
  cases hli : cfg.lm.layers[b]? with
  | none =>
    have hx' : is.device x = .zeros := by
      simpa [evictBlock, hli] using hx
    obtain ⟨b', li', hli', href, hun⟩ := h x hx'
    exact ⟨b', li', hli', href, hkept b' hun⟩
  | some li =>
    simp only [evictBlock, hli] at hx
    rcases evictTensors_spec cfg li.tensors is.device x with ⟨-, href⟩ | ⟨heq, -⟩
    · exact ⟨b, li, hli, href, Function.update_self _ _ _⟩
    · obtain ⟨b', li', hli', href, hun⟩ := h x (heq.symm.trans hx)
      exact ⟨b', li', hli', href, hkept b' hun⟩

theorem loadNext_zerosUnloaded (h : ZerosUnloaded cfg is) (b : Nat) :
    ZerosUnloaded cfg (loadNext cfg is b).1 := by
  unfold loadNext
  split
  · exact loadBlock_zerosUnloaded h (b + 1)
  · exact h

theorem evictDone_zerosUnloaded (h : ZerosUnloaded cfg is) (b : Nat) :
    ZerosUnloaded cfg (evictDone cfg is b) := by
  unfold evictDone
  split
  · exact evictBlock_zerosUnloaded h b
  · exact h

/-! ## One callback -/

/-- A callback that goes on has loaded the next block and evicted the last. -/
theorem onBlockDone_ok {b : Nat} (h : (onBlockDone cfg is b).2 = true) :
    (loadNext cfg is b).2 = true ∧
      (onBlockDone cfg is b).1.device = (evictDone cfg (loadNext cfg is b).1 b).device ∧
      (onBlockDone cfg is b).1.loadedWeights =
        (evictDone cfg (loadNext cfg is b).1 b).loadedWeights := by
  simp only [onBlockDone] at h ⊢
  split at h
  · rename_i hfail
    rw [hfail] at h
    cases h
  · rename_i hok
    rw [if_neg hok]
    exact ⟨Bool.not_eq_false _ ▸ hok, rfl, rfl⟩

theorem ZerosUnloaded.onBlockDone (h : ZerosUnloaded cfg is) {b : Nat}
    (hok : (onBlockDone cfg is b).2 = true) : ZerosUnloaded cfg (onBlockDone cfg is b).1 := by
  obtain ⟨-, hdev, hload⟩ := onBlockDone_ok hok
  intro x hx
  rw [hdev] at hx
  rw [hload]
  exact evictDone_zerosUnloaded (loadNext_zerosUnloaded h b) b x hx

theorem loadedWeights_of_loadBlock {b : Nat} (h : (loadBlock cfg is b).2 = true) :
    (loadBlock cfg is b).1.loadedWeights b = true := by
  unfold loadBlock at h ⊢
  cases hli : cfg.lm.layers[b]? with
  | none =>
    rw [hli] at h
    cases h
  | some li =>
    rw [hli] at h
    simp only at h ⊢
    split
    · assumption
    · rename_i hnew
      rw [if_neg hnew] at h
      split
      · exact Function.update_self _ _ _
      · rename_i hfail
        rw [if_neg hfail] at h
        cases h

/-- After the callback of a block the next block is loaded. -/
theorem loaded_of_onBlockDone (h : ZerosUnloaded cfg is) {b : Nat}
    (hb : b + 1 < cfg.lm.blockCount) (hok : (onBlockDone cfg is b).2 = true) :
    Loaded cfg (onBlockDone cfg is b).1 (b + 1) := by
  refine (h.onBlockDone hok).loaded ?_
  obtain ⟨hnext, -, hload⟩ := onBlockDone_ok hok
  have hmarked : (loadNext cfg is b).1.loadedWeights (b + 1) = true := by
    unfold loadNext at hnext ⊢
    rw [if_pos hb] at hnext ⊢
    exact loadedWeights_of_loadBlock hnext
  rw [hload]
  unfold evictDone
  split
  · exact (Function.update_of_ne (Nat.succ_ne_self b) _ _).trans hmarked
  · exact hmarked

/-! ## Weights that stay, and zeros that stay -/

theorem loadBlock_keeps {b : Nat} {x : String} (h : is.device x = .weights) :
    (loadBlock cfg is b).1.device x = .weights := by
  unfold loadBlock
  cases cfg.lm.layers[b]? with
  | none => exact h
  | some li =>
    have hkeep := (loadTensors_spec cfg li.tensors is.device).2.2.1 x h
    simp only
    split
    · exact h
    · split <;> exact hkeep

theorem onBlockDone_keeps (hbudget : cfg.budgetBytes ≠ 0) {b : Nat} {x : String}
    (h : is.device x = .weights) (hok : (onBlockDone cfg is b).2 = true) :
    (onBlockDone cfg is b).1.device x = .weights := by
  obtain ⟨-, hdev, -⟩ := onBlockDone_ok hok
  have hkeep : keepResident cfg = true := bne_iff_ne.mpr hbudget
  rw [hdev, evictDone, if_neg (by rw [hkeep]; simp)]
  unfold loadNext
  split
  · exact loadBlock_keeps h
  · exact h

/-- A tensor of another block is not touched by a load. -/
theorem loadBlock_frame {b b' : Nat} {li : LayerInfo} {ref : TensorRef}
    (hli : cfg.lm.layers[b]? = some li) (href : ref ∈ li.tensors) (hne : b ≠ b') :
    (loadBlock cfg is b').1.device ref.name = is.device ref.name := by
  unfold loadBlock
  cases hli' : cfg.lm.layers[b']? with
  | none => rfl
  | some li' =>
    have hframe := (loadTensors_spec cfg li'.tensors is.device).2.1 ref.name
      fun r hr hname => hne (cfg.lm.disjoint b b' li li' hli hli' ref href r hr hname.symm)
    simp only
    split
    · rfl
    · split <;> exact hframe

theorem evictDone_zeros {b : Nat} {x : String} (h : is.device x = .zeros) :
    (evictDone cfg is b).device x = .zeros := by
  unfold evictDone
  split
  · unfold evictBlock
    cases cfg.lm.layers[b]? with
    | none => exact h
    | some li =>
      rcases evictTensors_spec cfg li.tensors is.device x with ⟨hzero, -⟩ | ⟨heq, -⟩
      · exact hzero
      · exact heq.trans h
  · exact h

/-- Zeros in block 0 outlast the callbacks of the other blocks. -/
theorem onBlockDone_zeros {b : Nat} {li : LayerInfo} {ref : TensorRef}
    (hli : cfg.lm.layers[0]? = some li) (href : ref ∈ li.tensors)
    (h : is.device ref.name = .zeros) (hok : (onBlockDone cfg is b).2 = true) :
    (onBlockDone cfg is b).1.device ref.name = .zeros := by
  obtain ⟨-, hdev, -⟩ := onBlockDone_ok hok
  rw [hdev]
  refine evictDone_zeros ?_
  unfold loadNext
  split
  · rw [loadBlock_frame hli href (Nat.succ_ne_zero b).symm, h]
  · exact h

/-- Without a budget the first callback clears block 0. -/
theorem onBlockDone_clears (hbudget : cfg.budgetBytes = 0) (hN : 0 < cfg.lm.blockCount)
    {li : LayerInfo} {ref : TensorRef} (hli : cfg.lm.layers[0]? = some li)
    (href : ref ∈ li.tensors) (hfit : cfg.tensorSize ref.name = some ref.size)
    (hok : (onBlockDone cfg is 0).2 = true) :
    (onBlockDone cfg is 0).1.device ref.name = .zeros := by
  obtain ⟨-, hdev, -⟩ := onBlockDone_ok hok
  have hkeep : keepResident cfg = false := by
    unfold keepResident
    rw [hbudget]
    rfl
  rw [hdev, evictDone, if_pos ⟨hN, hkeep⟩]
  simp only [evictBlock, hli]
  rcases evictTensors_spec cfg li.tensors (loadNext cfg is 0).1.device ref.name with
    ⟨hzero, -⟩ | ⟨-, hno⟩
  · exact hzero
  · exact absurd hfit (hno ref href rfl)

/-! ## Passes -/

theorem computing_succ {b : Nat} {is' : InferenceStreamer}
    (h : computing cfg is (b + 1) = some is') :
    ∃ mid, computing cfg is b = some mid ∧ (onBlockDone cfg mid b).2 = true ∧
      is' = (onBlockDone cfg mid b).1 := by
  unfold computing at h
  obtain ⟨mid, hmid, hout⟩ := Option.bind_eq_some_iff.mp h
  simp only at hout
  split at hout
  · rename_i hok
    exact ⟨mid, hmid, hok, (Option.some.inj hout).symm⟩
  · cases hout

/-- What a callback preserves, a pass preserves. -/
theorem computing_induction {P : InferenceStreamer → Prop}
    (hstep : ∀ is b, P is → (onBlockDone cfg is b).2 = true → P (onBlockDone cfg is b).1)
    (h : P is) {b : Nat} {is' : InferenceStreamer} (hb : computing cfg is b = some is') : P is' := by
  induction b generalizing is' with
  | zero =>
    cases hb
    exact h
  | succ b ih =>
    obtain ⟨mid, hmid, hok, rfl⟩ := computing_succ hb
    exact hstep mid b (ih hmid) hok

theorem passes_induction {P : InferenceStreamer → Prop}
    (hstep : ∀ is b, P is → (onBlockDone cfg is b).2 = true → P (onBlockDone cfg is b).1)
    (h : P is) {k : Nat} {is' : InferenceStreamer} (hk : passes cfg is k = some is') : P is' := by
  induction k generalizing is' with
  | zero =>
    cases hk
    exact h
  | succ k ih =>
    unfold passes at hk
    obtain ⟨mid, hmid, hcomp⟩ := Option.bind_eq_some_iff.mp hk
    exact computing_induction hstep (ih hmid) hcomp

/-- Nothing has been evicted before the first pass. -/
theorem prepareForInference_weights (h : ∀ x, is.device x = .weights) (x : String) :
    (prepareForInference cfg is).1.device x = .weights := by
  have houtput : ∀ x, (loadOutput cfg is).1.device x = .weights := by
    intro x
    unfold loadOutput
    split
    · exact h x
    · split
      · exact loadBlock_keeps (h x)
      · exact h x
  simp only [prepareForInference]
  split
  · exact h x
  · split
    · exact houtput x
    · have hfirst : (if 0 < cfg.lm.blockCount then loadBlock cfg (loadOutput cfg is).1 0
          else ((loadOutput cfg is).1, true)).1.device x = .weights := by
        split
        · exact loadBlock_keeps (houtput x)
        · exact houtput x
      generalize (if 0 < cfg.lm.blockCount then loadBlock cfg (loadOutput cfg is).1 0
        else ((loadOutput cfg is).1, true)) = first at hfirst ⊢
      split <;> exact hfirst

/-- Any number of passes compute every block with its weights exactly when there
is a budget, or at most one pass, or nothing in block 0 to evict. -/
theorem computesLoaded_iff {k : Nat} {is₀ : InferenceStreamer}
    (hprep : prepareForInference cfg newInferenceStreamer = (is₀, true))
    (hpasses : (passes cfg is₀ k).isSome = true) :
    ComputesLoaded cfg is₀ k ↔
      cfg.budgetBytes ≠ 0 ∨ k ≤ 1 ∨ cfg.lm.blockCount = 0 ∨ ¬Evictable cfg 0 := by
  have hweights : ∀ x, is₀.device x = .weights := by
    have h : ∀ x, (prepareForInference cfg newInferenceStreamer).1.device x = .weights :=
      prepareForInference_weights fun _ => rfl
    rw [hprep] at h
    exact h
  have hinv : ZerosUnloaded cfg is₀ := fun x hx => by
    rw [hweights x] at hx
    cases hx
  have hinvs : ∀ is b, ZerosUnloaded cfg is → (onBlockDone cfg is b).2 = true →
      ZerosUnloaded cfg (onBlockDone cfg is b).1 := fun _ _ h hok => h.onBlockDone hok
  constructor
  · intro hall
    by_contra hnot
    simp only [not_or, not_not, not_le] at hnot
    obtain ⟨hbudget, hk, hN, li, hli, ref, href, hfit⟩ := hnot
    have hpos := Nat.pos_of_ne_zero hN
    -- the state after the first pass, which is computed with zeros next
    obtain ⟨last, hlast⟩ := Option.isSome_iff_exists.mp hpasses
    have hfirst : ∃ is', passes cfg is₀ 1 = some is' := by
      have hle : ∀ m n, m ≤ n → (passes cfg is₀ n).isSome = true →
          (passes cfg is₀ m).isSome = true := by
        intro m n hmn
        induction hmn with
        | refl => exact id
        | step _ ih =>
          intro hn
          refine ih ?_
          obtain ⟨out, hout⟩ := Option.isSome_iff_exists.mp hn
          unfold passes at hout
          obtain ⟨mid, hmid, -⟩ := Option.bind_eq_some_iff.mp hout
          exact Option.isSome_of_eq_some hmid
      exact Option.isSome_iff_exists.mp (hle 1 k hk.le hpasses)
    obtain ⟨is₁, his₁⟩ := hfirst
    have hpass : computing cfg is₀ cfg.lm.blockCount = some is₁ := his₁
    have hzeros : ∀ b, 0 < b → ∀ is', computing cfg is₀ b = some is' →
        is'.device ref.name = .zeros := by
      intro b hb
      induction b with
      | zero => omega
      | succ b ih =>
        intro is' his'
        obtain ⟨mid, hmid, hok, rfl⟩ := computing_succ his'
        cases b with
        | zero => exact onBlockDone_clears hbudget hpos hli href hfit hok
        | succ b => exact onBlockDone_zeros hli href (ih (Nat.succ_pos b) mid hmid) hok
    have hloaded := hall 1 hk 0 hpos is₁ (by rw [his₁]; rfl) li hli ref href
    rw [hzeros _ hpos is₁ hpass] at hloaded
    cases hloaded
  · intro hcond j hj b hb is' his'
    obtain ⟨start, hstart, hcomp⟩ := Option.bind_eq_some_iff.mp his'
    have hinvStart : ZerosUnloaded cfg start := passes_induction hinvs hinv hstart
    have hinv' : ZerosUnloaded cfg is' := computing_induction hinvs hinvStart hcomp
    cases b with
    | succ b =>
      obtain ⟨mid, hmid, hok, rfl⟩ := computing_succ hcomp
      exact loaded_of_onBlockDone (computing_induction hinvs hinvStart hmid) hb hok
    | zero =>
      intro li hli ref href
      rcases hcond with hbudget | hk | hN | hnone
      · have hkeeps : ∀ x, start.device x = .weights := fun x =>
          passes_induction (P := fun is => is.device x = .weights)
            (fun _ _ h hok => onBlockDone_keeps hbudget h hok) (hweights x) hstart
        cases hcomp
        exact hkeeps ref.name
      · have hj0 : j = 0 := by omega
        subst hj0
        cases hstart
        cases hcomp
        exact hweights ref.name
      · omega
      · by_contra hne
        obtain ⟨b', li', hli', ⟨ref', href', hname, hfit⟩, -⟩ :=
          hinv' ref.name (Content.eq_zeros hne)
        have hb' := cfg.lm.disjoint b' 0 li' li hli' hli ref' href' ref href hname
        subst hb'
        exact hnone ⟨li', hli', ref', href', hfit⟩

/-- Two blocks of one tensor each. -/
def twoBlocks (budgetBytes : Nat) : StreamConfig where
  lm := {
    layers := [⟨"blk.0", [⟨"blk.0.attn_q.weight", 0, 4⟩]⟩, ⟨"blk.1", [⟨"blk.1.attn_q.weight", 4, 4⟩]⟩]
    tensorDataBase := 32
    blockCount := 2
    blockCount_le := le_refl 2
    disjoint := by
      intro b b' li li' hli hli' ref href ref' href' hname
      rcases b with _ | _ | b <;> rcases b' with _ | _ | b' <;> simp at hli hli' <;> subst hli hli'
      · rfl
      · rw [List.mem_singleton.mp href, List.mem_singleton.mp href'] at hname
        exact absurd hname (by decide)
      · rw [List.mem_singleton.mp href, List.mem_singleton.mp href'] at hname
        exact absurd hname (by decide)
      · rfl }
  budgetBytes := budgetBytes
  tensorSize := fun _ => some 4
  readAt := fun _ _ => true

/-- Two passes with a budget. -/
theorem computesLoaded_iff_twoBlocks :
    ComputesLoaded (twoBlocks 8) (prepareForInference (twoBlocks 8) newInferenceStreamer).1 2 ↔
      (twoBlocks 8).budgetBytes ≠ 0 ∨ 2 ≤ 1 ∨ (twoBlocks 8).lm.blockCount = 0 ∨
        ¬Evictable (twoBlocks 8) 0 :=
  computesLoaded_iff (Prod.ext rfl (by decide)) (by decide)

/-- Two passes with budget 0: the second computes block 0 with zeros. -/
theorem second_pass_without_weights :
    (prepareForInference (twoBlocks 0) newInferenceStreamer).2 = true ∧
      (passes (twoBlocks 0) (prepareForInference (twoBlocks 0) newInferenceStreamer).1 2).isSome =
        true ∧
      ¬ComputesLoaded (twoBlocks 0) (prepareForInference (twoBlocks 0) newInferenceStreamer).1 2 := by
  refine ⟨by decide, by decide, fun h => ?_⟩
  have hsome : ((passes (twoBlocks 0) (prepareForInference (twoBlocks 0) newInferenceStreamer).1
      1).bind (computing (twoBlocks 0) · 0)).isSome = true := by decide
  obtain ⟨is', his'⟩ := Option.isSome_iff_exists.mp hsome
  have hloaded := h 1 Nat.one_lt_two 0 Nat.two_pos is' his' _ rfl _ List.mem_cons_self
  have hzeros : ((passes (twoBlocks 0) (prepareForInference (twoBlocks 0) newInferenceStreamer).1
      1).bind (computing (twoBlocks 0) · 0)).map (fun is => is.device "blk.0.attn_q.weight") =
      some .zeros := by decide
  rw [his', Option.map_some, hloaded] at hzeros
  cases hzeros

end InferenceStreamer

end Prismalama.Streaming
