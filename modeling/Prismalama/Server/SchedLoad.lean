import Mathlib.Data.UInt
import Prismalama.Ollama.DiskCache

/-!
# Loading a runner, and using it again (`server/sched.go`)

`load` adjusts the options of a request before it launches a server: the batch size, the mapping
of the file and, after a failed load, the context. The runner keeps the adjusted options, and
`needsReload` compares those of the next request with them. When a load asks for room to be made,
the server it has started is kept, and the next call finds it; that call does not read the
metadata of the model.
-/

namespace Prismalama.Server.Load

open Prismalama.Lib Prismalama.Ollama

/-! ## Options -/

/-- `api.Runner` -/
structure Runner where
  numCtx : Int
  numBatch : Int
  numGPU : Int
  mainGPU : Option Int
  useMMap : Option Bool
  numThread : Int
  draftNumPredict : Int
  deriving DecidableEq

attribute [ext] Runner

structure Model where
  modelPath : GoString
  modelFamily : GoString
  /-- `IsMLX` -/
  isMLX : Bool
  /-- `CheckCapabilities` with `CapabilityCompletion` and `CapabilityVision` -/
  completion : Bool
  vision : Bool
  /-- The capabilities of the configuration have `image`. -/
  image : Bool
  adapterPaths : List GoString
  projectorPaths : List GoString
  deriving DecidableEq

/-- What is read of the metadata of a model. -/
structure GGML where
  /-- `int(f.KV().ContextLength())` -/
  contextLength : Int
  blockCount : UInt64

structure DeviceInfo where
  library : GoString
  freeMemory : UInt64
  totalMemory : UInt64
  integrated : Bool

structure SystemInfo where
  totalMemory : UInt64
  freeMemory : UInt64

/-- What a call of `load` finds: the machine, the other runners, and how it goes. -/
structure Machine where
  goos : GoString
  systemInfo : SystemInfo
  gpus : List DeviceInfo
  /-- The devices that are selected for a predicted size, and whether it is a single one. -/
  placement : UInt64 → Runner → List DeviceInfo × Bool
  /-- `llm.PredictServerVRAM`, for a context -/
  predictServerVRAM : Int → UInt64
  /-- `llm.LlamaServerFlashAttention` is `FlashAttentionDisabled`. -/
  flashAttentionDisabled : List DeviceInfo → Bool
  modelFileSize : UInt64
  loadedMmapModelSize : UInt64
  loadedCount : Nat
  /-- `OLLAMA_NUM_PARALLEL` -/
  numParallel : Int
  requireFull : Bool

/-- How the server's `Load` goes. -/
inductive Outcome
  | loads
  | loadRequiredFull
  | outOfMemory
  | fails
  deriving DecidableEq

structure LlmRequest where
  model : Model
  opts : Runner
  numCtxAuto : Bool
  numBatchAuto : Bool
  useMMapAuto : Bool
  contextShift : Bool
  shift : Option Bool
  oomRetryAttempted : Bool
  deriving DecidableEq

/-- A server that was started, by its context. -/
structure LlamaServer where
  contextLength : Int
  deriving DecidableEq

structure RunnerRef where
  model : Model
  options : Runner
  isImagegen : Bool
  llama : LlamaServer
  numCtxAuto : Bool
  numBatchAuto : Bool
  useMMapAuto : Bool
  contextShift : Bool
  trainContext : Int
  deriving DecidableEq

/-! ## Contexts -/

def contextShiftSmallContextLimit : Int := 8192

def resolveContextShift (shift : Option Bool) (numCtx : Int) : Bool :=
  match shift with
  | some shift => shift
  | none => decide (0 < numCtx ∧ numCtx < contextShiftSmallContextLimit)

def modelTrainContext : Option GGML → Int
  | none => 0
  | some f => f.contextLength

def effectiveContext (numCtx trainCtx : Int) : Int :=
  if 0 < trainCtx ∧ trainCtx < numCtx then trainCtx else numCtx

def effectiveModelContext (numCtx : Int) (f : Option GGML) : Int :=
  effectiveContext numCtx (modelTrainContext f)

def effectiveLlamaServerContext (numCtx : Int) (f : Option GGML) (numParallel : Int) : Int :=
  effectiveModelContext numCtx f * max numParallel 1

def nextLowerAutoNumCtx (numCtx : Int) : Option Int :=
  if 32768 < numCtx then some 32768 else if 4096 < numCtx then some 4096 else none

/-! ## `getRunner` -/

/-- `kvSlotBudget` -/
def kvSlotBudget : Int := 32768

/-- `applyAdaptiveNumCtxForParallel`; `balanced` is the memory policy. -/
def applyAdaptiveNumCtxForParallel (balanced : Bool) (numParallel numCtx : Int) : Int :=
  if balanced = false then numCtx
  else
    let np := if numParallel < 1 then 1 else numParallel
    if numCtx * np ≤ kvSlotBudget then numCtx
    else
      let newCtx := max 4 (kvSlotBudget / np)
      if newCtx < numCtx then newCtx else numCtx

/-- The request that `getRunner` makes. -/
def newRequest (balanced : Bool) (numParallel : Int) (m : Model) (opts : Runner)
    (numCtxAuto numBatchAuto : Bool) (shift : Option Bool) : LlmRequest :=
  let numCtx := if opts.numCtx < 4 then 4 else opts.numCtx
  let numCtx := applyAdaptiveNumCtxForParallel balanced numParallel numCtx
  let numCtx := if m.vision = true then max numCtx 2048 else numCtx
  { model := m
    opts := { opts with numCtx := numCtx }
    numCtxAuto := numCtxAuto
    numBatchAuto := numBatchAuto
    useMMapAuto := false
    contextShift := if m.modelPath ≠ [] then resolveContextShift shift numCtx else false
    shift := shift
    oomRetryAttempted := false }

/-! ## Memory -/

def gpusForPlacement (gpus : List DeviceInfo) (mainGPU : Option Int) : List DeviceInfo :=
  match mainGPU with
  | none => gpus
  | some i =>
    if 0 ≤ i then
      match gpus[i.toNat]? with
      | some gpu => [gpu]
      | none => gpus
    else gpus

def availableMemoryForGPU (systemInfo : SystemInfo) (gpu : DeviceInfo) : UInt64 :=
  if gpu.integrated = true ∧ 0 < systemInfo.freeMemory ∧ systemInfo.freeMemory < gpu.freeMemory then
    systemInfo.freeMemory
  else gpu.freeMemory

def availableMemoryForLoad (systemInfo : SystemInfo) (gpus : List DeviceInfo) : UInt64 :=
  let sharedGPUFree := ((gpus.filter (·.integrated)).map DeviceInfo.freeMemory).sum
  let discreteGPUFree := ((gpus.filter (!·.integrated)).map DeviceInfo.freeMemory).sum
  if 0 < systemInfo.freeMemory ∧ 0 < sharedGPUFree ∧ systemInfo.freeMemory < sharedGPUFree then
    discreteGPUFree + systemInfo.freeMemory
  else (gpus.map DeviceInfo.freeMemory).sum

/-- `availableMemoryForPlacement`, the first result -/
def availableMemoryForPlacement (systemInfo : SystemInfo) (gpus : List DeviceInfo)
    (opts : Runner) : UInt64 :=
  match gpusForPlacement gpus opts.mainGPU, opts.mainGPU with
  | [gpu], some _ => availableMemoryForGPU systemInfo gpu
  | gpus, _ => availableMemoryForLoad systemInfo gpus

/-! ## The batch size -/

def llamaServerGenerationBatchDefault : Int := 512

def llamaServerGenerationBatchConstrained : Int := 256

def llamaServerGenerationBatchMedium : Int := 1024

def llamaServerGenerationBatchLarge : Int := 2048

def generationBatchForContext (effectiveCtx : Int) : Int :=
  if 32768 < effectiveCtx then llamaServerGenerationBatchLarge
  else if 4096 < effectiveCtx then llamaServerGenerationBatchMedium
  else llamaServerGenerationBatchDefault

def nextLowerGenerationBatch (batch : Int) : Int :=
  if llamaServerGenerationBatchMedium < batch then llamaServerGenerationBatchMedium
  else llamaServerGenerationBatchDefault

def generationBatchSurcharge (batch : Int) : UInt64 :=
  if llamaServerGenerationBatchLarge ≤ batch then 2147483648
  else if llamaServerGenerationBatchMedium ≤ batch then 805306368
  else 0

def generationBatchSurchargeForCompletion (completion : Bool) (batch : Int) : UInt64 :=
  if completion = true then generationBatchSurcharge batch else 0

def generationBatchHasHeadroom (batch : Int) (predictedVRAM availableMemory : UInt64) : Bool :=
  if llamaServerGenerationBatchLarge ≤ batch then
    decide (predictedVRAM ≤ availableMemory * 60 / 100)
  else if llamaServerGenerationBatchMedium ≤ batch then
    decide (predictedVRAM ≤ availableMemory * 75 / 100)
  else true

def generationBatchFits (batch : Int) (predictedVRAM availableMemory : UInt64) : Bool :=
  if predictedVRAM = 0 ∨ availableMemory = 0 then true
  else if availableMemory * 80 / 100 < predictedVRAM then false
  else if generationBatchHasHeadroom batch predictedVRAM availableMemory = false then false
  else decide (generationBatchSurcharge batch ≤ availableMemory * 80 / 100 - predictedVRAM)

def hasCUDADevice (gpus : List DeviceInfo) : Bool := gpus.any fun gpu => gpu.library == lit "CUDA"

def constrainedCUDAWithoutFlashAttention (effectiveCtx : Int) (gpus : List DeviceInfo) : Bool :=
  decide (4096 < effectiveCtx) && gpus.any fun gpu =>
    gpu.library == lit "CUDA" &&
      let memory := if gpu.freeMemory = 0 ∨ 0 < gpu.totalMemory ∧ gpu.totalMemory < gpu.freeMemory
        then gpu.totalMemory else gpu.freeMemory
      decide (0 < memory ∧ memory ≤ 8589934592)

/-- The loop of `automaticGenerationBatch`. Three sizes are all there are. -/
def lowerBatch (predictedVRAM availableMemory : UInt64) : Nat → Int → Int
  | 0, batch => batch
  | n + 1, batch =>
    if llamaServerGenerationBatchDefault < batch ∧
        generationBatchFits batch predictedVRAM availableMemory = false then
      lowerBatch predictedVRAM availableMemory n (nextLowerGenerationBatch batch)
    else batch

def automaticGenerationBatch (effectiveCtx : Int) (predictedVRAM availableMemory : UInt64)
    (flashAttentionDisabled : Bool) (gpus : List DeviceInfo) : Int :=
  if flashAttentionDisabled = true ∧ hasCUDADevice gpus = true then
    if constrainedCUDAWithoutFlashAttention effectiveCtx gpus = true then
      llamaServerGenerationBatchConstrained
    else llamaServerGenerationBatchDefault
  else lowerBatch predictedVRAM availableMemory 2 (generationBatchForContext effectiveCtx)

def LlmRequest.applyAutomaticGenerationBatch (req : LlmRequest) (completion : Bool)
    (effectiveCtx : Int) (predictedVRAM availableMemory : UInt64) (flashAttentionDisabled : Bool)
    (gpus : List DeviceInfo) : LlmRequest :=
  if completion = false ∨ req.numBatchAuto = false then req
  else
    { req with
      opts.numBatch := automaticGenerationBatch effectiveCtx predictedVRAM availableMemory
        flashAttentionDisabled gpus }

/-! ## The mapping of the file -/

def hasDeviceLibrary (gpus : List DeviceInfo) (library : GoString) : Bool :=
  gpus.any fun gpu => DiskCache.equalFold gpu.library library

def allDevicesLibrary (gpus : List DeviceInfo) (library : GoString) : Bool :=
  decide (gpus ≠ []) && gpus.all fun gpu => DiskCache.equalFold gpu.library library

def allDiscreteGPUs (gpus : List DeviceInfo) : Bool :=
  decide (gpus.length ≠ 0) && gpus.all fun gpu => !gpu.integrated

/-- `disableMmapDefaultReason`; there is a reason. -/
def disableMmapDefaultReason (goos : GoString) (opts : Runner) (gpus : List DeviceInfo)
    (blockCount predictedVRAM availableVRAM : UInt64) : Bool :=
  if opts.useMMap ≠ none then false
  else if opts.numGPU = 0 ∨ gpus.length = 0 ∨ allDevicesLibrary gpus (lit "cpu") = true then true
  else if goos = lit "windows" ∧ hasDeviceLibrary gpus (lit "cuda") = true then true
  else if hasDeviceLibrary gpus (lit "metal") = true then
    decide (0 < opts.numGPU ∧ 0 < blockCount ∧ UInt64.ofInt opts.numGPU < blockCount + 1) ||
      decide (opts.numGPU < 0 ∧ 0 < predictedVRAM ∧ 0 < availableVRAM ∧
        availableVRAM < predictedVRAM)
  else false

def mmapHostPressureHeadroom (totalMemory : UInt64) : UInt64 :=
  if totalMemory = 0 then 8000000000 else max 8000000000 (totalMemory / 10)

def disableMmapForHostPressure (goos : GoString) (opts : Runner) (systemInfo : SystemInfo)
    (gpus : List DeviceInfo) (modelSize loadedMmapSize predictedVRAM availableVRAM : UInt64) :
    Bool :=
  if opts.useMMap ≠ none ∨ goos ≠ lit "linux" ∨ modelSize = 0 ∨ systemInfo.freeMemory = 0 ∨
      allDiscreteGPUs gpus = false then false
  else if predictedVRAM = 0 ∨ availableVRAM = 0 ∨ availableVRAM * 80 / 100 < predictedVRAM then false
  else
    decide (systemInfo.freeMemory <
      modelSize + loadedMmapSize + mmapHostPressureHeadroom systemInfo.totalMemory)

/-- `applyLlamaServerMmapDefaults`, the request; the launch options get the mapping from it. -/
def applyLlamaServerMmapDefaults (req : LlmRequest) (env : Machine) (launchOpts : Runner)
    (gpus : List DeviceInfo) (f : GGML) (numParallel : Int) : LlmRequest :=
  let predictedCtx := effectiveLlamaServerContext req.opts.numCtx (some f) numParallel
  let predictedVRAM := env.predictServerVRAM predictedCtx
  let availableVRAM := availableMemoryForPlacement env.systemInfo gpus launchOpts
  if disableMmapDefaultReason env.goos req.opts gpus f.blockCount predictedVRAM availableVRAM = true ∨
      disableMmapForHostPressure env.goos req.opts env.systemInfo
        (gpusForPlacement gpus launchOpts.mainGPU) env.modelFileSize env.loadedMmapModelSize
        predictedVRAM availableVRAM = true then
    { req with opts.useMMap := some false, useMMapAuto := true }
  else req

/-! ## `load` -/

/-- The families that are not safe with parallel requests. -/
def sequentialFamilies : List GoString :=
  ["mllama", "qwen3vl", "qwen3vlmoe", "qwen35", "qwen35moe", "qwen3next", "lfm2", "lfm2moe",
    "nemotron_h", "nemotron_h_moe", "nemotron_h_omni"].map lit

def numParallelFor (env : Machine) (m : Model) : Int :=
  if m.completion = false ∨ m.modelFamily ∈ sequentialFamilies then 1 else max env.numParallel 1

def explicitPartialGPUOffload (opts : Runner) (f : GGML) : Bool :=
  decide (0 < opts.numGPU) && decide (UInt64.ofInt opts.numGPU < f.blockCount + 1)

/-- `llm.LoadModel`; there is no file of the empty name. -/
def loadModel (files : GoString → Option GGML) (modelPath : GoString) : Option GGML :=
  if modelPath = [] then none else files modelPath

/-- `selectLlamaServerPlacement`: a single device becomes the main one. -/
def selectLlamaServerPlacement (env : Machine) (predictedVRAM : UInt64) (opts : Runner) :
    List DeviceInfo × Runner :=
  ((env.placement predictedVRAM opts).1,
    if (env.placement predictedVRAM opts).2 = true then { opts with mainGPU := some 0 } else opts)

/-- The options of a call that did not set them. -/
def noOptions : Runner := ⟨0, 0, 0, none, none, 0, 0⟩

inductive LoadResult
  | failed
  /-- `true`: room has to be made. -/
  | retry
  | loaded (r : RunnerRef)

/-- `reduceAutoNumCtxForLoadOOM`, the request -/
def LlmRequest.reduceAutoNumCtxForLoadOOM (req : LlmRequest) (env : Machine) (f : Option GGML)
    (numParallel : Int) (gpus : List DeviceInfo) (launchOpts : Runner) : Option LlmRequest :=
  if req.numCtxAuto = false then none
  else
    match nextLowerAutoNumCtx (effectiveModelContext req.opts.numCtx f) with
    | none => none
    | some newNumCtx =>
      if req.opts.numCtx ≤ newNumCtx then none
      else
        let req := { req with opts.numCtx := newNumCtx }
        let predictedCtx := effectiveLlamaServerContext req.opts.numCtx f numParallel
        some (req.applyAutomaticGenerationBatch req.model.completion predictedCtx
          (env.predictServerVRAM predictedCtx)
          (availableMemoryForPlacement env.systemInfo gpus launchOpts)
          (env.flashAttentionDisabled gpus) gpus)

/-- `load` from the call of the server's `Load` on. -/
def finishLoad (env : Machine) (f : Option GGML) (numParallel : Int) (gpus : List DeviceInfo)
    (launchOpts : Runner) (req : LlmRequest) (llama : LlamaServer) :
    Outcome → LlmRequest × Option LlamaServer × LoadResult
  | .loadRequiredFull =>
    if env.requireFull = false then (req, none, .failed) else (req, some llama, .retry)
  | .outOfMemory =>
    if req.oomRetryAttempted = true then (req, none, .failed)
    else
      match req.reduceAutoNumCtxForLoadOOM env f numParallel gpus launchOpts with
      | some req => ({ req with oomRetryAttempted := true }, none, .retry)
      | none =>
        if 0 < env.loadedCount then ({ req with oomRetryAttempted := true }, none, .retry)
        else (req, none, .failed)
  | .fails => (req, none, .failed)
  | .loads =>
    let req :=
      if req.model.modelPath ≠ [] ∧ 0 < llama.contextLength then
        { req with
          opts.numCtx := llama.contextLength
          contextShift := resolveContextShift req.shift llama.contextLength }
      else req
    (req, none, .loaded
      { model := req.model
        options := req.opts
        isImagegen := req.model.image
        llama := llama
        numCtxAuto := req.numCtxAuto
        numBatchAuto := req.numBatchAuto
        useMMapAuto := req.useMMapAuto
        contextShift := req.contextShift
        trainContext := modelTrainContext f })

/-- `load`: the request, `activeLoading` and the result. A server has the context of the options
it is launched with; `starts` is whether it can be started. -/
def load (files : GoString → Option GGML) (env : Machine) (activeLoading : Option LlamaServer)
    (req : LlmRequest) (starts : Bool) (how : Outcome) :
    LlmRequest × Option LlamaServer × LoadResult :=
  let numParallel := numParallelFor env req.model
  match activeLoading with
  | some llama => finishLoad env none numParallel env.gpus noOptions req llama how
  | none =>
    if req.model.isMLX = true then
      if starts = false then (req, none, .failed)
      else finishLoad env none numParallel env.gpus noOptions req ⟨req.opts.numCtx⟩ how
    else
      match loadModel files req.model.modelPath with
      | none => (req, none, .failed)
      | some f =>
        let predictedCtx := effectiveLlamaServerContext req.opts.numCtx (some f) numParallel
        let predicted := env.predictServerVRAM predictedCtx
        let loadGpus := (selectLlamaServerPlacement env predicted req.opts).1
        let launchOpts := (selectLlamaServerPlacement env predicted req.opts).2
        let available := availableMemoryForPlacement env.systemInfo loadGpus launchOpts
        let req := req.applyAutomaticGenerationBatch req.model.completion predictedCtx predicted
          available (env.flashAttentionDisabled loadGpus) loadGpus
        let launchOpts := { launchOpts with numBatch := req.opts.numBatch }
        let predictedForLoad := predicted +
          generationBatchSurchargeForCompletion req.model.completion launchOpts.numBatch
        if env.requireFull = true ∧ explicitPartialGPUOffload launchOpts f = false ∧
            0 < env.loadedCount ∧ loadGpus ≠ [] ∧ available * 80 / 100 < predictedForLoad then
          (req, none, .retry)
        else
          let req := applyLlamaServerMmapDefaults req env launchOpts loadGpus f numParallel
          let launchOpts := { launchOpts with useMMap := req.opts.useMMap }
          let numCtx := effectiveModelContext launchOpts.numCtx (some f)
          let req := { req with contextShift := resolveContextShift req.shift numCtx }
          if starts = false then (req, none, .failed)
          else finishLoad env (some f) numParallel loadGpus launchOpts req ⟨numCtx⟩ how

/-! ## `needsReload` -/

/-- The `optsNew` of `needsReload`, up to the number of layers. -/
def RunnerRef.optsNew (runner : RunnerRef) (req : LlmRequest) : Runner :=
  let optsExisting := runner.options
  let optsNew : Runner := { req.opts with numCtx := effectiveContext req.opts.numCtx runner.trainContext }
  let optsNew : Runner := if runner.numCtxAuto = true ∧ req.numCtxAuto = true
    then { optsNew with numCtx := optsExisting.numCtx } else optsNew
  let optsNew : Runner := if runner.numBatchAuto = true ∧ req.numBatchAuto = true
    then { optsNew with numBatch := optsExisting.numBatch } else optsNew
  if runner.useMMapAuto = true ∧ optsNew.useMMap = none
    then { optsNew with useMMap := optsExisting.useMMap } else optsNew

/-- `needsReload`, of a runner that has its options; `ping` is whether it answers. -/
def RunnerRef.needsReload (runner : RunnerRef) (req : LlmRequest) (ping : Bool) : Bool :=
  if runner.isImagegen ≠ req.model.image then true
  else
    let optsExisting := runner.options
    let optsNew := runner.optsNew req
    let optsExisting := if optsNew.numGPU < 0 then { optsExisting with numGPU := -1 }
      else optsExisting
    let optsNew := if optsNew.numGPU < 0 then { optsNew with numGPU := -1 } else optsNew
    let contextShift := if req.model.modelPath ≠ [] then resolveContextShift req.shift optsNew.numCtx
      else req.contextShift
    if runner.contextShift ≠ contextShift then true
    else
      decide (runner.model.adapterPaths ≠ req.model.adapterPaths) ||
        decide (runner.model.projectorPaths ≠ req.model.projectorPaths) ||
        (!runner.model.isMLX && decide (optsExisting ≠ optsNew)) || !ping

/-! ## The calls of one request -/

/-- The request and the server that is kept, between two calls for the request `req₀`. The calls
find the machine in any state. -/
inductive Calls (files : GoString → Option GGML) (req₀ : LlmRequest) :
    LlmRequest → Option LlamaServer → Prop
  | start : Calls files req₀ req₀ none
  | retry {req req' : LlmRequest} {active active' : Option LlamaServer} (env : Machine)
      (starts : Bool) (how : Outcome) : Calls files req₀ req active →
      load files env active req starts how = (req', active', .retry) → Calls files req₀ req' active'

/-- The context the model was trained with, if the server is started from its file. -/
def launchTrainContext (files : GoString → Option GGML) (m : Model) : Int :=
  if m.isMLX = true then 0 else modelTrainContext (loadModel files m.modelPath)

/-- What the calls leave as it was. -/
structure Same (req₀ req : LlmRequest) : Prop where
  model : req.model = req₀.model
  numCtxAuto : req.numCtxAuto = req₀.numCtxAuto
  numBatchAuto : req.numBatchAuto = req₀.numBatchAuto
  shift : req.shift = req₀.shift
  numCtx : req₀.numCtxAuto = false → req.opts.numCtx = req₀.opts.numCtx
  numBatch : req₀.numBatchAuto = false → req.opts.numBatch = req₀.opts.numBatch
  useMMap : req.useMMapAuto = false → req.opts.useMMap = req₀.opts.useMMap
  useMMapAuto : req.useMMapAuto = true → req₀.opts.useMMap = none
  rest : req.opts.numGPU = req₀.opts.numGPU ∧ req.opts.mainGPU = req₀.opts.mainGPU ∧
    req.opts.numThread = req₀.opts.numThread ∧ req.opts.draftNumPredict = req₀.opts.draftNumPredict
  numCtx_pos : 0 < req.opts.numCtx
  contextShift : req₀.model.modelPath = [] → req.contextShift = req₀.contextShift

theorem Same.applyAutomaticGenerationBatch {req₀ req : LlmRequest} (h : Same req₀ req)
    (completion : Bool) (effectiveCtx : Int) (predictedVRAM availableMemory : UInt64)
    (flashAttentionDisabled : Bool) (gpus : List DeviceInfo) :
    Same req₀ (req.applyAutomaticGenerationBatch completion effectiveCtx predictedVRAM
      availableMemory flashAttentionDisabled gpus) ∧
    (req.applyAutomaticGenerationBatch completion effectiveCtx predictedVRAM
      availableMemory flashAttentionDisabled gpus).opts.numCtx = req.opts.numCtx := by
  unfold LlmRequest.applyAutomaticGenerationBatch
  split
  · exact ⟨h, rfl⟩
  · next hauto =>
    have hbatch : req₀.numBatchAuto ≠ false := by
      rw [← h.numBatchAuto]
      exact fun heq => hauto (.inr heq)
    exact ⟨⟨h.model, h.numCtxAuto, h.numBatchAuto, h.shift, h.numCtx,
      fun heq => absurd heq hbatch, h.useMMap, h.useMMapAuto, h.rest, h.numCtx_pos,
      h.contextShift⟩, rfl⟩

theorem Same.applyLlamaServerMmapDefaults {req₀ req : LlmRequest} (h : Same req₀ req)
    (env : Machine) (launchOpts : Runner) (gpus : List DeviceInfo) (f : GGML) (numParallel : Int) :
    Same req₀ (applyLlamaServerMmapDefaults req env launchOpts gpus f numParallel) ∧
    (applyLlamaServerMmapDefaults req env launchOpts gpus f numParallel).opts.numCtx =
      req.opts.numCtx := by
  unfold Load.applyLlamaServerMmapDefaults
  dsimp only
  split
  · next hreason =>
    -- only a request without a choice of its own gets one
    have hnone : req.opts.useMMap = none := by
      by_contra hsome
      rcases hreason with hreason | hreason
      · rw [disableMmapDefaultReason, if_pos hsome] at hreason
        cases hreason
      · rw [disableMmapForHostPressure, if_pos (.inl hsome)] at hreason
        cases hreason
    have hnone₀ : req₀.opts.useMMap = none := by
      cases hauto : req.useMMapAuto with
      | true => exact h.useMMapAuto hauto
      | false => exact (h.useMMap hauto).symm.trans hnone
    exact ⟨⟨h.model, h.numCtxAuto, h.numBatchAuto, h.shift, h.numCtx, h.numBatch,
      (fun heq => nomatch heq), fun _ => hnone₀, h.rest, h.numCtx_pos, h.contextShift⟩, rfl⟩
  · exact ⟨h, rfl⟩

theorem nextLowerAutoNumCtx_pos {numCtx newNumCtx : Int}
    (h : nextLowerAutoNumCtx numCtx = some newNumCtx) : 0 < newNumCtx := by
  unfold nextLowerAutoNumCtx at h
  split at h
  · cases h
    decide
  · split at h
    · cases h
      decide
    · cases h

theorem Same.reduceAutoNumCtxForLoadOOM {req₀ req req' : LlmRequest} (h : Same req₀ req)
    {env : Machine} {f : Option GGML} {numParallel : Int} {gpus : List DeviceInfo}
    {launchOpts : Runner}
    (hreduce : req.reduceAutoNumCtxForLoadOOM env f numParallel gpus launchOpts = some req') :
    Same req₀ req' := by
  unfold LlmRequest.reduceAutoNumCtxForLoadOOM at hreduce
  split at hreduce
  · cases hreduce
  · next hauto =>
    cases hnext : nextLowerAutoNumCtx (effectiveModelContext req.opts.numCtx f) with
    | none =>
      rw [hnext] at hreduce
      cases hreduce
    | some newNumCtx =>
      rw [hnext] at hreduce
      dsimp only at hreduce
      split at hreduce
      · cases hreduce
      · cases hreduce
        have hctx : req₀.numCtxAuto ≠ false := by
          rw [← h.numCtxAuto]
          exact hauto
        refine (Same.applyAutomaticGenerationBatch ?_ _ _ _ _ _ _).1
        exact ⟨h.model, h.numCtxAuto, h.numBatchAuto, h.shift, fun heq => absurd heq hctx,
          h.numBatch, h.useMMap, h.useMMapAuto, h.rest, nextLowerAutoNumCtx_pos hnext,
          h.contextShift⟩

theorem Same.shifted {req₀ req : LlmRequest} {contextShift : Bool}
    (hpath : req₀.model.modelPath ≠ []) (h : Same req₀ req) :
    Same req₀ { req with contextShift := contextShift } :=
  ⟨h.model, h.numCtxAuto, h.numBatchAuto, h.shift, h.numCtx, h.numBatch, h.useMMap, h.useMMapAuto,
    h.rest, h.numCtx_pos, fun hnil => absurd hnil hpath⟩

theorem Same.attempted {req₀ req : LlmRequest} (h : Same req₀ req) :
    Same req₀ { req with oomRetryAttempted := true } :=
  ⟨h.model, h.numCtxAuto, h.numBatchAuto, h.shift, h.numCtx, h.numBatch, h.useMMap, h.useMMapAuto,
    h.rest, h.numCtx_pos, h.contextShift⟩

/-! ## How a call ends -/

section Finish

variable {env : Machine} {f : Option GGML} {numParallel : Int} {gpus : List DeviceInfo}
  {launchOpts : Runner} {req₀ req req' : LlmRequest} {llama : LlamaServer} {how : Outcome}
  {active : Option LlamaServer}

/-- A server is kept with the request it was launched for. -/
theorem finishLoad_retry (h : Same req₀ req) (hfinish : finishLoad env f numParallel gpus launchOpts
    req llama how = (req', active, .retry)) :
    Same req₀ req' ∧ (active = none ∨ active = some llama ∧ req' = req) := by
  cases how with
  | loads => cases hfinish
  | fails => cases hfinish
  | loadRequiredFull =>
    rw [finishLoad] at hfinish
    split at hfinish
    · cases hfinish
    · cases hfinish
      exact ⟨h, .inr ⟨rfl, rfl⟩⟩
  | outOfMemory =>
    rw [finishLoad] at hfinish
    split at hfinish
    · cases hfinish
    · cases hreduce : req.reduceAutoNumCtxForLoadOOM env f numParallel gpus launchOpts with
      | some reduced =>
        rw [hreduce] at hfinish
        cases hfinish
        exact ⟨(h.reduceAutoNumCtxForLoadOOM hreduce).attempted, .inl rfl⟩
      | none =>
        rw [hreduce] at hfinish
        dsimp only at hfinish
        split at hfinish
        · cases hfinish
          exact ⟨h.attempted, .inl rfl⟩
        · cases hfinish

/-- The runner of a call that succeeds. -/
theorem finishLoad_loaded {r : RunnerRef} (hfinish : finishLoad env f numParallel gpus launchOpts
    req llama how = (req', active, .loaded r)) :
    r.model = req.model ∧ r.isImagegen = req.model.image ∧ r.numCtxAuto = req.numCtxAuto ∧
      r.numBatchAuto = req.numBatchAuto ∧ r.useMMapAuto = req.useMMapAuto ∧
      r.trainContext = modelTrainContext f ∧
      ((req.model.modelPath ≠ [] ∧ 0 < llama.contextLength ∧
          r.options = { req.opts with numCtx := llama.contextLength } ∧
          r.contextShift = resolveContextShift req.shift llama.contextLength) ∨
        (¬(req.model.modelPath ≠ [] ∧ 0 < llama.contextLength) ∧ r.options = req.opts ∧
          r.contextShift = req.contextShift)) := by
  cases how with
  | loads =>
    rw [finishLoad] at hfinish
    dsimp only at hfinish
    split at hfinish
    · next hctx =>
      cases hfinish
      exact ⟨rfl, rfl, rfl, rfl, rfl, rfl, .inl ⟨hctx.1, hctx.2, rfl, rfl⟩⟩
    · next hctx =>
      cases hfinish
      exact ⟨rfl, rfl, rfl, rfl, rfl, rfl, .inr ⟨hctx, rfl, rfl⟩⟩
  | fails => cases hfinish
  | loadRequiredFull =>
    rw [finishLoad] at hfinish
    split at hfinish <;> cases hfinish
  | outOfMemory =>
    rw [finishLoad] at hfinish
    split at hfinish
    · cases hfinish
    · split at hfinish
      · cases hfinish
      · split at hfinish <;> cases hfinish

end Finish

/-- A call reaches the server's `Load` with a server whose context is the effective one of the
request; only a call that starts the server knows the context of the training. -/
theorem load_reaches {files : GoString → Option GGML} {env : Machine} {req₀ req req' : LlmRequest}
    {active active' : Option LlamaServer} {starts : Bool} {how : Outcome} {result : LoadResult}
    (h : Same req₀ req)
    (hactive : ∀ llama, active = some llama → llama.contextLength =
      effectiveContext req.opts.numCtx (launchTrainContext files req₀.model) ∧
      (req₀.model.isMLX = false → req₀.model.modelPath ≠ []))
    (hload : load files env active req starts how = (req', active', result)) :
    (result = .failed) ∨ (result = .retry ∧ Same req₀ req' ∧ active' = none) ∨
    ∃ f gpus launchOpts req₁ llama, finishLoad env f (numParallelFor env req.model) gpus launchOpts
        req₁ llama how = (req', active', result) ∧ Same req₀ req₁ ∧ llama.contextLength =
        effectiveContext req₁.opts.numCtx (launchTrainContext files req₀.model) ∧
      modelTrainContext f =
        (if active.isSome = true then 0 else launchTrainContext files req₀.model) ∧
      (req₀.model.isMLX = false → req₀.model.modelPath ≠ []) := by
  unfold load at hload
  cases active with
  | some llama =>
    obtain ⟨hctx, hpath⟩ := hactive llama rfl
    exact .inr (.inr ⟨_, _, _, req, llama, hload, h, hctx, rfl, hpath⟩)
  | none =>
    dsimp only at hload
    split at hload
    · next hmlx =>
      have htrain : launchTrainContext files req₀.model = 0 := by
        rw [launchTrainContext, ← h.model, if_pos hmlx]
      have hctx : effectiveContext req.opts.numCtx 0 = req.opts.numCtx := if_neg (by simp)
      split at hload
      · cases hload
        exact .inl rfl
      · refine .inr (.inr ⟨_, _, _, _, _, hload, h, ?_, ?_, fun hnot => ?_⟩)
        · rw [htrain, hctx]
        · rw [htrain]
          rfl
        · rw [h.model, hnot] at hmlx
          cases hmlx
    · next hmlx =>
      cases hfile : loadModel files req.model.modelPath with
      | none =>
        rw [hfile] at hload
        cases hload
        exact .inl rfl
      | some f =>
        rw [hfile] at hload
        dsimp only at hload
        have htrain : launchTrainContext files req₀.model = f.contextLength := by
          rw [launchTrainContext, ← h.model, if_neg hmlx, hfile]
          rfl
        have hpath : req₀.model.modelPath ≠ [] := by
          intro hnil
          rw [h.model, loadModel, if_pos hnil] at hfile
          cases hfile
        have hbatch := fun c p a fa g =>
          h.applyAutomaticGenerationBatch req.model.completion c p a fa g
        split at hload
        · cases hload
          exact .inr (.inl ⟨rfl, (hbatch _ _ _ _ _).1, rfl⟩)
        · split at hload
          · cases hload
            exact .inl rfl
          · have hmmap := fun c p a fa g lo gpus np =>
              (hbatch c p a fa g).1.applyLlamaServerMmapDefaults env lo gpus f np
            have hplaced : ∀ p, (selectLlamaServerPlacement env p req.opts).2.numCtx =
                req.opts.numCtx := by
              intro p
              unfold selectLlamaServerPlacement
              dsimp only
              split <;> rfl
            refine .inr (.inr ⟨_, _, _, _, _, hload, ?_, ?_, htrain.symm, fun _ => hpath⟩)
            · exact Same.shifted hpath (hmmap _ _ _ _ _ _ _ _).1
            · dsimp only
              rw [htrain, (hmmap _ _ _ _ _ _ _ _).2, (hbatch _ _ _ _ _).2, hplaced]
              rfl

/-! ## All calls -/

theorem effectiveContext_pos {numCtx : Int} (h : 0 < numCtx) (trainCtx : Int) :
    0 < effectiveContext numCtx trainCtx := by
  unfold effectiveContext
  split <;> omega

theorem newRequest_same (balanced : Bool) (numParallel : Int) (m : Model) (opts : Runner)
    (numCtxAuto numBatchAuto : Bool) (shift : Option Bool) :
    Same (newRequest balanced numParallel m opts numCtxAuto numBatchAuto shift)
      (newRequest balanced numParallel m opts numCtxAuto numBatchAuto shift) := by
  refine ⟨rfl, rfl, rfl, rfl, fun _ => rfl, fun _ => rfl, fun _ => rfl, (fun h => nomatch h),
    ⟨rfl, rfl, rfl, rfl⟩, ?_, fun _ => rfl⟩
  have hstart : 0 < if opts.numCtx < 4 then 4 else opts.numCtx := by split <;> omega
  have hadaptive : ∀ n : Int, 0 < n → 0 < applyAdaptiveNumCtxForParallel balanced numParallel n := by
    intro n hn
    unfold applyAdaptiveNumCtxForParallel
    dsimp only
    generalize (if numParallel < 1 then (1 : Int) else numParallel) = np
    have hmax : (0 : Int) < max 4 (kvSlotBudget / np) := lt_max_of_lt_left (by decide)
    split
    · exact hn
    · split
      · exact hn
      · split
        · exact hmax
        · exact hn
  have hctx := hadaptive _ hstart
  show 0 < if m.vision = true then _ else _
  split
  · exact lt_max_of_lt_left hctx
  · exact hctx

/-- What holds between the calls: a server that is kept has the effective context of the
request. -/
theorem Calls.inv {files : GoString → Option GGML} {req₀ req : LlmRequest}
    {active : Option LlamaServer} (hreq₀ : Same req₀ req₀) (h : Calls files req₀ req active) :
    Same req₀ req ∧ ∀ llama, active = some llama → llama.contextLength =
      effectiveContext req.opts.numCtx (launchTrainContext files req₀.model) ∧
      (req₀.model.isMLX = false → req₀.model.modelPath ≠ []) := by
  induction h with
  | start => exact ⟨hreq₀, fun llama hllama => nomatch hllama⟩
  | retry env starts how _ hload ih =>
    obtain ⟨hsame, hactive⟩ := ih
    rcases load_reaches hsame hactive hload with hfailed | ⟨-, hsame', rfl⟩ |
      ⟨f, gpus, launchOpts, req₁, llama, hfinish, hsame₁, hctx, -, hpath⟩
    · cases hfailed
    · exact ⟨hsame', fun llama hllama => nomatch hllama⟩
    · obtain ⟨hsame', hkept⟩ := finishLoad_retry hsame₁ hfinish
      refine ⟨hsame', fun kept hkeep => ?_⟩
      rcases hkept with hnone | ⟨hsome, rfl⟩
      · rw [hnone] at hkeep
        cases hkeep
      · rw [hsome] at hkeep
        cases hkeep
        exact ⟨hctx, hpath⟩

/-- The runner of a call, for the request the calls began with. -/
structure Stored (req₀ : LlmRequest) (r : RunnerRef) : Prop where
  model : r.model = req₀.model
  isImagegen : r.isImagegen = req₀.model.image
  numCtxAuto : r.numCtxAuto = req₀.numCtxAuto
  numBatchAuto : r.numBatchAuto = req₀.numBatchAuto
  numBatch : req₀.numBatchAuto = false → r.options.numBatch = req₀.opts.numBatch
  useMMap : r.useMMapAuto = false → r.options.useMMap = req₀.opts.useMMap
  useMMapAuto : r.useMMapAuto = true → req₀.opts.useMMap = none
  rest : r.options.numGPU = req₀.opts.numGPU ∧ r.options.mainGPU = req₀.opts.mainGPU ∧
    r.options.numThread = req₀.opts.numThread ∧
    r.options.draftNumPredict = req₀.opts.draftNumPredict
  contextShift : r.contextShift = if req₀.model.modelPath ≠ [] then
    resolveContextShift req₀.shift r.options.numCtx else req₀.contextShift

/-- The context that `needsReload` compares with that of the runner. -/
def contextNew (req₀ : LlmRequest) (r : RunnerRef) : Int :=
  if req₀.numCtxAuto = true then r.options.numCtx
  else effectiveContext req₀.opts.numCtx r.trainContext

theorem Stored.optsNew_eq {req₀ : LlmRequest} {r : RunnerRef} (h : Stored req₀ r) :
    r.optsNew req₀ = { r.options with numCtx := contextNew req₀ r } := by
  obtain ⟨hgpu, hmain, hthread, hdraft⟩ := h.rest
  have hbatch := h.numBatch
  have hmmap := h.useMMap
  have hmmapAuto := h.useMMapAuto
  unfold RunnerRef.optsNew contextNew
  rw [h.numCtxAuto, h.numBatchAuto]
  cases req₀.numCtxAuto <;> cases hb : req₀.numBatchAuto <;> cases hm : r.useMMapAuto <;>
    ext <;> simp_all

/-- The options are the same as long as the context is. -/
theorem Stored.reload_iff {req₀ : LlmRequest} {r : RunnerRef} (h : Stored req₀ r)
    (hmlx : req₀.model.isMLX = true → contextNew req₀ r = r.options.numCtx) :
    r.needsReload req₀ true = false ↔ contextNew req₀ r = r.options.numCtx := by
  unfold RunnerRef.needsReload
  rw [if_neg (not_not.mpr h.isImagegen), h.optsNew_eq, h.model, h.contextShift]
  dsimp only
  by_cases hctx : contextNew req₀ r = r.options.numCtx
  · by_cases hgpu : r.options.numGPU < 0
    · simp [hctx, hgpu]
    · simp [hctx, hgpu]
  · have hnot : req₀.model.isMLX = false := Bool.eq_false_iff.mpr fun heq => hctx (hmlx heq)
    have hdiffer : r.options.numCtx ≠ contextNew req₀ r := fun heq => hctx heq.symm
    rw [hnot]
    by_cases hgpu : r.options.numGPU < 0
    · simp only [if_pos hgpu]
      split <;> simp [Runner.ext_iff, hctx, hdiffer]
    · simp only [if_neg hgpu]
      split <;> simp [Runner.ext_iff, hctx, hdiffer]

/-- The context of the runner is the effective one of the options; that of the next request is so
unless the runner does not know the context of the training. -/
theorem contextNew_iff {req₀ : LlmRequest} {r : RunnerRef} {numCtx trainCtx : Int} {kept : Bool}
    (hctx : r.options.numCtx = effectiveContext numCtx trainCtx)
    (htrain : r.trainContext = if kept = true then 0 else trainCtx)
    (hsame : req₀.numCtxAuto = false → numCtx = req₀.opts.numCtx) :
    contextNew req₀ r = r.options.numCtx ↔
      ¬(kept = true ∧ req₀.numCtxAuto = false ∧ 0 < trainCtx ∧ trainCtx < req₀.opts.numCtx) := by
  unfold contextNew
  cases hauto : req₀.numCtxAuto with
  | true => simp
  | false =>
    rw [hctx, htrain, hsame hauto]
    cases kept with
    | false => simp
    | true =>
      simp only [Bool.false_eq_true, if_false, if_true, true_and]
      unfold effectiveContext
      rw [if_neg (by simp)]
      split
      · next habove =>
        exact iff_of_false (fun heq => by omega) (not_not.mpr habove)
      · next hbelow =>
        exact iff_of_true rfl hbelow

/-- A request with the same options uses the runner, unless the server was kept over a call that
did not know the context of the training, which the context of the options is above. -/
theorem needsReload_iff {files : GoString → Option GGML} {balanced : Bool} {numParallel : Int}
    {m : Model} {opts : Runner} {numCtxAuto numBatchAuto : Bool} {shift : Option Bool}
    {req₀ req req' : LlmRequest} {active active' : Option LlamaServer} {env : Machine}
    {starts : Bool} {how : Outcome} {r : RunnerRef}
    (hreq₀ : req₀ = newRequest balanced numParallel m opts numCtxAuto numBatchAuto shift)
    (hcalls : Calls files req₀ req active)
    (hload : load files env active req starts how = (req', active', .loaded r)) :
    r.needsReload req₀ true = false ↔ ¬(active.isSome = true ∧ numCtxAuto = false ∧
      0 < launchTrainContext files m ∧ launchTrainContext files m < req₀.opts.numCtx) := by
  have hsame₀ : Same req₀ req₀ := hreq₀ ▸ newRequest_same _ _ _ _ _ _ _
  obtain ⟨hsame, hactive⟩ := hcalls.inv hsame₀
  have hmodel : req₀.model = m := by rw [hreq₀]; rfl
  have hauto : req₀.numCtxAuto = numCtxAuto := by rw [hreq₀]; rfl
  rcases load_reaches hsame hactive hload with hfailed | ⟨hretry, -⟩ |
    ⟨f, gpus, launchOpts, req₁, llama, hfinish, hsame₁, hctx, htrain, hpath⟩
  · cases hfailed
  · cases hretry
  · obtain ⟨hrmodel, hrimage, hrctx, hrbatch, hrmmap, hrtrain, hropts⟩ := finishLoad_loaded hfinish
    have hpos : 0 < llama.contextLength := hctx ▸ effectiveContext_pos hsame₁.numCtx_pos _
    -- without a file the server has no context of the training
    have hmlxzero : req₀.model.isMLX = true →
        effectiveContext req₁.opts.numCtx (launchTrainContext files req₀.model) =
          req₁.opts.numCtx := by
      intro heq
      rw [launchTrainContext, if_pos heq]
      exact if_neg (by simp)
    have hoptions : r.options = { req₁.opts with numCtx := llama.contextLength } := by
      rcases hropts with ⟨-, -, hopts, -⟩ | ⟨hnot, hopts, -⟩
      · exact hopts
      · have hmlx : req₀.model.isMLX = true := by
          by_contra hfalse
          exact hnot ⟨hsame₁.model ▸ hpath (Bool.eq_false_iff.mpr hfalse), hpos⟩
        rw [hopts, hctx, hmlxzero hmlx]
    have hshift : r.contextShift = if req₀.model.modelPath ≠ [] then
        resolveContextShift req₀.shift r.options.numCtx else req₀.contextShift := by
      rw [hoptions, ← hsame₁.shift]
      rcases hropts with ⟨hne, -, -, hshift⟩ | ⟨hnot, -, hshift⟩
      · rw [hshift, if_pos (hsame₁.model ▸ hne)]
      · have hnil : req₀.model.modelPath = [] := by
          by_contra hne
          exact hnot ⟨hsame₁.model ▸ hne, hpos⟩
        rw [hshift, if_neg (not_not.mpr hnil), hsame₁.contextShift hnil]
    have hstored : Stored req₀ r := by
      refine ⟨hrmodel.trans hsame₁.model, hrimage.trans (congrArg Model.image hsame₁.model),
        hrctx.trans hsame₁.numCtxAuto, hrbatch.trans hsame₁.numBatchAuto, ?_, ?_, ?_, ?_, hshift⟩
      · rw [hoptions]
        exact hsame₁.numBatch
      · rw [hoptions, hrmmap]
        exact hsame₁.useMMap
      · rw [hrmmap]
        exact hsame₁.useMMapAuto
      · rw [hoptions]
        exact hsame₁.rest
    have hrctx' : r.options.numCtx =
        effectiveContext req₁.opts.numCtx (launchTrainContext files req₀.model) := by
      rw [hoptions, ← hctx]
    rw [hstored.reload_iff, contextNew_iff hrctx' (hrtrain.trans htrain) hsame₁.numCtx,
      hauto, hmodel]
    intro hmlx
    have hnone : launchTrainContext files req₀.model = 0 := if_pos hmlx
    rw [contextNew_iff hrctx' (hrtrain.trans htrain) hsame₁.numCtx, hnone]
    exact fun h => absurd h.2.2.1 (lt_irrefl _)

/-! ## A server that is kept -/

/-- A model with its file. -/
def exampleModel : Model :=
  ⟨lit "m", lit "llama", false, true, false, false, [], []⟩

def exampleFiles (p : GoString) : Option GGML := if p = lit "m" then some ⟨2048, 32⟩ else none

/-- The layers stay off the devices, and another runner may be loaded. -/
def exampleMachine (loadedCount : Nat) : Machine where
  goos := lit "linux"
  systemInfo := ⟨64000000000, 48000000000⟩
  gpus := []
  placement := fun _ _ => ([], false)
  predictServerVRAM := fun _ => 0
  flashAttentionDisabled := fun _ => false
  modelFileSize := 4000000000
  loadedMmapModelSize := 0
  loadedCount := loadedCount
  numParallel := 1
  requireFull := decide (0 < loadedCount)

def exampleRequest (numCtx : Int) : LlmRequest :=
  newRequest false 1 exampleModel ⟨numCtx, 512, 0, none, none, 0, 0⟩ false false none

/-- The first call asks for room and keeps its server, the second one loads it. -/
theorem needsReload_after_retry :
    ∃ (req req' : LlmRequest) (active active' : Option LlamaServer) (r : RunnerRef),
      Calls exampleFiles (exampleRequest 4096) req active ∧
      load exampleFiles (exampleMachine 0) active req true .loads = (req', active', .loaded r) ∧
      r.needsReload (exampleRequest 4096) true = true :=
  ⟨_, _, _, _, _, .retry (exampleMachine 1) true .loadRequiredFull .start rfl, rfl, by decide⟩

/-- At the training context the kept server is used again. -/
theorem needsReload_iff_kept : ∃ (req req' : LlmRequest) (active active' : Option LlamaServer)
    (r : RunnerRef), load exampleFiles (exampleMachine 0) active req true .loads =
      (req', active', .loaded r) ∧
    (r.needsReload (exampleRequest 2048) true = false ↔ ¬(active.isSome = true ∧ false = false ∧
      0 < launchTrainContext exampleFiles exampleModel ∧
      launchTrainContext exampleFiles exampleModel < (exampleRequest 2048).opts.numCtx)) :=
  ⟨_, _, _, _, _, rfl, needsReload_iff rfl
    (.retry (exampleMachine 1) true .loadRequiredFull .start rfl)
    (show load exampleFiles (exampleMachine 0) _ _ true .loads = _ from rfl)⟩

end Prismalama.Server.Load
