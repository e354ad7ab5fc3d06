import Prismalama.Llm.GpuLayers

/-!
# Loading with fewer and fewer layers (`llm/ollama_engine_server.go`, `llm/gpu_layers.go`)

When the runner has too little memory, `Load` tries again with a shorter tail of the layers: as many
as the reported sizes allow, and at least one less (`next_spec`). It gives up after `maxLoadShrink`
layouts.
-/

namespace Prismalama.Llm

/-! ## Layouts -/

structure DeviceInfo where
  DeviceID : String
  FreeMemory : Nat
  TotalMemory : Nat
  /-- `MinimumMemory()` -/
  MinimumMemory : Nat

/-- What the runner reports for a GPU. -/
structure DeviceMemory where
  Weights : List Nat
  Cache : List Nat
  Graph : Nat

structure GPULayers where
  DeviceID : String
  Layers : List Int
  deriving DecidableEq

abbrev GPULayersList := List GPULayers

def GPULayersList.Sum (l : GPULayersList) : Nat := (l.map fun g => g.Layers.length).sum

def gibiByte : Nat := 1073741824

def gpuAllocSafety : Nat := 1 * gibiByte

def gpuGraphFloor : Nat := 1 * gibiByte

def maxLoadShrink : Nat := 12

def gpuBudgetBytes (gpu : DeviceInfo) (graphBytes : Nat) : Nat :=
  let free := if gpu.FreeMemory = 0 then gpu.TotalMemory else gpu.FreeMemory
  let free := if 0 < gpu.TotalMemory ∧ gpu.TotalMemory < free then gpu.TotalMemory else free
  let graph := if graphBytes < gpuGraphFloor then gpuGraphFloor else graphBytes
  let overhead := add64 (add64 gpu.MinimumMemory gpuAllocSafety) graph
  if free ≤ overhead then 0 else free - overhead

def dropLeadingGPULayer : GPULayersList → GPULayersList
  | [] => []
  | g :: _ => if g.Layers.length ≤ 1 then [] else [⟨g.DeviceID, g.Layers.tail⟩]

/-- What a report says of a layer. -/
def reported (sizes : List Nat) (idx : Int) : Nat :=
  if 0 ≤ idx ∧ idx < sizes.length then sizes.getD idx.toNat 0 else 0

/-- The loop of `shrinkGPULayers` over the layers, from the last one. -/
def keepLoop (weights cache : List Nat) (budget : Nat) : List Int → Nat → List Int
  | [], _ => []
  | idx :: layers, used =>
    let extra := add64 (reported weights idx) (reported cache idx)
    if extra = 0 then []
    else if budget < extra ∨ budget < add64 used extra then []
    else idx :: keepLoop weights cache budget layers (add64 used extra)

def shrinkGPULayers (cur : GPULayersList) (mem : List DeviceMemory) (gpu : DeviceInfo) :
    GPULayersList :=
  match cur with
  | [] => []
  | g :: _ =>
    if g.Layers = [] then []
    else
      let mem := mem.head?.getD ⟨[], [], 0⟩
      let budget := gpuBudgetBytes gpu mem.Graph
      let keep := (keepLoop mem.Weights mem.Cache budget g.Layers.reverse 0).reverse
      if keep = [] ∨ g.Layers.length ≤ keep.length then dropLeadingGPULayer cur
      else [⟨g.DeviceID, keep⟩]

/-! ## Load -/

structure LoadResponse where
  Success : Bool
  /-- The GPUs of the memory report. -/
  Memory : List DeviceMemory
  Error : String

inductive LoadError
  | requiredFull
  | failed (msg : String)
  deriving DecidableEq

/-- What a call of `Load` finds. -/
structure Host where
  /-- `unicode.ToLower` -/
  toLower : Char → Char
  /-- `gpuLayersForEngine`, where the metadata of the model are known. -/
  engineLayers : Option GPULayersList
  waitHTTP : Option String
  /-- The server is ready before the model is loaded. -/
  ready : Bool
  initModel : GPULayersList → Except String LoadResponse
  waitReady : Option String

variable (host : Host)

def isInsufficientMemory (msg : String) : Bool :=
  decide ("insufficient memory".toList <:+: msg.toList.map host.toLower)

def gpuLayerDeviceIDs (layers : GPULayersList) : List String :=
  (layers.filter fun g => g.Layers ≠ []).map GPULayers.DeviceID

/-- The layout after one that did not fit. -/
def nextLayers (gpus : List DeviceInfo) (cur : GPULayersList) (mem : List DeviceMemory) :
    GPULayersList :=
  let next := match gpus with
    | gpu :: _ => shrinkGPULayers cur mem gpu
    | [] => dropLeadingGPULayer cur
  if cur.Sum ≤ next.Sum ∧ 0 < cur.Sum then dropLeadingGPULayer cur else next

def orCommitFailed (msg : String) : String := if msg = "" then "load commit failed" else msg

/-- The attempts that are left: the layouts that are tried, and how it ends. -/
def attempts (requireFull : Bool) (numGPU : Int) (gpus : List DeviceInfo) :
    Nat → GPULayersList → String → List GPULayersList × Except LoadError (List String)
  | 0, _, lastErr => ([], .error (.failed (orCommitFailed lastErr)))
  | n + 1, layers, _ =>
    match host.initModel layers with
    | .error e => ([layers], .error (.failed e))
    | .ok resp =>
      if resp.Success then
        ([layers], match host.waitReady with
          | some e => .error (.failed e)
          | none => .ok (gpuLayerDeviceIDs layers))
      else
        let lastErr := orCommitFailed resp.Error
        if requireFull ∨ numGPU = 0 ∨ isInsufficientMemory host lastErr = false then
          ([layers], .error (.failed lastErr))
        else
          let rest := attempts requireFull numGPU gpus n (nextLayers gpus layers resp.Memory) lastErr
          (layers :: rest.1, rest.2)

/-- The first layout. -/
def firstLayers (gpus : List DeviceInfo) (layers : GPULayersList) : GPULayersList :=
  if gpus = [] then layers else host.engineLayers.getD layers

/-- `Load`, with the layouts that it tries. -/
def Load (gpus : List DeviceInfo) (requireFull : Bool) (numGPU : Int) (layers : GPULayersList) :
    List GPULayersList × Except LoadError (List String) :=
  if requireFull ∧ (numGPU = 0 ∨ gpus = [] ∧ layers = []) then ([], .error .requiredFull)
  else
    let layers := firstLayers host gpus layers
    match host.waitHTTP with
    | some e => ([], .error (.failed e))
    | none =>
      if host.ready then ([], .ok (gpuLayerDeviceIDs layers))
      else attempts host requireFull numGPU gpus maxLoadShrink layers ""

/-! ## Shorter tails -/

/-- The layers of a layout. -/
def GPULayersList.all (l : GPULayersList) : List Int := l.flatMap GPULayers.Layers

/-- The layers are all on one GPU. -/
def OneGPU (l : GPULayersList) : Prop := l.length ≤ 1

/-- A strictly shorter tail on the same GPU. -/
structure ShorterTail (prev next : GPULayersList) : Prop where
  tail : next.all <:+ prev.all
  shorter : next.all.length < prev.all.length
  device : ∀ g ∈ next, ∃ g' ∈ prev, g.DeviceID = g'.DeviceID

theorem keepLoop_prefix (weights cache : List Nat) (budget : Nat) (layers : List Int) (used : Nat) :
    keepLoop weights cache budget layers used <+: layers := by
  induction layers generalizing used with
  | nil => exact List.nil_prefix
  | cons idx layers ih =>
    rw [keepLoop]
    split
    · exact List.nil_prefix
    · split
      · exact List.nil_prefix
      · exact List.cons_prefix_cons.mpr ⟨rfl, ih _⟩

theorem all_singleton (g : GPULayers) : GPULayersList.all [g] = g.Layers := by
  rw [GPULayersList.all, List.flatMap_singleton]

theorem all_eq_nil_or {l : GPULayersList} (h : OneGPU l) :
    l.all = [] ∨ ∃ g, l = [g] ∧ g.Layers ≠ [] := by
  match l, h with
  | [], _ => exact .inl rfl
  | [g], _ =>
    by_cases hg : g.Layers = []
    · exact .inl ((all_singleton g).trans hg)
    · exact .inr ⟨g, rfl, hg⟩

theorem sum_eq (l : GPULayersList) : l.Sum = l.all.length := by
  rw [GPULayersList.Sum, GPULayersList.all, List.length_flatMap]

theorem dropLeading_spec {g : GPULayers} (hg : g.Layers ≠ []) :
    OneGPU (dropLeadingGPULayer [g]) ∧ ShorterTail [g] (dropLeadingGPULayer [g]) := by
  have hpos : 0 < g.Layers.length := List.length_pos_iff.mpr hg
  rw [dropLeadingGPULayer]
  split
  · refine ⟨Nat.zero_le _, List.nil_suffix, ?_, fun _ h => absurd h List.not_mem_nil⟩
    rw [all_singleton]
    exact hpos
  · refine ⟨le_refl _, ?_, ?_, fun g' hg' => ⟨g, List.mem_singleton_self g, ?_⟩⟩
    · rw [all_singleton, all_singleton]
      exact List.tail_suffix _
    · rw [all_singleton, all_singleton, List.length_tail]
      omega
    · rw [List.mem_singleton.mp hg']

theorem shrink_spec {g : GPULayers} (hg : g.Layers ≠ []) (mem : List DeviceMemory)
    (gpu : DeviceInfo) :
    OneGPU (shrinkGPULayers [g] mem gpu) ∧ ShorterTail [g] (shrinkGPULayers [g] mem gpu) := by
  rw [shrinkGPULayers, if_neg hg]
  dsimp only
  split
  · exact dropLeading_spec hg
  · next hkeep =>
    refine ⟨le_refl _, ?_, ?_, fun g' hg' => ⟨g, List.mem_singleton_self g, ?_⟩⟩
    · rw [all_singleton, all_singleton]
      have hprefix := keepLoop_prefix (mem.head?.getD ⟨[], [], 0⟩).Weights
        (mem.head?.getD ⟨[], [], 0⟩).Cache
        (gpuBudgetBytes gpu (mem.head?.getD ⟨[], [], 0⟩).Graph) g.Layers.reverse 0
      rw [← List.reverse_reverse g.Layers]
      exact List.reverse_suffix.mpr (by rwa [List.reverse_reverse])
    · rw [all_singleton, all_singleton]
      exact not_le.mp (not_or.mp hkeep).2
    · rw [List.mem_singleton.mp hg']

/-- Every layout after one with layers is a strictly shorter tail of it. -/
theorem next_spec (gpus : List DeviceInfo) {cur : GPULayersList} (hone : OneGPU cur)
    (hne : cur.all ≠ []) (mem : List DeviceMemory) :
    OneGPU (nextLayers gpus cur mem) ∧ ShorterTail cur (nextLayers gpus cur mem) := by
  obtain ⟨g, rfl, hg⟩ := (all_eq_nil_or hone).resolve_left hne
  cases gpus with
  | nil =>
    simp only [nextLayers, ite_self]
    exact dropLeading_spec hg
  | cons gpu gpus =>
    simp only [nextLayers]
    split
    · exact dropLeading_spec hg
    · exact shrink_spec hg mem gpu

/-! ## A monotone runner -/

/-- A runner that fits the tails of at most `m` layers of a layout, and reports to longer ones that
the memory does not suffice. -/
structure Monotone (first : GPULayersList) (m : Nat) : Prop where
  http : host.waitHTTP = none
  ready : host.waitReady = none
  fits : ∀ l, OneGPU l → l.all <:+ first.all → l.all.length ≤ m →
    ∃ resp, host.initModel l = .ok resp ∧ resp.Success = true
  tight : ∀ l, OneGPU l → l.all <:+ first.all → m < l.all.length →
    ∃ resp, host.initModel l = .ok resp ∧ resp.Success = false ∧
      isInsufficientMemory host resp.Error = true

variable {host} {first : GPULayersList} {m : Nat}

theorem orCommitFailed_of_insufficient {msg : String} (h : isInsufficientMemory host msg = true) :
    orCommitFailed msg = msg := by
  refine if_neg fun hempty => ?_
  subst hempty
  have hinfix := of_decide_eq_true h
  exact absurd (List.infix_nil.mp hinfix) (by decide)

theorem attempts_fit (hrunner : Monotone host first m) {cur : GPULayersList} (hone : OneGPU cur)
    (htail : cur.all <:+ first.all) (hfit : cur.all.length ≤ m) (requireFull : Bool) (numGPU : Int)
    (gpus : List DeviceInfo) (n : Nat) (lastErr : String) :
    attempts host requireFull numGPU gpus (n + 1) cur lastErr =
      ([cur], .ok (gpuLayerDeviceIDs cur)) := by
  obtain ⟨resp, hresp, hsuccess⟩ := hrunner.fits cur hone htail hfit
  simp only [attempts, hresp, hsuccess, hrunner.ready, if_true]

/-- A layout that does not fit is the last one that is tried, or the next one follows. -/
theorem attempts_tight (hrunner : Monotone host first m) {cur : GPULayersList} (hone : OneGPU cur)
    (htail : cur.all <:+ first.all) (htight : m < cur.all.length) (requireFull : Bool)
    (numGPU : Int) (gpus : List DeviceInfo) (n : Nat) (lastErr : String) :
    ∃ mem msg, attempts host requireFull numGPU gpus (n + 1) cur lastErr =
      if requireFull = true ∨ numGPU = 0 then ([cur], .error (.failed msg))
      else
        (cur :: (attempts host requireFull numGPU gpus n (nextLayers gpus cur mem) msg).1,
          (attempts host requireFull numGPU gpus n (nextLayers gpus cur mem) msg).2) := by
  obtain ⟨resp, hresp, hfail, herr⟩ := hrunner.tight cur hone htail htight
  refine ⟨resp.Memory, resp.Error, ?_⟩
  simp only [attempts, hresp, hfail, Bool.false_eq_true, if_false,
    orCommitFailed_of_insufficient herr, herr, Bool.true_eq_false, or_false]

/-- What `n` attempts from a layout do. -/
structure Shrinks (requireFull : Bool) (numGPU : Int) (m n : Nat) (cur : GPULayersList)
    (run : List GPULayersList × Except LoadError (List String)) : Prop where
  head : ∀ l ∈ run.1.head?, l = cur
  chain : run.1.IsChain ShorterTail
  length_le : run.1.length ≤ n
  ends : requireFull = false → numGPU ≠ 0 →
    (∃ ids, run.2 = .ok ids) ∨ run.1.length = n ∧ ∀ l ∈ run.1, m < l.all.length
  short : requireFull = false → numGPU ≠ 0 → 0 < n → cur.all.length < m + n →
    ∃ ids, run.2 = .ok ids

theorem attempts_shrinks (hrunner : Monotone host first m) (requireFull : Bool) (numGPU : Int)
    (gpus : List DeviceInfo) (n : Nat) {cur : GPULayersList} (hone : OneGPU cur)
    (htail : cur.all <:+ first.all) (lastErr : String) :
    Shrinks requireFull numGPU m n cur (attempts host requireFull numGPU gpus n cur lastErr) := by
  induction n generalizing cur lastErr with
  | zero =>
    rw [attempts]
    refine ⟨fun l h => ?_, List.isChain_nil, le_refl _, fun _ _ => .inr ⟨rfl, ?_⟩,
      fun _ _ h => absurd h (lt_irrefl 0)⟩
    · cases h
    · exact fun l h => absurd h List.not_mem_nil
  | succ n ih =>
    have hcur : ∀ l ∈ [cur].head?, l = cur := fun l h => (Option.mem_some.mp h).symm
    by_cases hfit : cur.all.length ≤ m
    · rw [attempts_fit hrunner hone htail hfit]
      exact ⟨hcur, List.isChain_singleton _, Nat.le_add_left _ _, fun _ _ => .inl ⟨_, rfl⟩,
        fun _ _ _ _ => ⟨_, rfl⟩⟩
    · have htight := not_le.mp hfit
      obtain ⟨mem, msg, heq⟩ :=
        attempts_tight hrunner hone htail htight requireFull numGPU gpus n lastErr
      rw [heq]
      split
      · next hstop =>
        have hnot : requireFull = false → numGPU ≠ 0 → False := by
          rintro rfl hnum
          exact hstop.elim Bool.false_ne_true hnum
        exact ⟨hcur, List.isChain_singleton _, Nat.le_add_left _ _,
          fun hfull hnum => (hnot hfull hnum).elim, fun hfull hnum => (hnot hfull hnum).elim⟩
      · have hne : cur.all ≠ [] := List.length_pos_iff.mp (Nat.zero_lt_of_lt htight)
        obtain ⟨hnext, hshorter⟩ := next_spec gpus hone hne mem
        have hrest := ih hnext (hshorter.tail.trans htail) msg
        have hlen := hshorter.shorter
        refine ⟨fun l h => (Option.mem_some.mp h).symm, ?_, ?_, fun hfull hnum => ?_,
          fun hfull hnum _ hlt => hrest.short hfull hnum (by omega) (by omega)⟩
        · exact List.isChain_cons.mpr ⟨fun l h => hrest.head l h ▸ hshorter, hrest.chain⟩
        · exact Nat.succ_le_succ hrest.length_le
        · refine (hrest.ends hfull hnum).imp id fun ⟨hcount, hall⟩ => ⟨?_, ?_⟩
          · rw [List.length_cons, hcount]
          · exact List.forall_mem_cons.mpr ⟨htight, hall⟩

/-- Every layout that is tried after a failure is a strictly shorter tail of the last one. `Load`
succeeds unless all of its `maxLoadShrink` attempts are too large for the runner. -/
theorem Load_shrinks (gpus : List DeviceInfo) (requireFull : Bool) (numGPU : Int)
    (layers : GPULayersList) (hone : OneGPU (firstLayers host gpus layers))
    (hrunner : Monotone host (firstLayers host gpus layers) m) :
    (Load host gpus requireFull numGPU layers).1.IsChain ShorterTail ∧
    (Load host gpus requireFull numGPU layers).1.length ≤ maxLoadShrink ∧
    (requireFull = false → numGPU ≠ 0 →
      ((∃ ids, (Load host gpus requireFull numGPU layers).2 = .ok ids) ∨
        (Load host gpus requireFull numGPU layers).1.length = maxLoadShrink ∧
        ∀ l ∈ (Load host gpus requireFull numGPU layers).1, m < l.all.length) ∧
      ((firstLayers host gpus layers).all.length < m + maxLoadShrink →
        ∃ ids, (Load host gpus requireFull numGPU layers).2 = .ok ids)) := by
  rw [Load]
  split
  · next hfull =>
    refine ⟨List.isChain_nil, Nat.zero_le _, fun hnot => ?_⟩
    exact absurd hfull.1 (hnot ▸ Bool.false_ne_true)
  · rw [hrunner.http]
    dsimp only
    split
    · exact ⟨List.isChain_nil, Nat.zero_le _, fun _ _ => ⟨.inl ⟨_, rfl⟩, fun _ => ⟨_, rfl⟩⟩⟩
    · have h := attempts_shrinks hrunner requireFull numGPU gpus maxLoadShrink hone
        (List.suffix_refl _) ""
      exact ⟨h.chain, h.length_le, fun hfull hnum => ⟨h.ends hfull hnum,
        h.short hfull hnum (by decide)⟩⟩

/-- A GPU with room for `m` layers that reports no sizes, with the layout that the model gets. -/
def roomFor (m : Nat) (layers : List Int) : Host where
  toLower := Char.toLower
  engineLayers := some [⟨"gpu0", layers⟩]
  waitHTTP := none
  ready := false
  initModel l := .ok
    { Success := decide (l.all.length ≤ m)
      Memory := []
      Error := if l.all.length ≤ m then "" else "insufficient memory" }
  waitReady := none

theorem roomFor_monotone (m : Nat) (layers : List Int) (first : GPULayersList) :
    Monotone (roomFor m layers) first m where
  http := rfl
  ready := rfl
  fits l _ _ h := ⟨_, rfl, decide_eq_true h⟩
  tight l _ _ h := by
    refine ⟨_, rfl, decide_eq_false (not_le.mpr h), ?_⟩
    have hmsg : decide ("insufficient memory".toList <:+:
        "insufficient memory".toList.map Char.toLower) = true := by decide
    rwa [if_neg (not_le.mpr h)]

/-- 24 GiB, all free. -/
def gpu0 : DeviceInfo := ⟨"gpu0", 24 * gibiByte, 24 * gibiByte, 0⟩

theorem Load_shrinks_three : ∃ ids,
    (Load (roomFor 1 [0, 1, 2]) [gpu0] false (-1) []).2 = .ok ids :=
  (((Load_shrinks [gpu0] false (-1) [] (le_refl _) (roomFor_monotone 1 [0, 1, 2] _)).2.2 rfl
    (by decide)).2) (by decide)

/-- Twelve attempts with one layer less each are not enough for thirteen layers that must all go. -/
theorem Load_not_reaching :
    OneGPU (firstLayers (roomFor 0 [0, 1, 2, 3, 4, 5, 6, 7, 8, 9, 10, 11, 12]) [gpu0] []) ∧
    Monotone (roomFor 0 [0, 1, 2, 3, 4, 5, 6, 7, 8, 9, 10, 11, 12])
      (firstLayers (roomFor 0 [0, 1, 2, 3, 4, 5, 6, 7, 8, 9, 10, 11, 12]) [gpu0] []) 0 ∧
    (Load (roomFor 0 [0, 1, 2, 3, 4, 5, 6, 7, 8, 9, 10, 11, 12]) [gpu0] false (-1) []).2 =
      .error (.failed "insufficient memory") :=
  ⟨le_refl _, roomFor_monotone 0 _ _, by decide⟩

end Prismalama.Llm
