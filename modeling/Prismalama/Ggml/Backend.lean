import Prismalama.Lib.GoMap
import Prismalama.Lib.GoStrings

/-!
# Tensors of a backend (`fs/ggml/ggml.go`, `ml/backend/ggml/ggml.go`)

`New` decides for each tensor of a GGUF file which tensors of the backend are
loaded from it. Most keep their name; the embedding may also be the output, and
the rope tensors are repeated for every layer.

`unicode.IsNumber` is a parameter: nothing here depends on which runes it has.
-/

namespace Prismalama.Ggml

open Prismalama.Lib

/-! ## Tensors of a file -/

/-- `fsggml.Tensor` -/
structure Tensor where
  name : GoString
  kind : Nat
  offset : Nat
  shape : List Nat
deriving DecidableEq

/-- `TensorType.BlockSize` -/
def blockSize (kind : Nat) : Nat :=
  -- F32, F16, I8, I16, I32, I64, F64, BF16
  if kind ∈ [0, 1, 24, 25, 26, 27, 28, 30] then 1
  -- Q4_0, Q4_1, Q5_0, Q5_1, Q8_0, Q8_1, IQ4_NL, MXFP4
  else if kind ∈ [2, 3, 6, 7, 8, 9, 20, 39] then 32
  else if kind = 40 then 64
  else if kind = 41 then 128
  else 256

/-- `TensorType.TypeSize` -/
def typeSize (kind : Nat) : Nat :=
  let block := blockSize kind
  match kind with
  | 0 => 4
  | 1 => 2
  | 2 => 2 + block / 2
  | 3 => 2 + 2 + block / 2
  | 6 => 2 + 4 + block / 2
  | 7 => 2 + 2 + 4 + block / 2
  | 8 => 2 + block
  | 9 => 2 + 2 + block
  | 10 => block / 16 + block / 4 + 2 + 2
  | 11 => block / 8 + block / 4 + 12 + 2
  | 12 => 2 + 2 + 12 + block / 2
  | 13 => 2 + 2 + 12 + block / 8 + block / 2
  | 14 => block / 2 + block / 4 + block / 16 + 2
  | 15 => 4 + block + 2 * block / 16
  | 16 => 2 + 2 * block / 8
  | 17 => 2 + 2 * block / 8 + block / 32
  | 18 => 2 + block / 4 + block / 8
  | 19 => 2 + block / 8 + block / 16
  | 20 => 2 + block / 2
  | 21 => 2 + block / 4 + block / 8 + block / 32 + 4
  | 22 => 2 + block / 4 + block / 16
  | 23 => 2 + 2 + block / 2 + block / 64
  | 24 => 1
  | 25 => 2
  | 26 => 4
  | 27 => 8
  | 28 => 8
  | 29 => block / 8 + block / 16 + block / 32
  | 30 => 2
  | 39 => 1 + block / 2
  | 40 => 4 + block / 2
  | 41 => 2 + block / 8
  | _ => 0

/-- The number of values of a `uint64`. -/
def wrap64 : Nat := 18446744073709551616

/-- `Elements` -/
def Tensor.elements (t : Tensor) : Nat := t.shape.foldl (fun count n => count * n % wrap64) 1

/-- `Size` -/
def Tensor.size (t : Tensor) : Nat :=
  t.elements * typeSize t.kind % wrap64 / blockSize t.kind

/-- What is read of a GGUF file before its weights. -/
structure GGUF where
  tensors : List Tensor
  /-- `Tensors().Offset` -/
  tensorOffset : Nat
  /-- `KV().BlockCount()` -/
  blockCount : Nat

/-! ## Names -/

/-- `strings.Split(name, ".")` -/
def parts (name : GoString) : List GoString := name.splitOn 0x2E

/-- `contains` -/
def containsPart (name : GoString) (names : List String) : Bool :=
  names.any fun part => decide (lit part ∈ parts name)

/-- `strings.Join(parts, ".")` -/
def join (parts : List GoString) : GoString := [0x2E].intercalate parts

/-- The key of the tensor in `GroupLayers`. -/
def groupLayersKey (name : GoString) : GoString :=
  match (parts name).findIdx? fun s => decide (s = lit "blk" ∨ s = lit "mm") with
  | some index =>
    if index + 2 < (parts name).length then join ((parts name).take (index + 2))
    else (parts name).headD []
  | none => (parts name).headD []

/-- `strings.FieldsFunc` -/
def fieldsFunc (f : Char → Bool) (s : GoString) : List GoString :=
  (((decodeRunes s).splitOnP f).filter fun runes => !runes.isEmpty).map encodeRunes

/-- `strconv.Atoi` -/
def atoi (s : GoString) : Option Int :=
  let digits := fun (d : GoString) => (parseUint d 10 64).toOption
  match s with
  | 0x2D :: d => (digits d).bind fun n => if n ≤ 2 ^ 63 then some (-(n : Int)) else none
  | 0x2B :: d => (digits d).bind fun n => if n < 2 ^ 63 then some (n : Int) else none
  | d => (digits d).bind fun n => if n < 2 ^ 63 then some (n : Int) else none

section IsNumber

variable (isNumber : Char → Bool)

/-- The number that the first digits of a name make; -1 without one. -/
def firstNumber (name : GoString) : Int :=
  match fieldsFunc (fun r => !isNumber r) name with
  | [] => -1
  | field :: _ => (atoi field).getD (-1)

/-- `parseTensorBlockIndex` -/
def parseTensorBlockIndex (name : GoString) : Int :=
  match fieldsFunc (fun r => !isNumber r) name with
  | [] => -1
  | field :: _ =>
    match atoi field with
    | some i => if contains name (lit "blk.") then i else -1
    | none => -1

/-! ## New -/

abbrev BufferType := Nat

/-- Where the parts of a model go. -/
structure Devices where
  input : List BufferType
  output : List BufferType
  layers : Nat → List BufferType
  expertLayers : Nat → List BufferType
  /-- There is a GPU, and layers were assigned to one. -/
  gpuLayers : Bool

/-- A tensor of a ggml context. -/
structure GgmlTensor where
  name : GoString
  type : Nat
deriving DecidableEq

/-- The maps that `New` fills. -/
structure Creating where
  targets : GoMap GoString (List GoString)
  ctxs : GoMap BufferType (List GgmlTensor)

/-- What C reads of a Go string. -/
def cString (s : GoString) : GoString := s.takeWhile (· ≠ 0)

/-- The type a tensor has in the backend. -/
def createdType (t : Tensor) : Nat :=
  if t.kind = 4 then 39
  else if t.kind = 30 ∧ (lit "_exps.bias").isSuffixOf t.name = true then 0
  else t.kind

/-- `createTensor`; a ggml name has at most 63 bytes. -/
def createTensor (s : Creating) (t : Tensor) (target : GoString) : List BufferType → Creating
  | [] => s
  | bt :: _ =>
    let name := if target = [] then t.name else target
    let ctx := (s.ctxs.lookup bt).getD []
    { targets := s.targets.insert t.name ((s.targets.lookup t.name).getD [] ++ [target])
      ctxs := s.ctxs.insert bt
        (if ctx.any fun tt => decide (tt.name = cString name) then ctx
          else ctx ++ [⟨(cString name).take 63, createdType t⟩]) }

/-- `isMoEExpertTensor` -/
def isMoEExpertTensor (name : GoString) : Bool := contains name (lit "_exps")

/-- The target of a rope tensor for a layer. -/
def ropeTarget (i : Nat) (name : GoString) : GoString := lit "blk." ++ itoa i ++ lit "." ++ name

/-- One round of the loop over the tensors; `none` when it panics. -/
def assign (gguf : GGUF) (d : Devices) (s : Creating) (t : Tensor) : Option Creating :=
  if containsPart t.name ["position_embd", "token_embd", "token_norm_embd", "token_types"] then
    let s := createTensor s t [] d.input
    if (∀ t' ∈ gguf.tensors, groupLayersKey t'.name ≠ lit "output") ∧
        t.name = lit "token_embd.weight" then
      some (createTensor s t (lit "output.weight") d.output)
    else some s
  else if containsPart t.name ["cls", "output", "output_norm", "altup_proj", "altup_unembd_proj",
      "per_layer_token_embd", "per_layer_model_proj", "per_layer_proj_norm"] then
    some (createTensor s t [] d.output)
  else if (lit "v.").isPrefixOf t.name || (lit "mm.").isPrefixOf t.name ||
      (lit "s.").isPrefixOf t.name then
    some (createTensor s t [] d.output)
  else if containsPart t.name ["rope_freqs", "rope_factors_long", "rope_factors_short"] then
    some ((List.range gguf.blockCount).foldl
      (fun s i => createTensor s t (ropeTarget i t.name) (d.layers i)) s)
  else
    let layerIndex := firstNumber isNumber t.name
    if 0 ≤ layerIndex then
      if layerIndex < gguf.blockCount then
        let moePin := d.gpuLayers && gguf.tensors.any fun t' => isMoEExpertTensor t'.name
        some (createTensor s t [] (if moePin && isMoEExpertTensor t.name then
          d.expertLayers layerIndex.toNat else d.layers layerIndex.toNat))
      else none
    else some (createTensor s t [] d.input)

structure Backend where
  gguf : GGUF
  allocMemory : Bool
  tensorLoadTargets : GoMap GoString (List GoString)
  /-- The type of each tensor, by its name. -/
  tensors : GoMap GoString Nat

/-- The tensors of the contexts, by their names. -/
def collect (order : List BufferType) (ctxs : GoMap BufferType (List GgmlTensor)) :
    GoMap GoString Nat :=
  order.foldl (fun tensors bt => ((ctxs.lookup bt).getD []).foldl
    (fun tensors tt => tensors.insert tt.name tt.type) tensors) ∅

/-- `New`; `order` is the one in which the map of the contexts is visited. -/
def newBackend (gguf : GGUF) (d : Devices) (allocMemory : Bool) (order : List BufferType) :
    Option Backend := do
  let s ← gguf.tensors.foldlM (assign isNumber gguf d) ⟨∅, ∅⟩
  some ⟨gguf, allocMemory, s.targets, collect order s.ctxs⟩

end IsNumber

/-! ## Targets -/

/-- The tensor is one that `New` repeats for every layer. -/
def IsRope (name : GoString) : Prop :=
  containsPart name ["position_embd", "token_embd", "token_norm_embd", "token_types"] = false ∧
    containsPart name ["cls", "output", "output_norm", "altup_proj", "altup_unembd_proj",
      "per_layer_token_embd", "per_layer_model_proj", "per_layer_proj_norm"] = false ∧
    ((lit "v.").isPrefixOf name || (lit "mm.").isPrefixOf name ||
      (lit "s.").isPrefixOf name) = false ∧
    containsPart name ["rope_freqs", "rope_factors_long", "rope_factors_short"] = true

/-- What `New` makes of a name. -/
inductive IsTarget (gguf : GGUF) (name : GoString) : GoString → Prop
  | own : ¬IsRope name → IsTarget gguf name []
  | output : (∀ t' ∈ gguf.tensors, groupLayersKey t'.name ≠ lit "output") →
      name = lit "token_embd.weight" → IsTarget gguf name (lit "output.weight")
  | rope (i : Nat) : IsRope name → IsTarget gguf name (ropeTarget i name)

/-- Every target that was recorded is one of its name. -/
def Creating.Sound (gguf : GGUF) (s : Creating) : Prop :=
  ∀ name, ∀ target ∈ (s.targets.lookup name).getD [], IsTarget gguf name target

theorem Creating.Sound.createTensor {gguf : GGUF} {s : Creating} (h : s.Sound gguf) {t : Tensor}
    {target : GoString} (htarget : IsTarget gguf t.name target) (bts : List BufferType) :
    (createTensor s t target bts).Sound gguf := by
  cases bts with
  | nil => exact h
  | cons bt bts =>
    intro name target' hmem
    have hmem' : target' ∈ ((s.targets.insert t.name
        ((s.targets.lookup t.name).getD [] ++ [target])).lookup name).getD [] := hmem
    rw [GoMap.lookup_insert_ite] at hmem'
    split at hmem'
    · rename_i heq
      subst heq
      rcases List.mem_append.mp hmem' with hmem' | hmem'
      · exact h t.name target' hmem'
      · rw [List.mem_singleton.mp hmem']
        exact htarget
    · exact h name target' hmem'

theorem Creating.Sound.assign {isNumber : Char → Bool} {gguf : GGUF} {d : Devices} {s s' : Creating}
    (h : s.Sound gguf) {t : Tensor} (hs : assign isNumber gguf d s t = some s') :
    s'.Sound gguf := by
  unfold Ggml.assign at hs
  split at hs
  · rename_i hinput
    have hown : IsTarget gguf t.name [] := .own fun hrope => by
      rw [hrope.1] at hinput
      cases hinput
    simp only at hs
    split at hs
    · rename_i hout
      cases hs
      exact (h.createTensor hown _).createTensor (.output hout.1 hout.2) _
    · cases hs
      exact h.createTensor hown _
  · split at hs
    · rename_i houtput
      cases hs
      refine h.createTensor (.own fun hrope => ?_) _
      rw [hrope.2.1] at houtput
      cases houtput
    · split at hs
      · rename_i hprefix
        cases hs
        refine h.createTensor (.own fun hrope => ?_) _
        rw [hrope.2.2.1] at hprefix
        cases hprefix
      · rename_i hinput houtput hprefix
        split at hs
        · rename_i hrope
          cases hs
          have hisRope : IsRope t.name := ⟨Bool.eq_false_iff.mpr hinput,
            Bool.eq_false_iff.mpr houtput, Bool.eq_false_iff.mpr hprefix, hrope⟩
          induction List.range gguf.blockCount generalizing s with
          | nil => exact h
          | cons i is ih => exact ih (h.createTensor (.rope i hisRope) _)
        · rename_i hrope
          have hown : IsTarget gguf t.name [] := .own fun hr => hrope hr.2.2.2
          simp only at hs
          split at hs
          · split at hs
            · cases hs
              exact h.createTensor hown _
            · cases hs
          · cases hs
            exact h.createTensor hown _

theorem newBackend_targets {isNumber : Char → Bool} {gguf : GGUF} {d : Devices} {allocMemory : Bool}
    {order : List BufferType} {b : Backend}
    (h : newBackend isNumber gguf d allocMemory order = some b) :
    b.gguf = gguf ∧
      ∀ name, ∀ target ∈ (b.tensorLoadTargets.lookup name).getD [], IsTarget gguf name target := by
  unfold newBackend at h
  obtain ⟨s, hs, hb⟩ := Option.bind_eq_some_iff.mp h
  cases hb
  refine ⟨rfl, ?_⟩
  have hsound : ∀ (ts : List Tensor) (s₀ s : Creating), s₀.Sound gguf →
      ts.foldlM (assign isNumber gguf d) s₀ = some s → s.Sound gguf := by
    intro ts
    induction ts with
    | nil =>
      intro s₀ s h₀ hs
      cases hs
      exact h₀
    | cons t ts ih =>
      intro s₀ s h₀ hs
      rw [List.foldlM_cons] at hs
      obtain ⟨s₁, hs₁, hs⟩ := Option.bind_eq_some_iff.mp hs
      exact ih s₁ s (h₀.assign hs₁) hs
  refine hsound gguf.tensors ⟨∅, ∅⟩ s (fun name target hmem => ?_) hs
  exact absurd hmem List.not_mem_nil

/-- The tensor of the backend that a target of a name means. -/
def targetName (name target : GoString) : GoString := if target = [] then name else target

/-- The parts of a rope target are those of the name, after two others. -/
theorem parts_ropeTarget (i : Nat) (name : GoString) :
    parts (ropeTarget i name) = lit "blk" :: itoa i :: parts name := by
  have hblk : lit "blk." = lit "blk" ++ [0x2E] := by decide
  have hdot : lit "." = [0x2E] := by decide
  have hno : (0x2E : UInt8) ∉ lit "blk" := by decide
  have hnodigit : (0x2E : UInt8) ∉ itoa i := fun hmem => by
    have hle := (itoa_digits i _ hmem).1
    exact absurd hle (by decide)
  have hassoc : ropeTarget i name = lit "blk" ++ 0x2E :: (itoa i ++ 0x2E :: name) := by
    rw [ropeTarget, hblk, hdot]
    simp only [List.append_assoc, List.cons_append, List.nil_append]
  rw [parts, hassoc, List.splitOn_append_cons_self_of_not_mem hno,
    List.splitOn_append_cons_self_of_not_mem hnodigit]
  rfl

/-- A part with a byte above the digits that is not `blk`. -/
theorem containsPart_ropeTarget (i : Nat) (name : GoString) {names : List String}
    (h : ∀ part ∈ names, lit part ≠ lit "blk" ∧ ∃ c ∈ lit part, 57 < c.toNat) :
    containsPart (ropeTarget i name) names = containsPart name names := by
  have hany : ∀ part ∈ names,
      decide (lit part ∈ parts (ropeTarget i name)) = decide (lit part ∈ parts name) := by
    intro part hpart
    obtain ⟨hblk, c, hc, hlt⟩ := h part hpart
    have hdigits : lit part ≠ itoa i := fun heq => by
      have hle := (itoa_digits i c (heq ▸ hc)).2
      omega
    rw [parts_ropeTarget]
    simp [hblk, hdigits]
  unfold containsPart
  induction names with
  | nil => rfl
  | cons part names ih =>
    rw [List.any_cons, List.any_cons, hany part List.mem_cons_self,
      ih (fun p hp => h p (List.mem_cons_of_mem _ hp))
        (fun p hp => hany p (List.mem_cons_of_mem _ hp))]

/-- A rope target is itself a name that `New` repeats for every layer. -/
theorem IsRope.ropeTarget {name : GoString} (h : IsRope name) (i : Nat) :
    IsRope (ropeTarget i name) := by
  obtain ⟨hinput, houtput, -, hrope⟩ := h
  refine ⟨?_, ?_, ?_, ?_⟩
  · rw [containsPart_ropeTarget i name (by decide), hinput]
  · rw [containsPart_ropeTarget i name (by decide), houtput]
  · have hblk : lit "blk." = [0x62, 0x6C, 0x6B, 0x2E] := by decide
    have hv : lit "v." = [0x76, 0x2E] := by decide
    have hmm : lit "mm." = [0x6D, 0x6D, 0x2E] := by decide
    have hs : lit "s." = [0x73, 0x2E] := by decide
    simp [Ggml.ropeTarget, hblk, hv, hmm, hs, List.isPrefixOf]
  · rw [containsPart_ropeTarget i name (by decide), hrope]

theorem ropeTarget_injective {i j : Nat} {name name' : GoString}
    (h : ropeTarget i name = ropeTarget j name') : name = name' := by
  have hparts := congrArg parts h
  rw [parts_ropeTarget, parts_ropeTarget] at hparts
  injection hparts with _ hparts
  injection hparts with _ hparts
  have hjoin := congrArg join hparts
  rwa [join, join, parts, parts, List.intercalate_splitOn, List.intercalate_splitOn] at hjoin

theorem ropeTarget_eq_cons (i : Nat) (name : GoString) :
    ∃ rest, ropeTarget i name = 0x62 :: rest := by
  have hblk : lit "blk." = [0x62, 0x6C, 0x6B, 0x2E] := by decide
  exact ⟨_, by rw [ropeTarget, hblk]; rfl⟩

/-- Two tensors of a file share no target unless they share the name. -/
theorem IsTarget.name_eq {gguf : GGUF} {t t' : Tensor} (ht : t ∈ gguf.tensors)
    (ht' : t' ∈ gguf.tensors) {target target' : GoString} (h : IsTarget gguf t.name target)
    (h' : IsTarget gguf t'.name target')
    (heq : targetName t.name target = targetName t'.name target') : t.name = t'.name := by
  have hout : lit "output.weight" ≠ [] := by decide
  have hkey : groupLayersKey (lit "output.weight") = lit "output" := by decide
  have houtrope : ∀ i name, lit "output.weight" ≠ ropeTarget i name := by
    intro i name hrope
    obtain ⟨rest, hrest⟩ := ropeTarget_eq_cons i name
    have hhead : (lit "output.weight").head? = some 0x6F := by decide
    rw [hrope, hrest] at hhead
    cases hhead
  have hropene : ∀ i name, ropeTarget i name ≠ [] := by
    intro i name hnil
    obtain ⟨rest, hrest⟩ := ropeTarget_eq_cons i name
    rw [hrest] at hnil
    cases hnil
  unfold targetName at heq
  cases h with
  | own hrope =>
    cases h' with
    | own hrope' => exact heq
    | output hno _ =>
      rw [if_pos rfl, if_neg hout] at heq
      exact absurd (heq ▸ hkey) (hno t ht)
    | rope i hrope' =>
      rw [if_pos rfl, if_neg (hropene i _)] at heq
      exact absurd (heq ▸ hrope'.ropeTarget i) hrope
  | output hno hname =>
    cases h' with
    | own hrope' =>
      rw [if_pos rfl, if_neg hout] at heq
      exact absurd (heq ▸ hkey) (hno t' ht')
    | output _ hname' => rw [hname, hname']
    | rope i hrope' =>
      rw [if_neg hout, if_neg (hropene i _)] at heq
      exact absurd heq (houtrope i _)
  | rope i hrope =>
    cases h' with
    | own hrope' =>
      rw [if_pos rfl, if_neg (hropene i _)] at heq
      exact absurd (heq ▸ hrope.ropeTarget i) hrope'
    | output _ _ =>
      rw [if_neg hout, if_neg (hropene i _)] at heq
      exact absurd heq.symm (houtrope i _)
    | rope j hrope' =>
      rw [if_neg (hropene i _), if_neg (hropene j _)] at heq
      exact ropeTarget_injective heq

end Prismalama.Ggml
