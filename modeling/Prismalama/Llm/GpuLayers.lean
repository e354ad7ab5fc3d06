import Mathlib.Tactic

/-!
# Which layers go to the GPU (`llm/gpu_layers.go`)

`packGPULayers` gives a tail of the layers to the GPU. It packs whole layers, or, for a mixture of
experts, pins everything else of all layers and packs experts only (`Packing`). Byte counts are
`uint64`, with sums that wrap.
-/

namespace Prismalama.Llm

/-- A sum of `uint64` -/
def add64 (a b : Nat) : Nat := (a + b) % 18446744073709551616

def sumU64 (xs : List Nat) : Nat := xs.foldl add64 0

structure Tensor where
  name : String
  size : Nat

/-- The tensors of a layer under their names, `none` for a nil pointer. -/
abbrev Layer := List (String × Option Tensor)

def isMoEExpertTensor (name : String) : Bool := decide ("_exps".toList <:+: name.toList)

/-- The routed experts of a layer. -/
def layerExperts (layer : Layer) : Nat :=
  layer.foldl (fun exp entry =>
    match entry.2 with
    | none => exp
    | some t =>
      if isMoEExpertTensor entry.1 || isMoEExpertTensor t.name then add64 exp t.size else exp) 0

/-- The experts of a layer, the pinned bytes and whether there are experts, after layer `i`. -/
def moeStep (grouped : Nat → Option Layer) (totals : List Nat) (acc : List Nat × Nat × Bool)
    (i : Nat) : List Nat × Nat × Bool :=
  match grouped i with
  | none => acc
  | some layer =>
    let exp := layerExperts layer
    if exp = 0 then acc
    else
      (acc.1.set i exp,
        if exp < totals.getD i 0 then add64 acc.2.1 (totals.getD i 0 - exp) else acc.2.1, true)

/-- `grouped i` is the group `blk.i` of the file. -/
def moeExpertBytes (grouped : Nat → Option Layer) (totals : List Nat) : List Nat × Nat × Bool :=
  if totals.length = 0 then (totals, 0, false)
  else (List.range (totals.length - 1)).foldl (moeStep grouped totals) (totals, 0, false)

theorem length_moeStep (grouped : Nat → Option Layer) (totals : List Nat)
    (acc : List Nat × Nat × Bool) (i : Nat) :
    (moeStep grouped totals acc i).1.length = acc.1.length := by
  rw [moeStep]
  split
  · rfl
  · dsimp only
    split
    · rfl
    · exact List.length_set

/-- There are as many entries of experts as layers. -/
theorem length_moeExpertBytes (grouped : Nat → Option Layer) (totals : List Nat) :
    (moeExpertBytes grouped totals).1.length = totals.length := by
  have hfold : ∀ (is : List Nat) (acc : List Nat × Nat × Bool),
      (is.foldl (moeStep grouped totals) acc).1.length = acc.1.length := by
    intro is
    induction is with
    | nil => exact fun _ => rfl
    | cons i is ih => exact fun acc => (ih _).trans (length_moeStep grouped totals acc i)
  rw [moeExpertBytes]
  split
  · rfl
  · exact hfold _ _

/-- The bytes of a layer with its KV cache, which the output layer does not have. -/
def extra (layerWeights kv : List Nat) (i : Nat) : Nat :=
  if i < kv.length then add64 (layerWeights.getD i 0) (kv.getD i 0) else layerWeights.getD i 0

/-- The loop of `fitLayersFromEnd`, with `i` layers to come. -/
def fitLoop (layerWeights kv : List Nat) (budget capN : Nat) :
    Nat → List Nat → Nat → List Nat
  | 0, picked, _ => picked
  | i + 1, picked, used =>
    if capN ≤ picked.length then picked
    else if budget < extra layerWeights kv i ∨ budget < add64 used (extra layerWeights kv i) then
      picked
    else
      fitLoop layerWeights kv budget capN i (picked ++ [i]) (add64 used (extra layerWeights kv i))

/-- `capN` -/
def layerCap (n : Nat) (maxLayers : Int) : Nat :=
  if 0 < maxLayers ∧ maxLayers < n then maxLayers.toNat else n

def fitLayersFromEnd (layerWeights kv : List Nat) (budget : Nat) (maxLayers : Int) : List Nat :=
  if layerWeights.length = 0 ∨ budget = 0 ∨ maxLayers = 0 then []
  else
    (fitLoop layerWeights kv budget (layerCap layerWeights.length maxLayers) layerWeights.length
      [] 0).reverse

/-- The largest expert layer; the last entry is the output. -/
def maxExpert (experts : List Nat) : Nat :=
  experts.dropLast.foldl (fun maxExp e => if maxExp < e then e else maxExp) 0

def packGPULayers (totals experts kv : List Nat) (pinned : Nat) (hasMoE : Bool) (budget : Nat)
    (maxLayers : Int) : List Nat :=
  if hasMoE = false ∨ pinned = 0 then fitLayersFromEnd totals kv budget maxLayers
  else
    let allKV := sumU64 kv
    if budget ≤ pinned ∨ budget - pinned ≤ allKV then fitLayersFromEnd totals kv budget maxLayers
    else
      let rest := budget - pinned - allKV
      let full := fitLayersFromEnd experts [] rest maxLayers
      if full.length = experts.length then full
      else
        let maxExp := maxExpert experts
        if maxExp = 0 ∨ rest ≤ maxExp then fitLayersFromEnd totals kv budget maxLayers
        else fitLayersFromEnd experts [] (rest - maxExp) maxLayers

/-! ## Tails -/

/-- The last `c` of `n` layers. -/
def tail (n c : Nat) : List Nat := List.range' (n - c) c

/-- The bytes of the last `c` of `n` layers. -/
def tailBytes (bytes : Nat → Nat) (n : Nat) : Nat → Nat
  | 0 => 0
  | c + 1 => bytes (n - (c + 1)) + tailBytes bytes n c

theorem tailBytes_mono (bytes : Nat → Nat) (n : Nat) {c c' : Nat} (h : c ≤ c') :
    tailBytes bytes n c ≤ tailBytes bytes n c' := by
  induction h with
  | refl => exact le_rfl
  | step _ ih =>
    rw [tailBytes]
    omega

theorem tail_succ {n c : Nat} (h : c + 1 ≤ n) : tail n (c + 1) = (n - (c + 1)) :: tail n c := by
  have hnext : n - (c + 1) + 1 = n - c := by omega
  rw [tail, tail, List.range'_succ, hnext]

/-- A tail that fits and that no longer one does, within the cap. -/
structure Fits (bytes : Nat → Nat) (n capN budget c : Nat) : Prop where
  cap : c ≤ capN
  fits : tailBytes bytes n c ≤ budget
  longest : c = capN ∨ budget < tailBytes bytes n (c + 1)

theorem Fits.mono {bytes : Nat → Nat} {n capN budget budget' c c' : Nat}
    (h : Fits bytes n capN budget c) (h' : Fits bytes n capN budget' c') (hle : budget ≤ budget') :
    c ≤ c' := by
  by_contra hlt
  rcases h'.longest with rfl | hover
  · exact hlt h.cap
  · have hmono := tailBytes_mono bytes n (show c' + 1 ≤ c by omega)
    have hfits := h.fits
    omega

/-- The loop, where no sum wraps. -/
theorem fitLoop_spec {weights kv : List Nat} {budget n capN : Nat} (hcap : capN ≤ n)
    (hsum : tailBytes (extra weights kv) n n < 18446744073709551616) {i c : Nat} (hi : i + c = n)
    (hc : c ≤ capN) (hbytes : tailBytes (extra weights kv) n c ≤ budget) :
    ∃ c', fitLoop weights kv budget capN i (tail n c).reverse
        (tailBytes (extra weights kv) n c) = (tail n c').reverse ∧
      Fits (extra weights kv) n capN budget c' := by
  induction i generalizing c with
  | zero => exact ⟨c, rfl, hc, hbytes, Or.inl (by omega)⟩
  | succ i ih =>
    have hlen : (tail n c).reverse.length = c := by
      rw [List.length_reverse, tail, List.length_range']
    have hlayer : n - (c + 1) = i := by omega
    have hnext : tailBytes (extra weights kv) n (c + 1) =
        extra weights kv i + tailBytes (extra weights kv) n c := by rw [tailBytes, hlayer]
    have hadd : add64 (tailBytes (extra weights kv) n c) (extra weights kv i) =
        tailBytes (extra weights kv) n (c + 1) := by
      have hle := tailBytes_mono (extra weights kv) n (show c + 1 ≤ n by omega)
      rw [add64, Nat.mod_eq_of_lt (by omega)]
      omega
    rw [fitLoop, hlen, hadd]
    by_cases hfull : capN ≤ c
    · rw [if_pos hfull]
      exact ⟨c, rfl, hc, hbytes, Or.inl (by omega)⟩
    · rw [if_neg hfull]
      by_cases hover : budget < extra weights kv i ∨
          budget < tailBytes (extra weights kv) n (c + 1)
      · rw [if_pos hover]
        exact ⟨c, rfl, hc, hbytes, Or.inr (by omega)⟩
      · rw [if_neg hover]
        have htail : (tail n c).reverse ++ [i] = (tail n (c + 1)).reverse := by
          rw [tail_succ (by omega), List.reverse_cons, hlayer]
        rw [htail]
        exact ih (by omega) (by omega) (by omega)

theorem layerCap_le (n : Nat) (maxLayers : Int) : layerCap n maxLayers ≤ n := by
  rw [layerCap]
  split
  · omega
  · exact le_rfl

/-- The tail that is given to the GPU. -/
theorem fitLayersFromEnd_spec {weights kv : List Nat} (budget : Nat) (maxLayers : Int)
    (hsum : tailBytes (extra weights kv) weights.length weights.length < 18446744073709551616) :
    ∃ c, fitLayersFromEnd weights kv budget maxLayers = tail weights.length c ∧
      c ≤ layerCap weights.length maxLayers ∧
      tailBytes (extra weights kv) weights.length c ≤ budget ∧
      (budget = 0 ∨ maxLayers = 0 → c = 0) ∧
      (budget ≠ 0 → maxLayers ≠ 0 →
        Fits (extra weights kv) weights.length (layerCap weights.length maxLayers) budget c) := by
  rw [fitLayersFromEnd]
  have hcap := layerCap_le weights.length maxLayers
  by_cases hnone : weights.length = 0 ∨ budget = 0 ∨ maxLayers = 0
  · rw [if_pos hnone]
    refine ⟨0, rfl, Nat.zero_le _, Nat.zero_le _, fun _ => rfl, fun hb hm => ?_⟩
    have hzero : weights.length = 0 := by
      rcases hnone with h | h | h
      · exact h
      · exact absurd h hb
      · exact absurd h hm
    exact ⟨Nat.zero_le _, Nat.zero_le _, Or.inl (by omega)⟩
  · rw [if_neg hnone]
    obtain ⟨c, hloop, hfits⟩ := @fitLoop_spec weights kv budget weights.length _ hcap hsum
      weights.length 0 (by omega) (Nat.zero_le _) (Nat.zero_le _)
    refine ⟨c, ?_, hfits.cap, hfits.fits, fun h => ?_, fun _ _ => hfits⟩
    · rw [show fitLoop weights kv budget _ weights.length [] 0 = _ from hloop, List.reverse_reverse]
    · exact absurd (Or.inr h) hnone

/-- A larger budget gives no shorter tail. -/
theorem fitLayersFromEnd_mono {weights kv : List Nat} {budget budget' : Nat} (maxLayers : Int)
    (hsum : tailBytes (extra weights kv) weights.length weights.length < 18446744073709551616)
    (hle : budget ≤ budget') :
    (fitLayersFromEnd weights kv budget maxLayers).length ≤
      (fitLayersFromEnd weights kv budget' maxLayers).length := by
  obtain ⟨c, heq, -, -, hzero, hfits⟩ := fitLayersFromEnd_spec budget maxLayers hsum
  obtain ⟨c', heq', -, -, -, hfits'⟩ := fitLayersFromEnd_spec budget' maxLayers hsum
  rw [heq, heq', tail, tail, List.length_range', List.length_range']
  by_cases hnone : budget = 0 ∨ maxLayers = 0
  · rw [hzero hnone]
    exact Nat.zero_le _
  · obtain ⟨hb, hm⟩ := not_or.mp hnone
    exact (hfits hb hm).mono (hfits' (by omega) hm) hle

/-! ## Sums -/

/-- The sizes of some layers. -/
def bytesOf (sizes layers : List Nat) : Nat := (layers.map fun i => sizes.getD i 0).sum

theorem sumU64_eq {xs : List Nat} (hsum : xs.sum < 18446744073709551616) :
    sumU64 xs = xs.sum := by
  suffices h : ∀ a, a + xs.sum < 18446744073709551616 → xs.foldl add64 a = a + xs.sum by
    rw [sumU64, h 0 (by omega), Nat.zero_add]
  clear hsum
  induction xs with
  | nil => exact fun a _ => rfl
  | cons x xs ih =>
    intro a ha
    rw [List.sum_cons] at ha ⊢
    rw [List.foldl_cons, add64, Nat.mod_eq_of_lt (by omega), ih _ (by omega)]
    omega

/-- The sizes of the first `n` layers are part of all sizes. -/
theorem bytesOf_range_le (sizes : List Nat) (n : Nat) :
    bytesOf sizes (List.range n) ≤ sizes.sum := by
  rw [bytesOf]
  induction sizes generalizing n with
  | nil =>
    rw [show (fun i => ([] : List Nat).getD i 0) = fun _ => 0 from funext fun i => rfl]
    simp
  | cons x sizes ih =>
    cases n with
    | zero => exact Nat.zero_le _
    | succ n =>
      rw [List.range_succ_eq_map, List.map_cons, List.map_map, List.sum_cons, List.sum_cons]
      exact Nat.add_le_add_left (ih n) x

theorem tailBytes_eq (bytes : Nat → Nat) {n c : Nat} (h : c ≤ n) :
    tailBytes bytes n c = ((tail n c).map bytes).sum := by
  induction c with
  | zero => rfl
  | succ c ih => rw [tailBytes, tail_succ h, List.map_cons, List.sum_cons, ih (by omega)]

theorem tail_all (n : Nat) : tail n n = List.range n := by
  rw [tail, Nat.sub_self, List.range_eq_range']

theorem getD_le_sum (sizes : List Nat) (i : Nat) : sizes.getD i 0 ≤ sizes.sum := by
  induction sizes generalizing i with
  | nil => exact Nat.le_refl 0
  | cons x sizes ih =>
    rw [List.sum_cons]
    cases i with
    | zero => exact Nat.le_add_right x sizes.sum
    | succ i => exact Nat.le_trans (ih i) (Nat.le_add_left _ _)

theorem extra_eq {weights kv : List Nat} (hsum : weights.sum + kv.sum < 18446744073709551616)
    (i : Nat) : extra weights kv i = weights.getD i 0 + kv.getD i 0 := by
  have hweight := getD_le_sum weights i
  have hkv := getD_le_sum kv i
  rw [extra]
  by_cases hi : i < kv.length
  · rw [if_pos hi, add64, Nat.mod_eq_of_lt (by omega)]
  · have hnone : kv.getD i 0 = 0 := by
      rw [List.getD_eq_getElem?_getD, List.getElem?_eq_none (by omega)]
      rfl
    rw [if_neg hi, hnone, Nat.add_zero]

theorem tailBytes_extra {weights kv : List Nat}
    (hsum : weights.sum + kv.sum < 18446744073709551616) {n c : Nat} (h : c ≤ n) :
    tailBytes (extra weights kv) n c = bytesOf weights (tail n c) + bytesOf kv (tail n c) := by
  rw [tailBytes_eq _ h, funext (extra_eq hsum), List.sum_map_add, bytesOf, bytesOf]

theorem tailBytes_extra_lt {weights kv : List Nat}
    (hsum : weights.sum + kv.sum < 18446744073709551616) (n : Nat) :
    tailBytes (extra weights kv) n n < 18446744073709551616 := by
  rw [tailBytes_extra hsum (Nat.le_refl n), tail_all]
  have hweights := bytesOf_range_le weights n
  have hkv := bytesOf_range_le kv n
  omega

theorem layerCap_le_maxLayers {n : Nat} {maxLayers : Int} (h : 0 < maxLayers) :
    (layerCap n maxLayers : Int) ≤ maxLayers := by
  rw [layerCap]
  split <;> omega

theorem fitLayersFromEnd_fits {weights kv : List Nat} (budget : Nat) (maxLayers : Int)
    (hsum : weights.sum + kv.sum < 18446744073709551616) :
    ∃ c, c ≤ weights.length ∧ (0 < maxLayers → (c : Int) ≤ maxLayers) ∧
      fitLayersFromEnd weights kv budget maxLayers = tail weights.length c ∧
      bytesOf weights (tail weights.length c) + bytesOf kv (tail weights.length c) ≤ budget := by
  obtain ⟨c, heq, hcap, hbytes, -⟩ :=
    fitLayersFromEnd_spec budget maxLayers (tailBytes_extra_lt hsum _)
  have hle : c ≤ weights.length := hcap.trans (layerCap_le _ _)
  refine ⟨c, hle, fun hmax => ?_, heq, ?_⟩
  · have hmaxLayers := layerCap_le_maxLayers (n := weights.length) hmax
    omega
  · rwa [tailBytes_extra hsum hle] at hbytes

/-! ## The packing -/

/-- What is packed: whole layers, the experts of all layers, or experts beside a reserve of the
largest expert layer. -/
inductive Packing where
  | dense
  | full
  | reserved
deriving DecidableEq

/-- What `packGPULayers` packs. -/
def packing (experts kv : List Nat) (pinned : Nat) (hasMoE : Bool) (budget : Nat)
    (maxLayers : Int) : Packing :=
  if hasMoE = false ∨ pinned = 0 ∨ budget ≤ pinned ∨ budget - pinned ≤ sumU64 kv then .dense
  else if (fitLayersFromEnd experts [] (budget - pinned - sumU64 kv) maxLayers).length =
      experts.length then .full
  else if maxExpert experts = 0 ∨ budget - pinned - sumU64 kv ≤ maxExpert experts then .dense
  else .reserved

/-- The memory that a packing takes on the GPU with some layers. -/
def memory (totals experts kv : List Nat) (pinned : Nat) (layers : List Nat) : Packing → Nat
  | .dense => bytesOf totals layers + bytesOf kv layers
  | .full | .reserved =>
    pinned + kv.sum + bytesOf experts layers +
      if layers.length < totals.length then experts.dropLast.foldl max 0 else 0

theorem packGPULayers_eq (totals experts kv : List Nat) (pinned : Nat) (hasMoE : Bool)
    (budget : Nat) (maxLayers : Int) :
    packGPULayers totals experts kv pinned hasMoE budget maxLayers =
      match packing experts kv pinned hasMoE budget maxLayers with
      | .dense => fitLayersFromEnd totals kv budget maxLayers
      | .full => fitLayersFromEnd experts [] (budget - pinned - sumU64 kv) maxLayers
      | .reserved =>
        fitLayersFromEnd experts [] (budget - pinned - sumU64 kv - maxExpert experts)
          maxLayers := by
  rw [packGPULayers, packing]
  by_cases hmoe : hasMoE = false ∨ pinned = 0
  · rw [if_pos hmoe, if_pos (by tauto)]
  · rw [if_neg hmoe]
    dsimp only
    by_cases hroom : budget ≤ pinned ∨ budget - pinned ≤ sumU64 kv
    · rw [if_pos hroom, if_pos (by tauto)]
    · have hsplit : ¬(hasMoE = false ∨ pinned = 0 ∨ budget ≤ pinned ∨
          budget - pinned ≤ sumU64 kv) := by tauto
      rw [if_neg hroom, if_neg hsplit]
      by_cases hfull : (fitLayersFromEnd experts [] (budget - pinned - sumU64 kv)
          maxLayers).length = experts.length
      · rw [if_pos hfull, if_pos hfull]
      · rw [if_neg hfull, if_neg hfull]
        by_cases hreserve : maxExpert experts = 0 ∨
            budget - pinned - sumU64 kv ≤ maxExpert experts
        · rw [if_pos hreserve, if_pos hreserve]
        · rw [if_neg hreserve, if_neg hreserve]

theorem maxExpert_eq (experts : List Nat) :
    maxExpert experts = experts.dropLast.foldl max 0 := by
  have hmax : (fun maxExp e : Nat => if maxExp < e then e else maxExp) = max := by
    funext maxExp e
    split <;> omega
  rw [maxExpert, hmax]

section Budgets

variable {totals experts kv : List Nat} {pinned : Nat} {hasMoE : Bool} {budget budget' : Nat}
  {maxLayers : Int}

theorem packing_full (h : packing experts kv pinned hasMoE budget maxLayers = .full) :
    ¬(hasMoE = false ∨ pinned = 0 ∨ budget ≤ pinned ∨ budget - pinned ≤ sumU64 kv) ∧
      (fitLayersFromEnd experts [] (budget - pinned - sumU64 kv) maxLayers).length =
        experts.length := by
  rw [packing] at h
  split at h
  · cases h
  · next hroom =>
    split at h
    · next hfull => exact ⟨hroom, hfull⟩
    · split at h <;> cases h

theorem packing_reserved (h : packing experts kv pinned hasMoE budget maxLayers = .reserved) :
    ¬(hasMoE = false ∨ pinned = 0 ∨ budget ≤ pinned ∨ budget - pinned ≤ sumU64 kv) ∧
      ¬(maxExpert experts = 0 ∨ budget - pinned - sumU64 kv ≤ maxExpert experts) := by
  rw [packing] at h
  split at h
  · cases h
  · next hroom =>
    split at h
    · cases h
    · split at h
      · cases h
      · next hreserve => exact ⟨hroom, hreserve⟩

/-- Experts that all fit still do with more memory. -/
theorem packing_full_mono (hexperts : experts.sum < 18446744073709551616)
    (h : packing experts kv pinned hasMoE budget maxLayers = .full) (hle : budget ≤ budget') :
    packing experts kv pinned hasMoE budget' maxLayers = .full := by
  obtain ⟨hroom, hfull⟩ := packing_full h
  have hsum : experts.sum + ([] : List Nat).sum < 18446744073709551616 := by simpa using hexperts
  have hmono := fitLayersFromEnd_mono maxLayers (tailBytes_extra_lt hsum _)
    (show budget - pinned - sumU64 kv ≤ budget' - pinned - sumU64 kv by omega)
  obtain ⟨c, hc, -, htail, -⟩ :=
    fitLayersFromEnd_fits (budget' - pinned - sumU64 kv) maxLayers hsum
  have hlen : (fitLayersFromEnd experts [] (budget' - pinned - sumU64 kv) maxLayers).length =
      c := by
    rw [htail, tail, List.length_range']
  rw [packing, if_neg (by grind), if_pos (by omega)]

/-- With more memory than for the reserve, whole layers are not packed. -/
theorem packing_reserved_mono
    (h : packing experts kv pinned hasMoE budget maxLayers = .reserved) (hle : budget ≤ budget') :
    packing experts kv pinned hasMoE budget' maxLayers ≠ .dense := by
  obtain ⟨hroom, hreserve⟩ := packing_reserved h
  rw [packing, if_neg (by grind)]
  split
  · intro hdense
    cases hdense
  · rw [if_neg (by grind)]
    intro hdense
    cases hdense

theorem bytesOf_nil_kv (layers : List Nat) : bytesOf [] layers = 0 := by
  rw [bytesOf, show (fun i => ([] : List Nat).getD i 0) = fun _ => 0 from funext fun i => rfl,
    List.map_const', List.sum_replicate, smul_zero]

/-- The layers are a tail within the cap and fit the budget. -/
theorem packGPULayers_fits (hlen : experts.length = totals.length)
    (htotals : totals.sum + kv.sum < 18446744073709551616)
    (hexperts : experts.sum < 18446744073709551616) :
    ∃ c, c ≤ totals.length ∧ (0 < maxLayers → (c : Int) ≤ maxLayers) ∧
      packGPULayers totals experts kv pinned hasMoE budget maxLayers = tail totals.length c ∧
      memory totals experts kv pinned (tail totals.length c)
        (packing experts kv pinned hasMoE budget maxLayers) ≤ budget := by
  have hsum : experts.sum + ([] : List Nat).sum < 18446744073709551616 := by simpa using hexperts
  have hkv : sumU64 kv = kv.sum := sumU64_eq (by omega)
  have htail (c : Nat) : (tail totals.length c).length = c := by rw [tail, List.length_range']
  rw [packGPULayers_eq]
  cases hpack : packing experts kv pinned hasMoE budget maxLayers with
  | dense => exact fitLayersFromEnd_fits budget maxLayers htotals
  | full =>
    obtain ⟨hroom, hfull⟩ := packing_full hpack
    obtain ⟨c, hc, hmax, heq, hbytes⟩ :=
      fitLayersFromEnd_fits (budget - pinned - sumU64 kv) maxLayers hsum
    rw [hlen] at hc heq hbytes hfull
    rw [heq, htail] at hfull
    refine ⟨c, hc, hmax, heq, ?_⟩
    rw [bytesOf_nil_kv] at hbytes
    rw [memory, htail, if_neg (by omega)]
    omega
  | reserved =>
    obtain ⟨hroom, hreserve⟩ := packing_reserved hpack
    obtain ⟨c, hc, hmax, heq, hbytes⟩ :=
      fitLayersFromEnd_fits (budget - pinned - sumU64 kv - maxExpert experts) maxLayers hsum
    rw [hlen] at hc heq hbytes
    refine ⟨c, hc, hmax, heq, ?_⟩
    rw [bytesOf_nil_kv] at hbytes
    rw [memory, ← maxExpert_eq]
    split <;> omega

/-- More memory gives no fewer layers, unless the packing turns from whole layers to experts
beside a reserve. -/
theorem packGPULayers_mono (hlen : experts.length = totals.length)
    (htotals : totals.sum + kv.sum < 18446744073709551616)
    (hexperts : experts.sum < 18446744073709551616) (hle : budget ≤ budget')
    (hswitch : ¬(packing experts kv pinned hasMoE budget maxLayers = .dense ∧
      packing experts kv pinned hasMoE budget' maxLayers = .reserved)) :
    (packGPULayers totals experts kv pinned hasMoE budget maxLayers).length ≤
      (packGPULayers totals experts kv pinned hasMoE budget' maxLayers).length := by
  have hsum : experts.sum + ([] : List Nat).sum < 18446744073709551616 := by simpa using hexperts
  cases hnew : packing experts kv pinned hasMoE budget' maxLayers with
  | full =>
    -- all layers
    obtain ⟨c, hc, -, heq, -⟩ := @packGPULayers_fits totals experts kv pinned hasMoE budget
      maxLayers hlen htotals hexperts
    have hall := (packing_full hnew).2
    rw [packGPULayers_eq totals experts kv pinned hasMoE budget', hnew, heq, tail,
      List.length_range']
    dsimp only
    omega
  | dense =>
    cases hold : packing experts kv pinned hasMoE budget maxLayers with
    | dense =>
      rw [packGPULayers_eq, packGPULayers_eq, hold, hnew]
      exact fitLayersFromEnd_mono maxLayers (tailBytes_extra_lt htotals _) hle
    | full => rw [packing_full_mono hexperts hold hle] at hnew; cases hnew
    | reserved => exact absurd hnew (packing_reserved_mono hold hle)
  | reserved =>
    cases hold : packing experts kv pinned hasMoE budget maxLayers with
    | dense => exact absurd ⟨hold, hnew⟩ hswitch
    | full => rw [packing_full_mono hexperts hold hle] at hnew; cases hnew
    | reserved =>
      rw [packGPULayers_eq, packGPULayers_eq, hold, hnew]
      exact fitLayersFromEnd_mono maxLayers (tailBytes_extra_lt hsum _) (by omega)

end Budgets

/-- The layers are a tail within the cap that fits the budget, and a larger budget gives no fewer,
unless the packing turns from whole layers to experts beside a reserve. -/
theorem packGPULayers_tail {totals experts kv : List Nat} (pinned : Nat) (hasMoE : Bool)
    (budget : Nat) (maxLayers : Int) (hlen : experts.length = totals.length)
    (htotals : totals.sum + kv.sum < 18446744073709551616)
    (hexperts : experts.sum < 18446744073709551616) :
    ∃ c, c ≤ totals.length ∧ (0 < maxLayers → (c : Int) ≤ maxLayers) ∧
      packGPULayers totals experts kv pinned hasMoE budget maxLayers =
        List.range' (totals.length - c) c ∧
      memory totals experts kv pinned
        (packGPULayers totals experts kv pinned hasMoE budget maxLayers)
        (packing experts kv pinned hasMoE budget maxLayers) ≤ budget ∧
      ∀ budget', budget ≤ budget' →
        ¬(packing experts kv pinned hasMoE budget maxLayers = .dense ∧
          packing experts kv pinned hasMoE budget' maxLayers = .reserved) →
        c ≤ (packGPULayers totals experts kv pinned hasMoE budget' maxLayers).length := by
  obtain ⟨c, hc, hmax, heq, hbytes⟩ := @packGPULayers_fits totals experts kv pinned hasMoE budget
    maxLayers hlen htotals hexperts
  refine ⟨c, hc, hmax, heq, by rw [heq]; exact hbytes, fun budget' hle hswitch => ?_⟩
  have hmono := packGPULayers_mono hlen htotals hexperts hle hswitch
  rwa [heq, tail, List.length_range'] at hmono

/-- For the experts of a file. -/
theorem packGPULayers_moeExpertBytes (grouped : Nat → Option Layer) {totals kv : List Nat}
    (budget : Nat) (maxLayers : Int) (htotals : totals.sum + kv.sum < 18446744073709551616)
    (hexperts : (moeExpertBytes grouped totals).1.sum < 18446744073709551616) :
    ∃ c, c ≤ totals.length ∧ packGPULayers totals (moeExpertBytes grouped totals).1 kv
      (moeExpertBytes grouped totals).2.1 (moeExpertBytes grouped totals).2.2 budget maxLayers =
        List.range' (totals.length - c) c := by
  obtain ⟨c, hc, -, heq, -⟩ := @packGPULayers_fits totals _ kv (moeExpertBytes grouped totals).2.1
    (moeExpertBytes grouped totals).2.2 budget maxLayers (length_moeExpertBytes grouped totals)
    htotals hexperts
  exact ⟨c, hc, heq⟩

theorem packGPULayers_tail_experts :
    ∃ c : Nat, c ≤ 3 ∧ ((0 : Int) < -1 → (c : Int) ≤ -1) ∧
      packGPULayers [10, 10, 1] [5, 5, 1] [] 10 true 17 (-1) = List.range' (3 - c) c ∧
      memory [10, 10, 1] [5, 5, 1] [] 10
        (packGPULayers [10, 10, 1] [5, 5, 1] [] 10 true 17 (-1))
        (packing [5, 5, 1] [] 10 true 17 (-1)) ≤ 17 ∧
      ∀ budget', 17 ≤ budget' →
        ¬(packing [5, 5, 1] [] 10 true 17 (-1) = .dense ∧
          packing [5, 5, 1] [] 10 true budget' (-1) = .reserved) →
        c ≤ (packGPULayers [10, 10, 1] [5, 5, 1] [] 10 true budget' (-1)).length :=
  @packGPULayers_tail [10, 10, 1] [5, 5, 1] [] 10 true 17 (-1) rfl (by decide) (by decide)

/-- One byte more, and the head is alone on the GPU: the reserve is held back. -/
theorem packGPULayers_not_monotone :
    packGPULayers [10, 10, 1] [5, 5, 1] [] 10 true 15 (-1) = [1, 2] ∧
      packGPULayers [10, 10, 1] [5, 5, 1] [] 10 true 16 (-1) = [2] := by
  decide

end Prismalama.Llm
