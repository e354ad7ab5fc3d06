import Prismalama.Lib.Stops
import Prismalama.Lib.Utf8Prefix

/-!
# Stop strings (`runner/common/stop.go`)

The runner looks for stop strings in the pieces that it has not sent yet, keeps them back while
they end in the beginning of a stop string or of a character, and cuts them before a stop string.
-/

namespace Prismalama.Runner

open Prismalama.Lib

/-- The first of the stop strings that occurs. -/
def findStop (sequence : GoString) (stops : List GoString) : Option GoString :=
  stops.find? fun stop => contains sequence stop

def containsStopSuffix (sequence : GoString) (stops : List GoString) : Bool :=
  stops.any fun stop =>
    (List.range stop.length).any fun i => (stop.take (i + 1)).isSuffixOf sequence

/-- The loop that splits a string into pieces of the given lengths; a piece can be cut short. -/
def splitLengths (joined : GoString) : List Nat → Nat → List GoString × Bool
  | [], _ => ([], false)
  | length :: lengths, start =>
    if joined.length ≤ start then ([], false)
    else
      let fin := min (start + length) joined.length
      let rest := splitLengths joined lengths fin
      ((joined.take fin).drop start :: rest.1, decide (joined.length < start + length) || rest.2)

/-- The pieces before the stop string, and whether the last one was cut. -/
def truncateStop (pieces : List GoString) (stop : GoString) : List GoString × Bool :=
  let joined := pieces.flatten
  match index joined stop with
  | none => (pieces, false)
  | some i => splitLengths (joined.take i) (pieces.map List.length) 0

/-- The scan of the last bytes, from the end; `i` counts them. -/
def incompleteFrom (i : Nat) : List UInt8 → Bool
  | [] => false
  | c :: before =>
    if c &&& 0xC0 = 0x80 then incompleteFrom (i + 1) before
    else if c &&& 0xE0 = 0xC0 then decide (i < 2)
    else if c &&& 0xF0 = 0xE0 then decide (i < 3)
    else if c &&& 0xF8 = 0xF0 then decide (i < 4)
    else false

/-- An incomplete character is at the end, as far as the last four bytes tell. -/
def incompleteUnicode (token : GoString) : Bool := incompleteFrom 1 (token.reverse.take 4)

/-! ## What they find -/

theorem findStop_eq_none_iff {sequence : GoString} {stops : List GoString} :
    findStop sequence stops = none ↔ ∀ stop ∈ stops, ¬stop <:+: sequence := by
  simp only [findStop, List.find?_eq_none, contains_iff_occurs]

theorem of_findStop {sequence stop : GoString} {stops : List GoString}
    (h : findStop sequence stops = some stop) : stop ∈ stops ∧ stop <:+: sequence :=
  ⟨List.mem_of_find?_eq_some h, contains_iff_occurs.mp (List.find?_some h)⟩

/-- Behind what no stop can start in, the same stops are found. -/
theorem findStop_append {sent sequence : GoString} {stops : List GoString}
    (h : Apart stops sent) : findStop (sent ++ sequence) stops = findStop sequence stops := by
  refine List.find?_congr fun stop hmem => ?_
  rw [contains, contains, h.index_append hmem, Option.isSome_map]

/-- The sequence ends in no beginning of a stop string. -/
theorem not_starts_of_containsStopSuffix {sequence : GoString} {stops : List GoString}
    (h : containsStopSuffix sequence stops = false) :
    ∀ stop ∈ stops, ∀ t, t ≠ [] → t <:+ sequence → ¬t <+: stop := by
  intro stop hmem t hne hsuffix hstarts
  have hpos := List.length_pos_iff.mpr hne
  have hle := hstarts.length_le
  have htake : stop.take (t.length - 1 + 1) = t := by
    rw [Nat.sub_add_cancel hpos]
    exact (List.prefix_iff_eq_take.mp hstarts).symm
  have hfound : containsStopSuffix sequence stops = true := by
    rw [containsStopSuffix, List.any_eq_true]
    refine ⟨stop, hmem, List.any_eq_true.mpr ⟨t.length - 1, List.mem_range.mpr (by omega), ?_⟩⟩
    rw [htake]
    exact List.isSuffixOf_iff_suffix.mpr hsuffix
  rw [h] at hfound
  cases hfound

/-- Pieces that are long enough give the string back. -/
theorem flatten_splitLengths (joined : GoString) (lengths : List Nat) {start : Nat}
    (h : joined.length ≤ start + lengths.sum) :
    (splitLengths joined lengths start).1.flatten = joined.drop start := by
  induction lengths generalizing start with
  | nil =>
    rw [List.sum_nil] at h
    exact (List.drop_eq_nil_of_le h).symm
  | cons length lengths ih =>
    rw [splitLengths]
    rw [List.sum_cons] at h
    split
    · rename_i hend
      exact (List.drop_eq_nil_of_le hend).symm
    · rename_i hend
      rw [not_le] at hend
      have hfin : start ≤ min (start + length) joined.length := by omega
      show (joined.take _).drop start ++ (splitLengths joined lengths _).1.flatten = _
      rw [ih (by omega)]
      calc (joined.take (min (start + length) joined.length)).drop start
            ++ joined.drop (min (start + length) joined.length)
          = (joined.take (min (start + length) joined.length)
              ++ joined.drop (min (start + length) joined.length)).drop start := by
            rw [List.drop_append_of_le_length]
            rw [List.length_take]
            omega
        _ = joined.drop start := by rw [List.take_append_drop]

/-- What is left of the pieces is the text before the stop string. -/
theorem flatten_truncateStop {pieces : List GoString} {stop : GoString} {i : Nat}
    (h : index pieces.flatten stop = some i) :
    (truncateStop pieces stop).1.flatten = pieces.flatten.take i := by
  rw [truncateStop]
  simp only [h]
  rw [flatten_splitLengths _ _ ?_, List.drop_zero]
  rw [Nat.zero_add, ← List.length_flatten, List.length_take]
  exact Nat.min_le_right _ _

theorem continuation_ofNat : ∀ m < 256, 0x80 ≤ m → m < 0xC0 → UInt8.ofNat m &&& 0xC0 = 0x80 := by
  decide +kernel

theorem first_ofNat : ∀ m < 256, 0xC0 ≤ m → m < 0xF8 →
    decide (UInt8.ofNat m &&& 0xC0 = 0x80) = false ∧
      decide (UInt8.ofNat m &&& 0xE0 = 0xC0) = decide (m < 0xE0) ∧
      decide (UInt8.ofNat m &&& 0xF0 = 0xE0) = decide (0xE0 ≤ m ∧ m < 0xF0) ∧
      decide (UInt8.ofNat m &&& 0xF8 = 0xF0) = decide (0xF0 ≤ m) := by
  decide +kernel

/-- The first byte of an encoding of several bytes ends the scan. -/
theorem incompleteFrom_first {m : Nat} (hm : 0xC0 ≤ m) (hm' : m < 0xF8) (i : Nat)
    (before : List UInt8) : incompleteFrom i (UInt8.ofNat m :: before) =
      decide (i < if m < 0xE0 then 2 else if m < 0xF0 then 3 else 4) := by
  obtain ⟨hcont, htwo, hthree, hfour⟩ := first_ofNat m (by omega) hm hm'
  simp only [decide_eq_false_iff_not, decide_eq_decide] at hcont htwo hthree hfour
  rw [incompleteFrom, if_neg hcont]
  simp only [htwo, hthree, hfour]
  split_ifs <;> first | rfl | omega

/-- The scan goes over the bytes that continue an encoding. -/
theorem incompleteFrom_append {s : List UInt8} (h : ∀ x ∈ s, x &&& 0xC0 = 0x80) (i : Nat)
    (before : List UInt8) :
    incompleteFrom i (s ++ before) = incompleteFrom (i + s.length) before := by
  induction s generalizing i with
  | nil => rfl
  | cons x s ih =>
    rw [List.cons_append, incompleteFrom, if_pos (h x List.mem_cons_self),
      ih (fun y hy => h y (List.mem_cons_of_mem x hy)), List.length_cons, Nat.add_assoc,
      Nat.add_comm 1]

/-- The bytes of an encoding as the scan sees them. -/
theorem utf8EncodeChar_scan (c : Char) : ∃ b s, String.utf8EncodeChar c = b :: s ∧
    (∀ x ∈ s, x &&& 0xC0 = 0x80) ∧ s.length ≤ 3 ∧
    (s ≠ [] → ∀ i before, incompleteFrom i (b :: before) = decide (i < s.length + 1)) := by
  obtain ⟨v, hvalid⟩ := c
  have hv : v.toNat < 0xD800 ∨ 0xDFFF < v.toNat ∧ v.toNat < 0x110000 := hvalid
  unfold String.utf8EncodeChar
  simp only
  generalize v.toNat = n at hv ⊢
  clear hvalid
  split_ifs with h₁ h₂ h₃
  · exact ⟨_, [], rfl, by simp, by simp, fun h => absurd rfl h⟩
  · refine ⟨_, _, rfl, ?_, by simp, fun _ i before => ?_⟩
    · simp only [List.mem_cons, List.not_mem_nil, or_false]
      rintro x rfl
      exact continuation_ofNat _ (by omega) (by omega) (by omega)
    · rw [incompleteFrom_first (by omega) (by omega), if_pos (by omega)]
      rfl
  · refine ⟨_, _, rfl, ?_, by simp, fun _ i before => ?_⟩
    · simp only [List.mem_cons, List.not_mem_nil, or_false]
      rintro x (rfl | rfl) <;> exact continuation_ofNat _ (by omega) (by omega) (by omega)
    · rw [incompleteFrom_first (by omega) (by omega), if_neg (by omega), if_pos (by omega)]
      rfl
  · refine ⟨_, _, rfl, ?_, by simp, fun _ i before => ?_⟩
    · simp only [List.mem_cons, List.not_mem_nil, or_false]
      rintro x (rfl | rfl | rfl) <;> exact continuation_ofNat _ (by omega) (by omega) (by omega)
    · rw [incompleteFrom_first (by omega) (by omega), if_neg (by omega), if_neg (by omega)]
      rfl

/-- The beginning of an encoding at the end is noticed. -/
theorem incompleteUnicode_of_beginning {v p : GoString} (h : Beginning p) (hne : p ≠ []) :
    incompleteUnicode (v ++ p) = true := by
  obtain ⟨c, u, hu, hc⟩ := h
  obtain ⟨b, s, hbytes, hcont, hlen, hscan⟩ := utf8EncodeChar_scan c
  cases p with
  | nil => exact absurd rfl hne
  | cons b' p =>
    rw [hbytes, List.cons_append, List.cons.injEq] at hc
    obtain ⟨rfl, rfl⟩ := hc
    have hpos := List.length_pos_iff.mpr hu
    rw [List.length_append] at hlen
    have hrev : (v ++ b :: p).reverse.take 4
        = p.reverse ++ b :: v.reverse.take (3 - p.length) := by
      rw [List.reverse_append, List.reverse_cons, List.append_assoc, List.take_append,
        List.take_of_length_le (by rw [List.length_reverse]; omega), List.length_reverse]
      have hfour : 4 - p.length = 3 - p.length + 1 := by omega
      rw [hfour]
      rfl
    have hcont' : ∀ x ∈ p.reverse, x &&& 0xC0 = 0x80 :=
      fun x hx => hcont x (List.mem_append_left u (List.mem_reverse.mp hx))
    rw [incompleteUnicode, hrev, incompleteFrom_append hcont',
      hscan (fun hnil => hu (List.append_eq_nil_iff.mp hnil).2), decide_eq_true_eq,
      List.length_reverse, List.length_append]
    omega

end Prismalama.Runner
