import Prismalama.Tokenizer.EncodeOrder
import Prismalama.XTokenizer.RoundTrip

/-!
# The order of the merges (`x/tokenizer/tokenizer_bpe.go`)

The heap is ordered by rank and position, and the links of two entries that are not empty are those
of neighbours, so the loop merges as the naive procedure does (`encodeBPEMerge_naive`).
-/

namespace Prismalama.XTokenizer

open Prismalama.Lib Prismalama.Tokenizer

/-- The naive procedure: tokens whose pair has a rank and whose concatenation is in the vocabulary
may be merged, the lowest rank first and of equal ranks the leftmost. -/
def naive (v : Vocabulary) : Merging Char Int Int where
  cand left right :=
    if left = [] ∨ right = [] then none
    else
      (v.merges.lookup (encodeRunes left ++ encodeRunes [' '] ++ encodeRunes right)).filter
        fun _ => (v.reverse.lookup (encodeRunes left ++ encodeRunes right)).isSome
  weight rank := rank
  leftmost := true

/-- The tokens of the naive procedure. -/
def referenceTokens (v : Vocabulary) (encoded : GoString) : List (List Char) :=
  let runes := decodeRunes encoded
  (naive v).greedy runes.length (runes.map fun c => [c])

/-- The tokens that the loop of `encodeBPEMerge` leaves. -/
def mergedTokens (heap : Heap (Pair PairKey)) (v : Vocabulary) (encoded : GoString) :
    Option (List (List Char)) :=
  let runes := decodeRunes encoded
  let nodes := startMerges runes
  let pairs := startPairs (rules v) heap nodes
  (linkedMergeLoop (rules v) heap (3 * runes.length + pairs.length) nodes pairs).map segments

theorem rules_exact (v : Vocabulary) : (rules v).Exact where
  same := by
    intro l r left right k hkey hl hr hjoins
    dsimp only [rules] at hkey hjoins
    split at hkey
    · cases hkey
    · split at hkey
      · cases hkey
      · split at hkey
        · cases hkey
          have hlen := congrArg List.length (eq_of_beq hjoins)
          rw [List.length_append, List.length_append] at hlen
          exact same_of_length hl hr hlen
        · cases hkey

/-- The order of the heap. -/
theorem less_iff (v : Vocabulary) (y x : Pair PairKey) :
    less y x = true ↔ PopsBefore (rules v) PairKey.rank true y x := by
  simp only [less, PopsBefore, Merging.Before, MergeRules.merging, Bool.or_eq_true,
    Bool.and_eq_true, decide_eq_true_eq, beq_iff_eq, true_and]

theorem cand_rules (v : Vocabulary) (l r : List Char) :
    (((rules v).merging PairKey.rank true).cand l r).map PairKey.rank =
      ((naive v).cand l r).map fun rank => rank := by
  simp only [MergeRules.merging, rules, naive]
  split
  · rfl
  · cases v.merges.lookup (encodeRunes l ++ encodeRunes [' '] ++ encodeRunes r) with
    | none => rfl
    | some rank =>
      by_cases hvalue : (v.reverse.lookup (encodeRunes l ++ encodeRunes r)).isSome = true
      · simp [hvalue, Option.filter]
      · simp [hvalue]

/-- Two entries that are not empty are linked as long as nothing is between them, so that the loop
passes over nothing but stale pairs. -/
theorem runs_of_linkedMergeLoop {R : MergeRules PairKey} {weight : PairKey → Int}
    {heap : Heap (Pair PairKey)} (hheap : ∀ q x rest, heap.pop q = some (x, rest) →
      ∀ y ∈ rest, ¬PopsBefore R weight true y x)
    {fuel : Nat} {nodes out : List Merge} {q : List (Pair PairKey)} (hinv : LoopInv R nodes q)
    (h : linkedMergeLoop R heap fuel nodes q = some out) : Runs R weight true nodes q out := by
  have hdone : ∀ {q : List (Pair PairKey)}, heap.pop q = none → q = [] := by
    intro q hpop
    cases q with
    | nil => rfl
    | cons x q =>
      have hsome := heap.pop_isSome x q
      rw [hpop] at hsome
      cases hsome
  induction fuel generalizing nodes q with
  | zero =>
    rw [linkedMergeLoop] at h
    split at h
    · next hpop =>
      cases h
      rw [hdone (Option.isNone_iff_eq_none.mp hpop)]
      exact .done
    · cases h
  | succ fuel ih =>
    rw [linkedMergeLoop] at h
    cases hpop : heap.pop q with
    | none =>
      rw [hpop] at h
      cases h
      rw [hdone hpop]
      exact .done
    | some popped =>
      obtain ⟨x, rest⟩ := popped
      rw [hpop] at h
      dsimp only at h
      have hperm := heap.pop_perm q x rest hpop
      have hleast := hheap q x rest hpop
      have hskip : Stale R nodes x → linkedMergeLoop R heap fuel nodes rest = some out →
          Runs R weight true nodes q out := fun hstale hrest =>
        .skip hperm hleast hstale (ih ((hinv.perm hperm).skip hstale) hrest)
      split at h
      · next hempty => exact hskip (hempty.imp_right .inl) h
      · next hfull =>
        obtain ⟨hleft, hright⟩ := not_or.mp hfull
        obtain ⟨hab, hb, hgap⟩ := (hinv.perm hperm).pairs x List.mem_cons_self
        have hneighbours : Neighbours nodes x.a x.b :=
          ⟨hab, ⟨hab.trans hb, hleft⟩, ⟨hb, hright⟩, hgap⟩
        split at h
        · next hlinks =>
          rcases hlinks with hnext | hprev
          · exact absurd (hinv.next _ _ hneighbours) hnext
          · exact absurd (hinv.prev _ _ hneighbours) hprev
        · split at h
          · next hjoins => exact hskip (.inr (.inr hjoins)) h
          · next hjoins =>
            have hfresh : ¬Stale R nodes x := by
              rintro (hempty | hempty | hnot)
              · exact hleft hempty
              · exact hright hempty
              · exact hjoins hnot
            have hpushed := (pushPair_perm heap (pushPair heap rest
                (pairwise R (join nodes x.a x.b) (entry (join nodes x.a x.b) x.a).p x.a))
              (pairwise R (join nodes x.a x.b) x.a (entry (join nodes x.a x.b) x.a).n)).trans
                ((pushPair_perm heap rest _).append_left _)
            have hjoined := (hinv.perm hperm).join hneighbours
            exact .join hperm hleast hfresh ((ih (hjoined.perm hpushed.symm) h).perm hpushed)

/-- The loop leaves the tokens of the naive procedure. -/
theorem encodeBPEMerge_naive (heap : MinHeap less) (t : Tokenizer) (encoded : GoString)
    (ids : List Int) :
    mergedTokens heap.toHeap t.vocab encoded = some (referenceTokens t.vocab encoded) ∧
      encodeBPEMerge (fun _ => heap.toHeap) t encoded ids =
        some (ids ++ (referenceTokens t.vocab encoded).flatMap (nodeIds t)) := by
  have hheap : ∀ q x rest, heap.pop q = some (x, rest) → ∀ y ∈ rest,
      ¬PopsBefore (rules t.vocab) PairKey.rank true y x := by
    intro q x rest hpop y hy hbefore
    have hless := heap.pop_least q x rest hpop y hy
    rw [(less_iff t.vocab y x).mpr hbefore] at hless
    cases hless
  obtain ⟨nodes, hnodes, -, -⟩ := linkedMerges_spec (R := rules t.vocab) (P := fun _ => True)
    (Q := fun _ => True) heap.toHeap (decodeRunes encoded) (fun _ _ _ _ => trivial)
    (fun _ _ _ _ _ => trivial) fun _ _ => trivial
  have hstart := (loopInv_start (R := rules t.vocab) (decodeRunes encoded)).perm
    (startPairs_perm heap.toHeap _).symm
  have hruns := runs_of_linkedMergeLoop hheap hstart hnodes
  have hmerges := hruns.merged (rules_exact t.vocab) hstart
  rw [segments_startMerges] at hmerges
  have htokens : segments nodes = referenceTokens t.vocab encoded := by
    rw [(Merging.merges_iff _ rfl (by rw [List.length_map]) _).mp hmerges]
    exact Merging.greedy_congr (cand_rules t.vocab) _ _
  refine ⟨?_, ?_⟩
  · rw [mergedTokens, hnodes, Option.map_some, htokens]
  · have hids : nodes.flatMap (fun node => nodeIds t node.runes) =
        (segments nodes).flatMap (nodeIds t) := by
      have hfilter : ∀ ps : List (List Char),
          (ps.filter (· ≠ [])).flatMap (nodeIds t) = ps.flatMap (nodeIds t) := by
        intro ps
        induction ps with
        | nil => rfl
        | cons p ps ih =>
          by_cases hp : p = []
          · subst hp
            rw [List.filter_cons_of_neg (by simp), List.flatMap_cons, ih]
            rfl
          · rw [List.filter_cons_of_pos (by simpa using hp), List.flatMap_cons, ih,
              List.flatMap_cons]
      rw [segments, hfilter, pieces, List.flatMap_map]
    rw [encodeBPEMerge]
    dsimp only
    split
    · next hnil =>
      have hnone : referenceTokens t.vocab encoded = [] := by
        rw [referenceTokens, hnil]
        rfl
      rw [hnone, List.flatMap_nil, List.append_nil]
    · rw [hnodes, ← htokens, ← hids]
      rfl

/-- The heap that keeps the order in which pairs came. -/
def rankHeap : MinHeap less :=
  .ofKey (fun x : Pair PairKey => toLex (x.key.rank, x.a)) fun y x => by
    rw [Prod.Lex.toLex_lt_toLex]
    simp only [less, Bool.or_eq_true, Bool.and_eq_true, decide_eq_true_eq, beq_iff_eq]

theorem isSome_lookup_byteTokenizer (token : GoString) :
    (byteTokenizer.vocab.reverse.lookup token).isSome = byteValues.contains token := by
  rw [Bool.eq_iff_iff, List.contains_iff_mem]
  refine ⟨fun h => ?_, isSome_lookup_valueIds⟩
  obtain ⟨id, hid⟩ := Option.isSome_iff_exists.mp h
  exact List.mem_of_getElem? (lookup_valueIds hid).2

/-- The naive procedure with the values of `byteTokenizer` in place of its map. -/
def byteMerging : Merging Char Int Int where
  cand left right :=
    if left = [] ∨ right = [] then none
    else
      (byteTokenizer.vocab.merges.lookup
        (encodeRunes left ++ encodeRunes [' '] ++ encodeRunes right)).filter
        fun _ => byteValues.contains (encodeRunes left ++ encodeRunes right)
  weight rank := rank
  leftmost := true

theorem referenceTokens_byteTokenizer (encoded : GoString) :
    referenceTokens byteTokenizer.vocab encoded =
      byteMerging.greedy (decodeRunes encoded).length ((decodeRunes encoded).map fun c => [c]) := by
  refine Merging.greedy_congr (fun left right => ?_) _ _
  simp only [naive, byteMerging, isSome_lookup_byteTokenizer]

/-- A token that has one place among the values is encoded as that place. -/
theorem nodeIds_byteTokenizer {runes : List Char} (hne : runes ≠ []) {n : Nat}
    (hn : byteValues[n]? = some (encodeRunes runes))
    (hone : ∀ m < byteValues.length, byteValues[m]? = some (encodeRunes runes) → m = n) :
    nodeIds byteTokenizer runes = [(n : Int)] := by
  have hsome := isSome_lookup_valueIds (List.mem_of_getElem? hn)
  obtain ⟨id, hid⟩ := Option.isSome_iff_exists.mp hsome
  obtain ⟨hnonneg, hplace⟩ := lookup_valueIds hid
  have hlt := (List.getElem?_eq_some_iff.mp hplace).1
  have hvalue := hone id.toNat hlt hplace
  have hlookup : byteTokenizer.vocab.reverse.lookup (encodeRunes runes) = some id := hid
  rw [nodeIds, if_neg hne, hlookup, ← hvalue, Int.toNat_of_nonneg hnonneg]

theorem encodeBPEMerge_naive_hih :
    encodeBPEMerge (fun _ => rankHeap.toHeap) byteTokenizer (encodeRunes ['h', 'i', 'h']) [] =
      some [256, 104] := by
  have htokens : referenceTokens byteTokenizer.vocab (encodeRunes ['h', 'i', 'h']) =
      [['h', 'i'], ['h']] := by
    rw [referenceTokens_byteTokenizer]
    decide
  rw [(encodeBPEMerge_naive rankHeap byteTokenizer (encodeRunes ['h', 'i', 'h']) []).2, htokens,
    List.flatMap_cons, List.flatMap_singleton,
    @nodeIds_byteTokenizer ['h', 'i'] (by decide) 256 (by decide +kernel) (by decide +kernel),
    @nodeIds_byteTokenizer ['h'] (by decide) 104 (by decide +kernel) (by decide +kernel)]
  rfl

end Prismalama.XTokenizer
