import Prismalama.Tokenizer.MergeOrder
import Prismalama.Tokenizer.SentencePiece

/-!
# The order of the merges

The queue of `SentencePiece.Encode` is ordered by score and position, and its loop merges as the
naive procedure does. The heap of `BytePairEncoding.Encode` is ordered by rank alone: of two
candidates of one rank either may come first, and the loop leaves what some choice leaves.
-/

namespace Prismalama.Tokenizer

open Prismalama.Lib

/-- A heap that gives an element which no other one is less than. -/
structure MinHeap {π : Type*} (less : π → π → Bool) extends Heap π where
  pop_least : ∀ q x rest, pop q = some (x, rest) → ∀ y ∈ rest, less y x = false

theorem popLeast_least {π ω : Type*} [LinearOrder ω] {less : π → π → Bool} (f : π → ω)
    (hless : ∀ y x, less y x = true ↔ f y < f x) {q : List π} {x : π} {rest : List π}
    (h : popLeast less q = some (x, rest)) : ∀ y ∈ rest, f x ≤ f y := by
  induction q generalizing x rest with
  | nil => cases h
  | cons z q ih =>
    unfold popLeast at h
    cases hpop : popLeast less q with
    | none =>
      rw [hpop] at h
      cases h
      cases q with
      | nil => exact fun y hy => absurd hy List.not_mem_nil
      | cons w q =>
        have hsome := (Heap.ofLess less).pop_isSome w q
        rw [show (Heap.ofLess less).pop (w :: q) = none from hpop] at hsome
        cases hsome
    | some popped =>
      obtain ⟨w, rest₀⟩ := popped
      rw [hpop] at h
      dsimp only at h
      have hw := ih hpop
      split at h
      · next hlt =>
        cases h
        exact List.forall_mem_cons.mpr ⟨((hless _ _).mp hlt).le, hw⟩
      · next hnlt =>
        cases h
        have hzw : f z ≤ f w := not_lt.mp fun hlt => hnlt ((hless _ _).mpr hlt)
        intro y hy
        rcases List.mem_cons.mp ((perm_of_popLeast hpop).mem_iff.mp hy) with rfl | hy
        · exact hzw
        · exact hzw.trans (hw y hy)

/-- A heap for an order by keys. -/
def MinHeap.ofKey {π ω : Type*} [LinearOrder ω] {less : π → π → Bool} (f : π → ω)
    (hless : ∀ y x, less y x = true ↔ f y < f x) : MinHeap less where
  toHeap := Heap.ofLess less
  pop_least := by
    intro q x rest hpop y hy
    have hle := popLeast_least f hless hpop y hy
    rw [Bool.eq_false_iff]
    exact fun hlt => absurd ((hless y x).mp hlt) (not_lt.mpr hle)

theorem length_lt_of_prefix {l left : List Char} (h : l <+: left) (hne : left ≠ l) :
    (encodeRunes l).length < (encodeRunes left).length := by
  obtain ⟨t, rfl⟩ := h
  have ht : t ≠ [] := fun heq => hne (by rw [heq, List.append_nil])
  rw [encodeRunes_append, List.length_append]
  cases t with
  | nil => exact absurd rfl ht
  | cons c t =>
    have hpos : 0 < (encodeRunes (c :: t)).length := by
      rw [List.length_pos_iff]
      intro hnil
      have hdec := decodeRunes_encodeRunes (c :: t)
      rw [hnil] at hdec
      cases hdec
    omega

/-- Segments that have grown and together have as many bytes as before have not grown. -/
theorem same_of_length {l r left right : List Char} (hl : l <+: left) (hr : r <+: right)
    (hlen : (encodeRunes left).length + (encodeRunes right).length =
      (encodeRunes l).length + (encodeRunes r).length) : left = l ∧ right = r := by
  have hle : ∀ {s t : List Char}, s <+: t → (encodeRunes s).length ≤ (encodeRunes t).length := by
    rintro s t ⟨u, rfl⟩
    rw [encodeRunes_append, List.length_append]
    exact Nat.le_add_right _ _
  have hll := hle hl
  have hrr := hle hr
  constructor
  · by_contra hne
    have hlt := length_lt_of_prefix hl hne
    omega
  · by_contra hne
    have hlt := length_lt_of_prefix hr hne
    omega

/-! ## SentencePiece -/

namespace SentencePiece

variable {σ : Type*}

/-- The naive procedure: segments whose concatenation is in the vocabulary may be merged, and the
highest score is the least weight. -/
def naive [LinearOrder σ] (v : Vocabulary σ) : Merging Char σ σᵒᵈ where
  cand left right :=
    let id := v.encode (encodeRunes (left ++ right))
    if 0 ≤ id then v.tokens[id.toNat]?.map (·.score) else none
  weight := OrderDual.toDual
  leftmost := true

theorem rules_exact (v : Vocabulary σ) : (rules v).Exact where
  same := by
    intro l r left right k hkey hl hr hjoins
    dsimp only [rules] at hkey hjoins
    split at hkey
    · obtain ⟨t, -, rfl⟩ := Option.map_eq_some_iff.mp hkey
      exact same_of_length hl hr (eq_of_beq hjoins)
    · cases hkey

variable [LinearOrder σ]

/-- The order of the queue. -/
theorem less_iff (v : Vocabulary σ) (y x : Pair (CandidateKey σ)) : less y x = true ↔
    PopsBefore (rules v) (fun k => OrderDual.toDual k.score) true y x := by
  simp only [less, PopsBefore, Merging.Before, MergeRules.merging, Bool.or_eq_true,
    Bool.and_eq_true, decide_eq_true_eq, beq_iff_eq, OrderDual.toDual_lt_toDual, true_and,
    OrderDual.toDual_inj]

theorem greedy_rules (v : Vocabulary σ) (n : Nat) (segs : List (List Char)) :
    ((rules v).merging (fun k => OrderDual.toDual k.score) true).greedy n segs =
      (naive v).greedy n segs := by
  refine Merging.greedy_congr (fun l r => ?_) n segs
  simp only [MergeRules.merging, rules, naive, encodeRunes_append]
  split
  · cases v.tokens[(v.encode (encodeRunes l ++ encodeRunes r)).toNat]? <;> simp
  · rfl

theorem mergeRunes_naive (v : Vocabulary σ) (heap : MinHeap (less (σ := σ))) (runes : List Char) :
    mergeRunes (rules v) heap.toHeap runes =
      some ((naive v).greedy runes.length (runes.map fun c => [c])) := by
  obtain ⟨ps, hps, -⟩ := mergeRunes_spec runes (rules v) heap.toHeap
    (P := fun _ => True) (fun _ _ => trivial) fun _ _ _ _ _ _ => trivial
  have hheap : ∀ q x rest, heap.pop q = some (x, rest) → ∀ y ∈ rest,
      ¬PopsBefore (rules v) (fun k => OrderDual.toDual k.score) true y x := by
    intro q x rest hpop y hy hbefore
    have hless := heap.pop_least q x rest hpop y hy
    rw [(less_iff v y x).mpr hbefore] at hless
    cases hless
  have hmerges := (canLeave_iff (rules_exact v) runes ps).mp (canLeave_mergeRunes hheap hps)
  rw [hps, ← greedy_rules]
  exact congrArg some ((Merging.merges_iff _ rfl (by simp) ps).mp hmerges)

omit [LinearOrder σ] in
/-- A candidate passes the check as long as its segments are what they were. -/
theorem joins_of_key {v : Vocabulary σ} {l r : List Char} {k : CandidateKey σ}
    (h : (rules v).key l r = some k) : (rules v).joins k l r = true := by
  dsimp only [rules] at h ⊢
  split at h
  · obtain ⟨t, -, rfl⟩ := Option.map_eq_some_iff.mp h
    exact beq_self_eq_true _
  · cases h

/-- The loop leaves the segments that the naive procedure leaves; a candidate is joined only with
the segments it was made for, and none is missing. -/
theorem encodeFragment_naive (v : Vocabulary σ) (heap : MinHeap (less (σ := σ))) {frag : Fragment}
    (hraw : frag.ids = []) (hnot : v.encode (mark frag.value) < 0) :
    encodeFragment (fun _ => heap.toHeap) v frag =
        some (((naive v).greedy (decodeRunes (mark frag.value)).length
          ((decodeRunes (mark frag.value)).map fun c => [c])).flatMap (pieceIds v)) ∧
    ∀ merges q, Visits (rules v).noting (decodeRunes (mark frag.value)) merges q →
      (∀ x ∈ q, ¬Stale (rules v).noting merges x → Neighbours merges x.a x.b ∧
        x.key.2 = ((entry merges x.a).runes, (entry merges x.b).runes)) ∧
      ∀ i j k, Neighbours merges i j →
        (rules v).key (entry merges i).runes (entry merges j).runes = some k →
        ⟨i, j, k, (entry merges i).runes, (entry merges j).runes⟩ ∈ q := by
  refine ⟨?_, fun merges q hvisits => ?_⟩
  · rw [encodeFragment, if_neg (not_not.mpr hraw)]
    dsimp only
    rw [if_neg (not_le.mpr hnot), mergeRunes_naive]
    rfl
  · obtain ⟨hsound, hcomplete⟩ := hvisits.sound_complete (rules_exact v)
    exact ⟨hsound, fun i j k hij hkey => hcomplete i j k hij hkey (joins_of_key hkey)⟩

/-- The tokens `a`, `b` and `ab`. -/
def abVocabulary : Vocabulary Nat where
  tokens := [⟨lit "a", 1, 0⟩, ⟨lit "b", 1, 0⟩, ⟨lit "ab", 1, 1⟩]
  merges := []
  bos := []
  eos := []
  addBOS := false
  addEOS := false
  length_le := by simp

/-- The heap that keeps the order in which candidates came. -/
def leastHeap : MinHeap (less (σ := σ)) :=
  .ofKey (fun x : Pair (CandidateKey σ) => toLex (OrderDual.toDual x.key.score, x.a)) fun y x => by
    rw [Prod.Lex.toLex_lt_toLex]
    simp only [less, Bool.or_eq_true, Bool.and_eq_true, decide_eq_true_eq, beq_iff_eq,
      OrderDual.toDual_lt_toDual, OrderDual.toDual_inj]

theorem encodeFragment_naive_aba :
    encodeFragment (fun _ => (leastHeap (σ := Nat)).toHeap) abVocabulary ⟨lit "aba", []⟩ =
      some [2, 0] := by
  have h := (@encodeFragment_naive Nat _ abVocabulary leastHeap ⟨lit "aba", []⟩ rfl
    (by decide)).1
  rw [h]
  decide

end SentencePiece

/-! ## Byte-pair encoding -/

namespace BytePairEncoding

variable {σ : Type*}

/-- The naive procedure: segments with a rank whose concatenation is in the vocabulary may be
merged, the lowest rank first. -/
def naive (bpe : BytePairEncoding σ) (leftmost : Bool) : Merging Char Int Int where
  cand left right :=
    let rank := bpe.vocab.merge (encodeRunes left) (encodeRunes right)
    if 0 ≤ rank ∧ 0 ≤ bpe.vocab.encode (encodeRunes (left ++ right)) then some rank else none
  weight rank := rank
  leftmost := leftmost

theorem rules_exact (bpe : BytePairEncoding σ) : bpe.rules.Exact where
  same := by
    intro l r left right k hkey hl hr hjoins
    dsimp only [rules] at hkey hjoins
    split at hkey
    · cases hkey
    · cases hkey
      have hvalue := eq_of_beq (Bool.and_eq_true_iff.mp hjoins).1
      have hlen := congrArg List.length hvalue
      rw [List.length_append, List.length_append] at hlen
      exact same_of_length hl hr hlen

theorem cand_rules (bpe : BytePairEncoding σ) (leftmost : Bool) (l r : List Char) :
    ((bpe.rules.merging PairKey.rank leftmost).cand l r).map PairKey.rank =
      ((bpe.naive leftmost).cand l r).map fun rank => rank := by
  simp only [MergeRules.merging, rules, naive, encodeRunes_append]
  by_cases hrank : bpe.vocab.merge (encodeRunes l) (encodeRunes r) < 0
  · simp [hrank, not_le.mpr hrank]
  · by_cases hid : 0 ≤ bpe.vocab.encode (encodeRunes l ++ encodeRunes r)
    · simp [hrank, not_lt.mp hrank, hid]
    · simp [hrank, hid, not_le.mp hid]

/-- What `Encode` makes of a part, with a heap of which only the rank of what it gives is
known. -/
def EncodesPart (bpe : BytePairEncoding σ) (part : GoString) (ids : List Int) : Prop :=
  let normalized := bpe.normalize part
  if 0 ≤ bpe.vocab.encode normalized then ids = [bpe.vocab.encode normalized]
  else ∃ ps, CanLeave bpe.rules PairKey.rank false (decodeRunes normalized) ps ∧
    ids = ps.flatMap bpe.pieceIds

/-- What the naive procedure makes of a part, of equal ranks the leftmost first. -/
def referenceIds (bpe : BytePairEncoding σ) (part : GoString) : List Int :=
  let runes := decodeRunes (bpe.normalize part)
  ((bpe.naive true).greedy runes.length (runes.map fun c => [c])).flatMap bpe.pieceIds

/-- It does not matter to the naive procedure which one of equal ranks comes first. -/
def TiesAgree (bpe : BytePairEncoding σ) (part : GoString) : Prop :=
  ∀ ps, (bpe.naive false).Merges ((decodeRunes (bpe.normalize part)).map fun c => [c]) ps →
    ps.flatMap bpe.pieceIds = bpe.referenceIds part

instance (bpe : BytePairEncoding σ) (part : GoString) : Decidable (bpe.TiesAgree part) :=
  decidable_of_iff (∀ ps ∈ (bpe.naive false).outcomes
      ((decodeRunes (bpe.normalize part)).map fun c => [c]).length
      ((decodeRunes (bpe.normalize part)).map fun c => [c]),
      ps.flatMap bpe.pieceIds = bpe.referenceIds part)
    (forall_congr' fun ps => imp_congr_left (Merging.merges_iff_outcomes _ (le_refl _) ps).symm)

theorem not_popsBefore {bpe : BytePairEncoding σ} {x y : Pair PairKey}
    (h : compare y.key.rank x.key.rank ≠ .lt) : ¬PopsBefore bpe.rules PairKey.rank false y x := by
  rintro (hlt | ⟨-, hleft, -⟩)
  · exact h (compare_lt_iff_lt.mpr hlt)
  · cases hleft

/-- `encodePart` does it with any heap that gives a pair of lowest rank. -/
theorem encodesPart_of_encodePart (bpe : BytePairEncoding σ)
    {newWith : (Pair PairKey → Pair PairKey → Ordering) → Heap (Pair PairKey)}
    (hheap : ∀ q x rest,
      (newWith fun i j => compare i.key.rank j.key.rank).pop q = some (x, rest) →
      ∀ y ∈ rest, compare y.key.rank x.key.rank ≠ .lt)
    {part : GoString} {ids : List Int} (h : bpe.encodePart newWith part = some ids) :
    bpe.EncodesPart part ids := by
  unfold encodePart at h
  unfold EncodesPart
  dsimp only at h ⊢
  split
  · next hid =>
    rw [if_pos hid] at h
    exact (Option.some.inj h).symm
  · next hid =>
    rw [if_neg hid] at h
    obtain ⟨ps, hps, rfl⟩ := Option.map_eq_some_iff.mp h
    exact ⟨ps, canLeave_mergeRunes (fun q x rest hpop y hy =>
      not_popsBefore (hheap q x rest hpop y hy)) hps, rfl⟩

/-- What `Encode` makes of a part is what the naive procedure makes of it, for every heap, if and
only if ties do not matter. -/
theorem encodesPart_right_iff (bpe : BytePairEncoding σ) {part : GoString}
    (hnot : bpe.vocab.encode (bpe.normalize part) < 0) :
    (∀ ids, bpe.EncodesPart part ids → ids = bpe.referenceIds part) ↔ bpe.TiesAgree part := by
  have hcan : ∀ ps, CanLeave bpe.rules PairKey.rank false (decodeRunes (bpe.normalize part)) ps ↔
      (bpe.naive false).Merges ((decodeRunes (bpe.normalize part)).map fun c => [c]) ps := by
    intro ps
    rw [canLeave_iff bpe.rules_exact]
    exact ⟨fun h => h.congr (bpe.cand_rules false) rfl,
      fun h => h.congr (fun l r => (bpe.cand_rules false l r).symm) rfl⟩
  unfold EncodesPart TiesAgree
  dsimp only
  simp only [if_neg (not_le.mpr hnot)]
  constructor
  · intro h ps hps
    exact h _ ⟨ps, (hcan ps).mpr hps, rfl⟩
  · rintro h ids ⟨ps, hps, rfl⟩
    exact h ps ((hcan ps).mp hps)

/-- The tokens `a` and `aa`. -/
def aaEncoding : BytePairEncoding Nat where
  vocab :=
    { tokens := [⟨lit "a", 1, 0⟩, ⟨lit "aa", 1, 0⟩]
      merges := [lit "a a"]
      bos := []
      eos := []
      addBOS := false
      addEOS := false
      length_le := by simp }
  regexps := []
  spaceToSpmSep := false

/-- Either pair may come first. -/
theorem encodesPart_right_aabaa : aaEncoding.TiesAgree (lit "aabaa") ∧ ∀ ids,
    aaEncoding.EncodesPart (lit "aabaa") ids → ids = aaEncoding.referenceIds (lit "aabaa") := by
  have hties : aaEncoding.TiesAgree (lit "aabaa") := by decide
  exact ⟨hties, (encodesPart_right_iff aaEncoding (by decide)).mpr hties⟩

/-- A heap in which the last element takes the place of the one that is given. -/
def lastFirst {π : Type*} (less : π → π → Bool) : Heap π where
  push q x := q ++ [x]
  pop q := (popLeast less q).map fun popped =>
    (popped.1, popped.2.drop (popped.2.length - 1) ++ popped.2.take (popped.2.length - 1))
  push_perm q x := List.perm_append_singleton x q
  pop_perm q x rest h := by
    obtain ⟨popped, hpop, heq⟩ := Option.map_eq_some_iff.mp h
    cases heq
    refine (perm_of_popLeast hpop).trans (List.Perm.cons _ ?_)
    refine List.Perm.trans ?_ List.perm_append_comm
    rw [List.take_append_drop]
  pop_isSome x q := by
    rw [Option.isSome_map]
    exact (Heap.ofLess less).pop_isSome x q

/-- Of five runes with the rank of their pairs the first two are merged, then the last two. -/
theorem encodesPart_not_reference : aaEncoding.vocab.encode (aaEncoding.normalize (lit "aaaaa")) < 0 ∧
    aaEncoding.EncodesPart (lit "aaaaa") [1, 0, 1] ∧
    [1, 0, 1] ≠ aaEncoding.referenceIds (lit "aaaaa") := by
  refine ⟨by decide, ?_, by decide⟩
  refine @encodesPart_of_encodePart Nat aaEncoding
    (fun cmp => lastFirst fun y x => cmp y x == .lt) (fun q x rest hpop y hy hlt => ?_) _ _
    (by decide)
  obtain ⟨popped, hleast, heq⟩ := Option.map_eq_some_iff.mp hpop
  cases heq
  have hle := popLeast_least (fun x : Pair PairKey => x.key.rank)
    (fun y x => beq_iff_eq.trans compare_lt_iff_lt) hleast y
    ((List.mem_append.mp hy).elim List.mem_of_mem_drop List.mem_of_mem_take)
  exact absurd (compare_lt_iff_lt.mp hlt) (not_lt.mpr hle)

end BytePairEncoding

end Prismalama.Tokenizer
