import Prismalama.XTokenizer.Encode

/-!
# The round trip of the byte-level tokenizer

The parts of a text spell it, the chunks of a part spell the part, and the ids of a chunk decode
to the chunk: whichever pairs are merged, every node that the loop leaves is in the vocabulary.
Encoding a chunk does not look at the ids before it, so the chunks can be divided among any
number of workers.
-/

namespace Prismalama.XTokenizer

open Prismalama.Lib Prismalama.Tokenizer

/-! ## Parts -/

section Parts

variable {tokens : List GoString} {remaining : GoString}

theorem prefix_of_index_zero {s sep : GoString} (h : index s sep = some 0) :
    sep.isPrefixOf s = true := by
  have hval := eq_append_of_index h
  rw [List.take_zero, List.nil_append, Nat.zero_add] at hval
  exact List.isPrefixOf_iff_prefix.mpr ⟨_, hval.symm⟩

/-- A text that no token starts has its nearest token further on. -/
theorem nextPos_pos (hne : remaining ≠ [])
    (hnone : ∀ tok ∈ tokens, tok.isPrefixOf remaining = false) : 0 < nextPos tokens remaining := by
  have hloop : ∀ pos, 0 < pos → 0 < tokens.foldl (nearer remaining) pos := by
    induction tokens with
    | nil => exact fun pos hpos => hpos
    | cons tok tokens ih =>
      intro pos hpos
      rw [List.foldl_cons]
      refine ih (fun tok' h => hnone tok' (List.mem_cons_of_mem tok h)) _ ?_
      unfold nearer
      cases hidx : index remaining tok with
      | none => exact hpos
      | some idx =>
        have hidx0 : idx ≠ 0 := by
          rintro rfl
          have hpre := hnone tok List.mem_cons_self
          rw [prefix_of_index_zero hidx] at hpre
          cases hpre
        dsimp only
        split
        · exact Nat.pos_of_ne_zero hidx0
        · exact hpos
  exact hloop _ (List.length_pos_iff.mpr hne)

/-- The loop ends for tokens that are not empty, and its parts spell the text. -/
theorem splitLoop_spec (hne : ∀ tok ∈ tokens, tok ≠ []) (fuel : Nat) (s : GoString)
    (hfuel : s.length ≤ fuel) :
    ∃ parts, splitLoop tokens fuel s = some parts ∧ parts.flatten = s := by
  induction fuel generalizing s with
  | zero =>
    have hs : s = [] := List.length_eq_zero_iff.mp (by omega)
    subst hs
    exact ⟨[], rfl, rfl⟩
  | succ fuel ih =>
    cases s with
    | nil => exact ⟨[], rfl, rfl⟩
    | cons b s =>
      rw [splitLoop]
      cases hfind : tokens.find? fun tok => tok.isPrefixOf (b :: s) with
      | some tok =>
        have hpre := List.isPrefixOf_iff_prefix.mp
          (List.find?_some (p := fun tok : GoString => tok.isPrefixOf (b :: s)) hfind)
        have hlen := List.length_pos_iff.mpr (hne tok (List.mem_of_find?_eq_some hfind))
        obtain ⟨rest, hrest⟩ := hpre
        obtain ⟨parts, hparts, hspelled⟩ := ih ((b :: s).drop tok.length) (by
          rw [List.length_drop]
          omega)
        refine ⟨tok :: parts, ?_, ?_⟩
        · dsimp only
          rw [hparts]
          rfl
        · rw [List.flatten_cons, hspelled, ← hrest, List.drop_left]
      | none =>
        have hpos : 0 < nextPos tokens (b :: s) := by
          refine nextPos_pos (List.cons_ne_nil b s) fun tok h => ?_
          have hno := List.find?_eq_none.mp hfind tok h
          exact Bool.not_eq_true _ ▸ hno
        obtain ⟨parts, hparts, hspelled⟩ := ih ((b :: s).drop (nextPos tokens (b :: s))) (by
          rw [List.length_drop]
          omega)
        refine ⟨(b :: s).take (nextPos tokens (b :: s)) :: parts, ?_, ?_⟩
        · dsimp only
          rw [hparts, if_pos hpos]
          rfl
        · rw [List.flatten_cons, hspelled, List.take_append_drop]

end Parts

/-! ## Chunks of a part -/

/-- The successive matches from the start of a text: none is empty, and they cover it. -/
inductive Covers (find : GoString → Option (Nat × Nat)) : GoString → Prop where
  | nil (h : find [] = none) : Covers find []
  | cons {rest : GoString} {n : Nat} (h : find rest = some (0, n)) (hpos : 0 < n)
      (hle : n ≤ rest.length) (hrest : Covers find (rest.drop n)) : Covers find rest

section Chunks

variable {isLetter : Char → Bool} {part : GoString}

theorem lastSpaceStart_le {start stop : Nat} (fuel : Nat) {j : Nat} (hj : j ≤ stop) :
    lastSpaceStart part start stop fuel j ≤ stop := by
  induction fuel generalizing j with
  | zero => exact le_refl stop
  | succ fuel ih =>
    rw [lastSpaceStart]
    split
    · dsimp only
      split
      · omega
      · exact ih (by omega)
    · exact le_refl stop

/-- Moving the boundary keeps the two matches next to each other. -/
theorem adjustWhitespaceBoundary_spec {curr next : TokenMatch} (hcurr : curr.start ≤ curr.stop)
    (hnext : next.start = curr.stop) {curr' next' : TokenMatch}
    (h : adjustWhitespaceBoundary isLetter part curr next = (curr', next')) :
    curr'.start = curr.start ∧ curr'.stop = next'.start ∧ curr.start ≤ next'.start ∧
      next'.start ≤ curr.stop ∧ next'.stop = next.stop := by
  unfold adjustWhitespaceBoundary at h
  dsimp only at h
  split at h
  · cases h
    exact ⟨rfl, hnext.symm, by omega, by omega, rfl⟩
  · split at h
    · cases h
      exact ⟨rfl, hnext.symm, by omega, by omega, rfl⟩
    · have hspace := @lastSpaceStart_le part curr.start curr.stop curr.stop curr.stop (le_refl _)
      split at h
      · rename_i hlt
        cases h
        exact ⟨rfl, rfl, le_of_lt hlt, hspace, rfl⟩
      · cases h
        exact ⟨rfl, rfl, le_refl _, hcurr, rfl⟩

variable (part) in
theorem slice_append_drop {start stop : Nat} (h : start ≤ stop) :
    slice part start stop ++ part.drop stop = part.drop start := by
  have hdrop : part.drop stop = (part.drop start).drop (stop - start) := by
    rw [List.drop_drop, Nat.add_sub_cancel' h]
  rw [hdrop, slice, List.take_append_drop]

theorem texts_emit {m : TokenMatch} (h : m.start ≤ m.stop) :
    ((emit part m).map EncodeChunk.text).flatten = slice part m.start m.stop := by
  unfold emit
  split
  · simp
  · rw [slice, Nat.sub_eq_zero_of_le (by omega), List.take_zero]
    rfl

theorem isSpecial_emit {m : TokenMatch} {c : EncodeChunk} (h : c ∈ emit part m) :
    c.isSpecial = false := by
  unfold emit at h
  split at h
  · cases List.mem_singleton.mp h
    rfl
  · cases h

variable (isLetter) in
/-- The loop ends; its chunks spell the part from the current match on. -/
theorem chunkLoop_spec {find : GoString → Option (Nat × Nat)} (fuel offset : Nat)
    (curr : TokenMatch) (hcover : Covers find (part.drop offset))
    (hfuel : part.length - offset ≤ fuel) (hcurr : curr.start ≤ curr.stop)
    (hstop : curr.stop = offset) :
    ∃ chunks, chunkLoop isLetter find part fuel offset curr = some chunks ∧
      (chunks.map EncodeChunk.text).flatten = part.drop curr.start ∧
      ∀ c ∈ chunks, c.isSpecial = false := by
  induction fuel generalizing offset curr with
  | zero =>
    have hend : part.drop offset = [] := List.drop_eq_nil_of_le (by omega)
    rw [hend] at hcover
    have hnone : find [] = none := by
      cases hcover with
      | nil h => exact h
      | cons h hpos hle hrest => exact absurd hle (by simpa using Nat.not_le.mpr hpos)
    refine ⟨emit part curr, ?_, ?_, fun c hc => isSpecial_emit hc⟩
    · rw [chunkLoop, hend, hnone]
    · have hspelled := slice_append_drop part hcurr
      rw [hstop, hend, List.append_nil, ← hstop] at hspelled
      rw [texts_emit hcurr, hspelled]
  | succ fuel ih =>
    generalize hrest : part.drop offset = rest at hcover
    cases hcover with
    | nil hnone =>
      refine ⟨emit part curr, ?_, ?_, fun c hc => isSpecial_emit hc⟩
      · rw [chunkLoop, hrest, hnone]
      · have hspelled := slice_append_drop part hcurr
        rw [hstop, hrest, List.append_nil, ← hstop] at hspelled
        rw [texts_emit hcurr, hspelled]
    | @cons _ n hfind hpos hle hcover =>
      subst hrest
      rw [List.length_drop] at hle
      rw [List.drop_drop] at hcover
      cases hadj : adjustWhitespaceBoundary isLetter part curr ⟨offset + 0, offset + n⟩ with
      | mk curr' next' =>
        obtain ⟨hstart', hmeet, hlow, hhigh, hend⟩ :=
          adjustWhitespaceBoundary_spec hcurr (by show offset + 0 = _; omega) hadj
        have hend' : next'.stop = offset + n := hend
        obtain ⟨chunks, hchunks, hspelled, hplain⟩ := ih (offset + n) next' hcover (by omega)
          (by omega) hend'
        refine ⟨emit part curr' ++ chunks, ?_, ?_, fun c hc => ?_⟩
        · rw [chunkLoop, hfind]
          dsimp only
          rw [hadj]
          dsimp only
          rw [hchunks]
          rfl
        · rw [List.map_append, List.flatten_append, texts_emit (by omega), hspelled, ← hmeet,
            hstart', hmeet, slice_append_drop part hlow]
        · rcases List.mem_append.mp hc with hc | hc
          · exact isSpecial_emit hc
          · exact hplain c hc

/-- A special chunk is a special token. -/
def EncodeChunk.Ok (t : Tokenizer) (c : EncodeChunk) : Prop :=
  c.isSpecial = true → (t.specialTokens.lookup c.text).isSome = true

variable {t : Tokenizer}

variable (isLetter) in
theorem forEachPartChunk_spec
    (hcover : ∀ find, t.pretokenizer = some find → t.specialTokens.lookup part = none →
      Covers find part) :
    ∃ chunks, forEachPartChunk isLetter t part = some chunks ∧
      (chunks.map EncodeChunk.text).flatten = part ∧ ∀ c ∈ chunks, c.Ok t := by
  unfold forEachPartChunk
  by_cases hspecial : (t.specialTokens.lookup part).isSome = true
  · rw [if_pos hspecial]
    refine ⟨_, rfl, by simp, fun c hc => ?_⟩
    cases List.mem_singleton.mp hc
    exact fun _ => hspecial
  · rw [if_neg hspecial]
    rw [Bool.not_eq_true, Option.isSome_eq_false_iff, Option.isNone_iff_eq_none] at hspecial
    cases hpre : t.pretokenizer with
    | none =>
      refine ⟨_, rfl, by simp, fun c hc => ?_⟩
      cases List.mem_singleton.mp hc
      exact fun h => absurd h Bool.false_ne_true
    | some find =>
      cases hcover find hpre hspecial with
      | nil hnone =>
        dsimp only
        rw [hnone]
        exact ⟨[], rfl, rfl, fun c hc => absurd hc List.not_mem_nil⟩
      | @cons _ n hfind hpos hle hrest =>
        dsimp only
        rw [hfind]
        obtain ⟨chunks, hchunks, hspelled, hplain⟩ :=
          chunkLoop_spec isLetter part.length n ⟨0, n⟩ hrest (by omega)
            (Nat.zero_le n) rfl
        refine ⟨chunks, hchunks, hspelled, fun c hc hspecial => ?_⟩
        rw [hplain c hc] at hspecial
        cases hspecial

end Chunks

/-! ## The merge loop -/

section MergeLoop

variable {R : MergeRules PairKey} {heap : Heap (Pair PairKey)} {P : List Char → Prop}
  {Q : PairKey → Prop} {runes : List Char}

theorem key_of_pairwise (hkey : ∀ l r key, R.key l r = some key → Q key) {nodes : List Merge}
    {a : Int} {b : Nat} {x : Pair PairKey} (h : pairwise R nodes a b = some x) : Q x.key := by
  unfold pairwise at h
  split at h
  · cases h
  · obtain ⟨key, hk, rfl⟩ := Option.map_eq_some_iff.mp h
    exact hkey _ _ key hk

variable (heap) in
/-- The loop ends, and a property that every join of a noted pair keeps holds of its nodes. -/
theorem linkedMergeLoop_spec (hkey : ∀ l r key, R.key l r = some key → Q key)
    (hjoin : ∀ l r key, Q key → R.joins key l r = true → P (l ++ r)) :
    ∀ (fuel : Nat) (nodes : List Merge) (q : List (Pair PairKey)), Inv P runes nodes q →
      (∀ x ∈ q, Q x.key) → 3 * (pieces nodes).countP (· ≠ []) + q.length ≤ fuel →
      ∃ nodes', linkedMergeLoop R heap fuel nodes q = some nodes' ∧
        (pieces nodes').flatten = runes ∧ ∀ piece ∈ pieces nodes', piece ≠ [] → P piece := by
  intro fuel
  induction fuel with
  | zero =>
    intro nodes q hinv hq hfuel
    have hnil : q = [] := List.length_eq_zero_iff.mp (by omega)
    subst hnil
    have hpop : heap.pop [] = none := by
      cases hpop : heap.pop [] with
      | none => rfl
      | some out =>
        exact absurd (heap.pop_perm [] out.1 out.2 hpop).nil_eq (List.cons_ne_nil _ _).symm
    refine ⟨nodes, ?_, hinv.spelled, hinv.good⟩
    rw [linkedMergeLoop, hpop]
    rfl
  | succ fuel ih =>
    intro nodes q hinv hq hfuel
    rw [linkedMergeLoop]
    cases hpop : heap.pop q with
    | none => exact ⟨nodes, rfl, hinv.spelled, hinv.good⟩
    | some out =>
      obtain ⟨x, rest⟩ := out
      have hperm := heap.pop_perm q x rest hpop
      have hlen := hperm.length_eq
      rw [List.length_cons] at hlen
      have hinv' : Inv P runes nodes (x :: rest) :=
        ⟨hinv.spelled, hinv.good, hinv.linked, fun y hy => hinv.pairs y (hperm.mem_iff.mpr hy)⟩
      have hq' : ∀ y ∈ x :: rest, Q y.key := fun y hy => hq y (hperm.mem_iff.mpr hy)
      -- a pair that is passed over
      have hskip := ih nodes rest ⟨hinv.spelled, hinv.good, hinv.linked,
        fun y hy => hinv'.pairs y (List.mem_cons_of_mem x hy)⟩
        (fun y hy => hq' y (List.mem_cons_of_mem x hy)) (by omega)
      obtain ⟨hab, hb, -⟩ := hinv'.pairs x List.mem_cons_self
      dsimp only
      split
      · exact hskip
      · rename_i hfull
        rw [not_or] at hfull
        split
        · exact hskip
        · split
          · exact hskip
          · rename_i hjoins
            rw [Bool.not_eq_false] at hjoins
            have hP := hjoin _ _ x.key (hq' x List.mem_cons_self) hjoins
            have hnew := hinv'.join hP hfull.1
            have hcount := countP_join hab hb hfull.1 hfull.2
            have hlen₁ := length_pushPair_le heap rest
              (pairwise R (join nodes x.a x.b) (entry (join nodes x.a x.b) x.a).p x.a)
            have hlen₂ := length_pushPair_le heap (pushPair heap rest
                (pairwise R (join nodes x.a x.b) (entry (join nodes x.a x.b) x.a).p x.a))
              (pairwise R (join nodes x.a x.b) x.a (entry (join nodes x.a x.b) x.a).n)
            refine ih _ _ ⟨hnew.spelled, hnew.good, hnew.linked, fun y hy => ?_⟩ (fun y hy => ?_)
              (by omega)
            · exact ok_of_mem_pushed hnew.linked (by rw [length_join]; exact hab.trans hb)
                hnew.pairs hy
            · rcases mem_pushPair hy with hy | hy
              · rcases mem_pushPair hy with hy | hy
                · exact hq' y (List.mem_cons_of_mem x hy)
                · exact key_of_pairwise hkey hy
              · exact key_of_pairwise hkey hy

theorem key_of_mem_startPairs (hkey : ∀ l r key, R.key l r = some key → Q key)
    {nodes : List Merge} {x : Pair PairKey} (hx : x ∈ startPairs R heap nodes) : Q x.key := by
  have hloop : ∀ (is : List Nat) (q : List (Pair PairKey)), (∀ y ∈ q, Q y.key) →
      ∀ y ∈ is.foldl (fun q (i : Nat) => pushPair heap q (pairwise R nodes i (i + 1))) q,
        Q y.key := by
    intro is
    induction is with
    | nil => exact fun q hq => hq
    | cons i is ih =>
      intro q hq
      refine ih _ fun y hy => ?_
      rcases mem_pushPair hy with hy | hy
      · exact hq y hy
      · exact key_of_pairwise hkey hy
  exact hloop _ [] (fun y hy => absurd hy List.not_mem_nil) x hx

variable (heap runes) in
/-- The nodes that the loop leaves spell the runes, and a property of single runes that every
join of a noted pair has holds of them. -/
theorem linkedMerges_spec (hkey : ∀ l r key, R.key l r = some key → Q key)
    (hjoin : ∀ l r key, Q key → R.joins key l r = true → P (l ++ r)) (hone : ∀ c ∈ runes, P [c]) :
    ∃ nodes, linkedMergeLoop R heap
        (3 * runes.length + (startPairs R heap (startMerges runes)).length) (startMerges runes)
        (startPairs R heap (startMerges runes)) = some nodes ∧
      (pieces nodes).flatten = runes ∧ ∀ piece ∈ pieces nodes, piece ≠ [] → P piece := by
  have hcount : (pieces (startMerges runes)).countP (· ≠ []) ≤ runes.length := by
    refine List.countP_le_length.trans ?_
    rw [length_pieces]
    simp [startMerges]
  have hinv : Inv P runes (startMerges runes) (startPairs R heap (startMerges runes)) := by
    refine ⟨?_, ?_, linked_startMerges runes, fun x hx => ok_of_mem_startPairs hx⟩
    · rw [pieces_startMerges, ← List.flatMap_def, List.flatMap_singleton']
    · rw [pieces_startMerges]
      intro piece hpiece _
      obtain ⟨c, hc, rfl⟩ := List.mem_map.mp hpiece
      exact hone c hc
  exact linkedMergeLoop_spec heap hkey hjoin _ _ _ hinv
    (fun x hx => key_of_mem_startPairs hkey hx) (by omega)

end MergeLoop

/-! ## Bytes and runes -/

theorem runeBytes_byteToRune {b : UInt8} (hb : b ≠ 0) : runeBytes (byteToRune b) = [b] := by
  have hall : ∀ n < 256, n ≠ 0 → runeBytes (byteToRune (UInt8.ofNat n)) = [UInt8.ofNat n] := by
    decide +kernel
  have hbyte := hall b.toNat b.toNat_lt fun hz => hb (UInt8.toNat_inj.mp hz)
  rwa [UInt8.ofNat_toNat] at hbyte

theorem runeBytes_of_ascii {b : UInt8} (hb : b.toNat < 128) : runeBytes (asciiRune b) = [b] := by
  have hall : ∀ n < 128, runeBytes (Char.ofNat n) = [UInt8.ofNat n] := by decide
  rw [asciiRune, hall b.toNat hb, UInt8.ofNat_toNat]

theorem flatMap_byteToRune {s : GoString} (h : (0 : UInt8) ∉ s) :
    (s.map byteToRune).flatMap runeBytes = s :=
  flatMap_map_of_eq_singleton fun _ hb => runeBytes_byteToRune fun hz => h (hz ▸ hb)

theorem flatMap_decodeRunes {s : GoString} (h : ∀ b ∈ s, b.toNat < 128) :
    (decodeRunes s).flatMap runeBytes = s := by
  rw [← encodeRunes_asciiRune h, decodeRunes_encodeRunes, encodeRunes_asciiRune h]
  exact flatMap_map_of_eq_singleton fun b hb => runeBytes_of_ascii (h b hb)

/-! ## Decoding ids -/

section Decode

variable {t : Tokenizer}

/-- An id stands for a value of the vocabulary. -/
def Vocabulary.Names (v : Vocabulary) (id : Int) (token : GoString) : Prop :=
  0 ≤ id ∧ v.values[id.toNat]? = some token

theorem decode_append {ids ids' : List Int} {s s' : GoString} (h : decode t ids = some s)
    (h' : decode t ids' = some s') : decode t (ids ++ ids') = some (s ++ s') := by
  unfold decode at *
  obtain ⟨ss, hss, rfl⟩ := Option.map_eq_some_iff.mp h
  obtain ⟨ss', hss', rfl⟩ := Option.map_eq_some_iff.mp h'
  rw [List.mapM_append, hss, hss']
  simp

theorem decode_singleton {id : Int} {token : GoString} (h : t.vocab.Names id token) :
    decode t [id] = some (decodeToken t token) := by
  have hlt := (List.getElem?_eq_some_iff.mp h.2).1
  have hnot : ¬((t.vocab.values.length : Int) ≤ id) := by
    have hpos := h.1
    omega
  unfold decode decodeId
  rw [List.mapM_cons, if_neg hnot, if_neg (by have hpos := h.1; omega), h.2]
  simp

theorem decodeToken_bpe (htyp : t.typ = .bpe) (token : GoString) :
    decodeToken t token = (decodeRunes token).flatMap runeBytes := by
  unfold decodeToken
  rw [htyp]

end Decode

/-! ## Encoding chunks -/

/-- A byte-level tokenizer over distinct values: `Reverse` gives the place of a value, every byte
has its rune in it, and the special tokens are values, not empty and printable ASCII. -/
structure Tokenizer.ByteLevel (t : Tokenizer) : Prop where
  typ : t.typ = .bpe
  reverse : ∀ token id, t.vocab.reverse.lookup token = some id → t.vocab.Names id token
  bytes : ∀ b, (t.vocab.reverse.lookup (encodeRunes [byteToRune b])).isSome = true
  special : ∀ token id, t.specialTokens.lookup token = some id →
    token ≠ [] ∧ (∀ b ∈ token, 0x20 ≤ b ∧ b ≤ 0x7E) ∧ t.vocab.Names id token
  sorted : ∀ token ∈ t.sortedSpecialTokens, token ∈ t.specialTokens.keys

section EncodeChunks

variable {newHeap : (Pair PairKey → Pair PairKey → Bool) → Heap (Pair PairKey)} {t : Tokenizer}

/-- The ids of nodes that are all in the vocabulary decode to what the nodes spell. -/
theorem decode_nodeIds (h : t.ByteLevel) {nodes : List (List Char)}
    (hin : ∀ piece ∈ nodes, piece ≠ [] →
      (t.vocab.reverse.lookup (encodeRunes piece)).isSome = true) :
    decode t (nodes.flatMap (nodeIds t)) = some (nodes.flatten.flatMap runeBytes) := by
  induction nodes with
  | nil => rfl
  | cons piece nodes ih =>
    have hrest := ih fun p hp => hin p (List.mem_cons_of_mem piece hp)
    rw [List.flatMap_cons, List.flatten_cons, List.flatMap_append]
    refine decode_append ?_ hrest
    by_cases hne : piece = []
    · subst hne
      rfl
    · obtain ⟨id, hid⟩ := Option.isSome_iff_exists.mp (hin piece List.mem_cons_self hne)
      have hdec := decode_singleton (h.reverse _ _ hid)
      rw [decodeToken_bpe h.typ, decodeRunes_encodeRunes] at hdec
      unfold nodeIds
      rw [if_neg hne, hid]
      exact hdec

variable (newHeap) in
/-- A chunk without the byte 0 gets ids that decode to it. -/
theorem encodeChunkInto_spec (h : t.ByteLevel) {s : GoString} (hnul : (0 : UInt8) ∉ s) :
    ∃ new, (∀ ids, encodeChunkInto newHeap t s ids = some (ids ++ new)) ∧
      decode t new = some s := by
  by_cases hs : s = []
  · subst hs
    refine ⟨[], fun ids => ?_, rfl⟩
    rw [List.append_nil]
    rfl
  · have hrunes : s.map byteToRune ≠ [] := fun hnil => hs (List.map_eq_nil_iff.mp hnil)
    have hencoded : encodedText t s = encodeRunes (s.map byteToRune) := by
      unfold encodedText
      rw [h.typ]
    cases hwhole : t.vocab.reverse.lookup (encodeRunes (s.map byteToRune)) with
    | some id =>
      refine ⟨[id], fun ids => ?_, ?_⟩
      · unfold encodeChunkInto
        rw [if_neg hs, hencoded, hwhole]
      · rw [decode_singleton (h.reverse _ _ hwhole), decodeToken_bpe h.typ,
          decodeRunes_encodeRunes, flatMap_byteToRune hnul]
    | none =>
      obtain ⟨nodes, hnodes, hspelled, hin⟩ := linkedMerges_spec
        (P := fun piece => (t.vocab.reverse.lookup (encodeRunes piece)).isSome = true)
        (Q := fun key => (t.vocab.reverse.lookup key.value).isSome = true)
        (R := rules t.vocab) (newHeap less) (s.map byteToRune)
        (fun l r key hkey => by
          unfold rules at hkey
          dsimp only at hkey
          split at hkey
          · cases hkey
          · split at hkey
            · cases hkey
            · split at hkey
              · rename_i hvalue
                cases hkey
                exact hvalue
              · cases hkey)
        (fun l r key hvalue hjoins => by
          rw [encodeRunes_append, beq_iff_eq.mp hjoins]
          exact hvalue)
        (fun c hc => by
          obtain ⟨b, -, rfl⟩ := List.mem_map.mp hc
          exact h.bytes b)
      refine ⟨nodes.flatMap fun node => nodeIds t node.runes, fun ids => ?_, ?_⟩
      · unfold encodeChunkInto
        rw [if_neg hs, hencoded, hwhole]
        unfold encodeBPEMerge
        dsimp only
        rw [decodeRunes_encodeRunes, if_neg hrunes, hnodes]
        rfl
      · have hdec := decode_nodeIds h hin
        rw [hspelled, flatMap_byteToRune hnul] at hdec
        rw [← hdec, pieces, List.flatMap_map]

variable (newHeap) in
theorem appendEncodedChunk_spec (h : t.ByteLevel) {c : EncodeChunk} (hok : c.Ok t)
    (hnul : (0 : UInt8) ∉ c.text) :
    ∃ new, (∀ ids, appendEncodedChunk newHeap t ids c = some (ids ++ new)) ∧
      decode t new = some c.text := by
  unfold appendEncodedChunk
  by_cases hspecial : c.isSpecial = true
  · obtain ⟨id, hid⟩ := Option.isSome_iff_exists.mp (hok hspecial)
    obtain ⟨-, hascii, hnames⟩ := h.special _ _ hid
    refine ⟨[id], fun ids => by rw [if_pos hspecial, hid], ?_⟩
    rw [decode_singleton hnames, decodeToken_bpe h.typ, flatMap_decodeRunes fun b hb => by
      have hle : b.toNat ≤ 0x7E := (hascii b hb).2
      omega]
  · obtain ⟨new, hnew, hdec⟩ := encodeChunkInto_spec newHeap h hnul
    exact ⟨new, fun ids => by rw [if_neg hspecial, hnew], hdec⟩

variable (newHeap) in
theorem foldlM_appendEncodedChunk (h : t.ByteLevel) {chunks : List EncodeChunk}
    (hok : ∀ c ∈ chunks, c.Ok t) (hnul : (0 : UInt8) ∉ (chunks.map EncodeChunk.text).flatten) :
    ∃ new, (∀ ids, chunks.foldlM (appendEncodedChunk newHeap t) ids = some (ids ++ new)) ∧
      decode t new = some (chunks.map EncodeChunk.text).flatten := by
  induction chunks with
  | nil => exact ⟨[], fun ids => by rw [List.append_nil]; rfl, rfl⟩
  | cons c chunks ih =>
    rw [List.map_cons, List.flatten_cons] at hnul ⊢
    obtain ⟨new, hnew, hdec⟩ := appendEncodedChunk_spec newHeap h (hok c List.mem_cons_self)
      fun hzero => hnul (List.mem_append_left _ hzero)
    obtain ⟨rest, hrest, hdecs⟩ := ih (fun d hd => hok d (List.mem_cons_of_mem c hd))
      fun hzero => hnul (List.mem_append_right _ hzero)
    refine ⟨new ++ rest, fun ids => ?_, decode_append hdec hdecs⟩
    rw [List.foldlM_cons, hnew]
    show chunks.foldlM (appendEncodedChunk newHeap t) (ids ++ new) = _
    rw [hrest, List.append_assoc]

end EncodeChunks

/-! ## Workers -/

section Workers

variable {newHeap : (Pair PairKey → Pair PairKey → Bool) → Heap (Pair PairKey)} {t : Tokenizer}

theorem encodeBPEMerge_append (ids ids' : List Int) (encoded : GoString) :
    encodeBPEMerge newHeap t encoded (ids ++ ids') =
      (encodeBPEMerge newHeap t encoded ids').map (ids ++ ·) := by
  unfold encodeBPEMerge
  dsimp only
  split
  · rfl
  · rw [Option.map_map]
    refine congrArg (fun f => Option.map f _) (funext fun nodes => ?_)
    rw [Function.comp_apply, List.append_assoc]

theorem encodeChunkInto_append (ids ids' : List Int) (s : GoString) :
    encodeChunkInto newHeap t s (ids ++ ids') =
      (encodeChunkInto newHeap t s ids').map (ids ++ ·) := by
  unfold encodeChunkInto
  split
  · rfl
  · cases t.vocab.reverse.lookup (encodedText t s) with
    | some id => exact congrArg some (List.append_assoc ids ids' [id])
    | none => exact encodeBPEMerge_append ids ids' (encodedText t s)

/-- Encoding a chunk does not look at the ids before it. -/
theorem appendEncodedChunk_append (ids ids' : List Int) (c : EncodeChunk) :
    appendEncodedChunk newHeap t (ids ++ ids') c =
      (appendEncodedChunk newHeap t ids' c).map (ids ++ ·) := by
  unfold appendEncodedChunk
  split
  · split
    · rw [Option.map_some, List.append_assoc]
    · rfl
  · exact encodeChunkInto_append ids ids' c.text

theorem foldlM_appendEncodedChunk_append (chunks : List EncodeChunk) (ids ids' : List Int) :
    chunks.foldlM (appendEncodedChunk newHeap t) (ids ++ ids') =
      (chunks.foldlM (appendEncodedChunk newHeap t) ids').map (ids ++ ·) := by
  induction chunks generalizing ids' with
  | nil => rfl
  | cons c chunks ih =>
    rw [List.foldlM_cons, List.foldlM_cons, appendEncodedChunk_append]
    cases appendEncodedChunk newHeap t ids' c with
    | none => rfl
    | some ids'' => exact ih ids''

theorem encodeSequential_append (chunks chunks' : List EncodeChunk) :
    encodeSequential newHeap t (chunks ++ chunks') =
      (encodeSequential newHeap t chunks).bind fun ids =>
        (encodeSequential newHeap t chunks').map (ids ++ ·) := by
  unfold encodeSequential
  rw [List.foldlM_append]
  cases chunks.foldlM (appendEncodedChunk newHeap t) [] with
  | none => rfl
  | some ids =>
    have hrest := @foldlM_appendEncodedChunk_append newHeap t chunks' ids []
    rw [List.append_nil] at hrest
    exact hrest

/-- The chunks of the first workers, one after the other. -/
theorem mapM_workerIds (chunksPer : Nat) (chunks : List EncodeChunk) (n : Nat) :
    ((List.range n).mapM (workerIds newHeap t chunksPer chunks)).map List.flatten =
      encodeSequential newHeap t (chunks.take (n * chunksPer)) := by
  induction n with
  | zero =>
    rw [Nat.zero_mul, List.take_zero]
    rfl
  | succ n ih =>
    have hworker : workerIds newHeap t chunksPer chunks n =
        encodeSequential newHeap t ((chunks.drop (n * chunksPer)).take chunksPer) := by
      unfold workerIds
      dsimp only
      rcases Nat.lt_or_ge chunks.length (n * chunksPer + chunksPer) with hcut | hcut
      · have hrest : (chunks.drop (n * chunksPer)).take chunksPer = chunks.drop (n * chunksPer) :=
          List.take_of_length_le (by rw [List.length_drop]; omega)
        rw [if_pos hcut, hrest]
        split
        · rename_i hstop
          rw [List.drop_eq_nil_of_le hstop]
          rfl
        · rw [slice, List.take_of_length_le (by rw [List.length_drop])]
      · rw [if_neg (not_lt.mpr hcut)]
        split
        · rename_i hstop
          have hzero : chunksPer = 0 := by omega
          rw [hzero, List.take_zero]
          rfl
        · rw [slice, Nat.add_sub_cancel_left]
    rw [Nat.succ_mul, List.take_add, encodeSequential_append, ← ih, ← hworker, List.range_succ,
      List.mapM_append]
    cases (List.range n).mapM (workerIds newHeap t chunksPer chunks) with
    | none => rfl
    | some idss =>
      rw [List.mapM_cons]
      cases workerIds newHeap t chunksPer chunks n with
      | none => rfl
      | some ids => simp

/-- The workers together leave what one loop over all chunks leaves. -/
theorem encodeParallel_eq {numWorkers : Nat} (hpos : 0 < numWorkers) (chunks : List EncodeChunk) :
    encodeParallel newHeap t numWorkers chunks = encodeSequential newHeap t chunks := by
  unfold encodeParallel
  rw [mapM_workerIds]
  refine congrArg (encodeSequential newHeap t) (List.take_of_length_le ?_)
  have hmod := Nat.div_add_mod (chunks.length + numWorkers - 1) numWorkers
  have hlt := Nat.mod_lt (chunks.length + numWorkers - 1) hpos
  omega

theorem encodeChunks_eq (procs : Nat) (chunks : List EncodeChunk) :
    encodeChunks newHeap t procs chunks = encodeSequential newHeap t chunks := by
  unfold encodeChunks
  dsimp only
  generalize (if chunks.length < procs then chunks.length else procs) = numWorkers
  split
  · rfl
  · exact encodeParallel_eq (by omega) chunks

end Workers

/-! ## The whole text -/

section Encode

variable {newHeap : (Pair PairKey → Pair PairKey → Bool) → Heap (Pair PairKey)}
  {isLetter : Char → Bool} {t : Tokenizer}

theorem splitBySpecialTokens_spec (h : t.ByteLevel) (s : GoString) :
    ∃ parts, splitBySpecialTokens t s = some parts ∧ parts.flatten = s := by
  have hne : ∀ token ∈ t.specialTokens.keys, token ≠ [] := by
    intro token htoken
    obtain ⟨id, hid⟩ := (GoMap.mem_keys_iff t.specialTokens token).mp htoken
    exact (h.special token id hid).1
  unfold splitBySpecialTokens
  split
  · exact ⟨[s], rfl, by simp⟩
  · refine splitLoop_spec (fun token htoken => hne token ?_) s.length s (le_refl _)
    split at htoken
    · exact List.mem_mergeSort.mp htoken
    · exact h.sorted token htoken

variable (newHeap isLetter) in
/-- The chunks of the parts, which are encoded to ids that decode to the parts; encoding the
parts one after the other encodes these chunks. -/
theorem encodeParts_spec (h : t.ByteLevel) {parts : List GoString}
    (hcover : ∀ find, t.pretokenizer = some find → ∀ part ∈ parts,
      t.specialTokens.lookup part = none → Covers find part)
    (hnul : (0 : UInt8) ∉ parts.flatten) :
    ∃ chunks ids, parts.mapM (forEachPartChunk isLetter t) = some chunks ∧
      encodeSequential newHeap t chunks.flatten = some ids ∧
      encodeParts newHeap isLetter t parts = some ids ∧ decode t ids = some parts.flatten := by
  suffices hloop : ∃ chunks new, parts.mapM (forEachPartChunk isLetter t) = some chunks ∧
      (∀ ids, chunks.flatten.foldlM (appendEncodedChunk newHeap t) ids = some (ids ++ new)) ∧
      (∀ ids, parts.foldlM (fun ids part => (forEachPartChunk isLetter t part).bind fun chunks =>
        chunks.foldlM (appendEncodedChunk newHeap t) ids) ids = some (ids ++ new)) ∧
      decode t new = some parts.flatten by
    obtain ⟨chunks, new, hchunks, hseq, hparts, hdec⟩ := hloop
    exact ⟨chunks, new, hchunks, hseq [], hparts [], hdec⟩
  induction parts with
  | nil => exact ⟨[], [], rfl, fun ids => by simp, fun ids => by simp, rfl⟩
  | cons part parts ih =>
    rw [List.flatten_cons] at hnul ⊢
    obtain ⟨chunks, hchunks, hspelled, hok⟩ := forEachPartChunk_spec isLetter fun find hfind =>
      hcover find hfind part List.mem_cons_self
    obtain ⟨new, hnew, hdec⟩ := foldlM_appendEncodedChunk newHeap h hok fun hzero =>
      hnul (List.mem_append_left _ (hspelled ▸ hzero))
    obtain ⟨rest, newRest, hrest, hseq, hparts, hdecs⟩ := ih
      (fun find hfind p hp => hcover find hfind p (List.mem_cons_of_mem part hp))
      fun hzero => hnul (List.mem_append_right _ hzero)
    rw [hspelled] at hdec
    refine ⟨chunks :: rest, new ++ newRest, ?_, fun ids => ?_, fun ids => ?_,
      decode_append hdec hdecs⟩
    · rw [List.mapM_cons, hchunks, hrest]
      rfl
    · rw [List.flatten_cons, List.foldlM_append, hnew]
      show rest.flatten.foldlM (appendEncodedChunk newHeap t) (ids ++ new) = _
      rw [hseq, List.append_assoc]
    · rw [List.foldlM_cons, hchunks, Option.bind_some, hnew]
      show parts.foldlM _ (ids ++ new) = _
      rw [hparts, List.append_assoc]

end Encode

/-- `Decode(Encode(s, false)) = s` for a text without the byte 0, with the same ids for every
number of workers. -/
theorem Encode_round_trip {t : Tokenizer} (h : t.ByteLevel)
    (newHeap : (Pair PairKey → Pair PairKey → Bool) → Heap (Pair PairKey))
    (isLetter : Char → Bool) {s : GoString} (hnul : (0 : UInt8) ∉ s)
    (hcover : ∀ find, t.pretokenizer = some find → ∀ parts, splitBySpecialTokens t s = some parts →
      ∀ part ∈ parts, t.specialTokens.lookup part = none → Covers find part) :
    (∃ ids, (∀ procs, encode newHeap isLetter t procs s false = some ids) ∧
      decode t ids = some s) ∧
    ∀ numWorkers > 0, ∀ chunks, encodeParallel newHeap t numWorkers chunks =
      encodeSequential newHeap t chunks := by
  refine ⟨?_, fun numWorkers hpos chunks => encodeParallel_eq hpos chunks⟩
  obtain ⟨parts, hparts, hspelled⟩ := splitBySpecialTokens_spec h s
  obtain ⟨chunks, ids, hchunks, hseq, hencode, hdec⟩ := encodeParts_spec newHeap isLetter h
    (fun find hfind => hcover find hfind parts hparts) (hspelled.symm ▸ hnul)
  refine ⟨ids, fun procs => ?_, hspelled ▸ hdec⟩
  unfold encode
  rw [hparts, Option.bind_some]
  split
  · rw [hencode]
    rfl
  · rw [hchunks, Option.bind_some, encodeChunks_eq, hseq]
    rfl
/-- A pretokenizer that matches runs of blanks and runs of anything else. -/
def blankRuns : GoString → Option (Nat × Nat)
  | [] => none
  | b :: rest => some (0, (rest.takeWhile fun c => (c == 0x20) == (b == 0x20)).length + 1)

theorem covers_blankRuns : ∀ rest : GoString, Covers blankRuns rest
  | [] => .nil rfl
  | b :: rest => by
    have hlen : (rest.takeWhile fun c => (c == 0x20) == (b == 0x20)).length ≤ rest.length :=
      (List.takeWhile_prefix _).length_le
    refine .cons rfl (Nat.succ_pos _) (Nat.succ_le_succ hlen) ?_
    rw [List.drop_succ_cons]
    exact covers_blankRuns _
termination_by rest => rest.length
decreasing_by
  rw [List.length_drop, List.length_cons]
  omega

/-- The map from the values to their places. -/
def valueIds (values : List GoString) : GoMap GoString Int :=
  (values.zipIdx.map fun v => (⟨v.1, (v.2 : Int)⟩ : Sigma fun _ : GoString => Int)).toAList

theorem lookup_valueIds {values : List GoString} {token : GoString} {id : Int}
    (h : (valueIds values).lookup token = some id) :
    0 ≤ id ∧ values[id.toNat]? = some token := by
  rw [valueIds, AList.lookup_to_alist] at h
  obtain ⟨v, hv, heq⟩ := List.mem_map.mp (List.of_mem_dlookup h)
  cases heq
  exact ⟨Int.natCast_nonneg v.2, by
    rw [Int.toNat_natCast]
    exact List.mem_zipIdx_iff_getElem?.mp hv⟩

theorem isSome_lookup_valueIds {values : List GoString} {token : GoString} (h : token ∈ values) :
    ((valueIds values).lookup token).isSome = true := by
  obtain ⟨i, hi⟩ := List.mem_iff_getElem?.mp h
  rw [valueIds, AList.lookup_to_alist, List.dlookup_isSome]
  refine List.mem_map.mpr ⟨⟨token, (i : Int)⟩, ?_, rfl⟩
  exact List.mem_map.mpr ⟨(token, i), List.mem_zipIdx_iff_getElem?.mpr hi, rfl⟩

def byteValues : List GoString :=
  (List.range 256).map (fun n => encodeRunes [byteToRune (UInt8.ofNat n)]) ++
    [encodeRunes ['h', 'i'], encodeRunes ['<', '/', 's', '>']]

/-- The runes of all bytes, the token `hi` and the special token `</s>`. -/
def byteTokenizer : Tokenizer where
  vocab :=
    { values := byteValues
      reverse := valueIds byteValues
      merges := AList.insert (encodeRunes ['h', ' ', 'i']) 0 ∅
      bos := -1
      byteTokens := fun _ => -1 }
  pretokenizer := some blankRuns
  specialTokens := AList.insert (encodeRunes ['<', '/', 's', '>']) 257 ∅
  sortedSpecialTokens := [encodeRunes ['<', '/', 's', '>']]
  typ := .bpe

theorem byteLevel_byteTokenizer : byteTokenizer.ByteLevel where
  typ := rfl
  reverse := fun _ _ h => lookup_valueIds h
  bytes := fun b => by
    refine isSome_lookup_valueIds (List.mem_append_left _ ?_)
    refine List.mem_map.mpr ⟨b.toNat, List.mem_range.mpr b.toNat_lt, ?_⟩
    rw [UInt8.ofNat_toNat]
  special := fun token id h => by
    rw [byteTokenizer, GoMap.lookup_insert_ite] at h
    split at h
    · rename_i htoken
      cases h
      subst htoken
      exact ⟨by decide, by decide +kernel, by decide, by decide +kernel⟩
    · cases h
  sorted := fun token h => by
    rw [List.mem_singleton.mp h]
    exact AList.mem_insert _ |>.mpr (.inl rfl)

/-- `hi  you</s>` and a byte that is no rune, and back. -/
theorem Encode_round_trip_hi :
    (∃ ids, (∀ procs, encode Heap.ofLess Char.isAlpha byteTokenizer procs
        (encodeRunes ['h', 'i', ' ', ' ', 'y', 'o', 'u', '<', '/', 's', '>'] ++ [0xFF]) false =
          some ids) ∧
      decode byteTokenizer ids =
        some (encodeRunes ['h', 'i', ' ', ' ', 'y', 'o', 'u', '<', '/', 's', '>'] ++ [0xFF])) ∧
    ∀ numWorkers > 0, ∀ chunks, encodeParallel Heap.ofLess byteTokenizer numWorkers chunks =
      encodeSequential Heap.ofLess byteTokenizer chunks :=
  Encode_round_trip byteLevel_byteTokenizer Heap.ofLess Char.isAlpha (by decide)
    fun find hfind _ _ part _ _ => by
      cases hfind
      exact covers_blankRuns part

end Prismalama.XTokenizer
