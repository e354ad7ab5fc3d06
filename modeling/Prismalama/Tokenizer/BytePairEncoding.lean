import Prismalama.Lib.Slice
import Prismalama.Tokenizer.Merges
import Prismalama.Tokenizer.Vocabulary

/-!
# Byte pair encoding (`tokenizer/bytepairencoding.go`)

The text between the special tokens is split by regular expressions and each
part encoded on its own. In the GPT-2 mode every byte becomes a rune of its own,
so that the vocabulary can name any bytes; decoding maps the runes back.

The regular expressions are only known by their matches, and the heap only as a
heap: nothing here depends on which parts and which merges they choose.
-/

namespace Prismalama.Tokenizer

open Prismalama.Lib

/-- `spmWhitespaceSep` -/
def spmWhitespaceSep : GoString := encodeRunes ['\u2581']

/-! ## Pretokenizer -/

structure Match where
  index : Nat
  length : Nat

/-- Matches in a text of `n` runes: in order, apart from each other, not empty. -/
def MatchesFrom (n : Nat) : Nat → List Match → Prop
  | _, [] => True
  | offset, m :: ms =>
    offset ≤ m.index ∧ 0 < m.length ∧ m.index + m.length ≤ n ∧
      MatchesFrom n (m.index + m.length) ms

/-- A regular expression: its successive matches in a text. -/
structure Regexp where
  find : List Char → List Match
  ordered : ∀ r, MatchesFrom r.length 0 (find r)

/-- The matches and what is between them, from `offset` on. -/
def splitMatches (r : List Char) : Nat → List Match → List (List Char)
  | offset, [] => if offset < r.length then [r.drop offset] else []
  | offset, m :: ms =>
    (if m.index ≠ offset then [slice r offset m.index] else []) ++
      slice r m.index (m.index + m.length) :: splitMatches r (m.index + m.length) ms

/-- `split` -/
def split (regexps : List Regexp) (s : GoString) : List GoString :=
  regexps.foldl
    (fun parts re => parts.flatMap fun part =>
      let r := decodeRunes part
      (splitMatches r 0 (re.find r)).map encodeRunes) [s]

/-! ## Encoding -/

structure PairKey where
  rank : Int
  value : GoString

structure BytePairEncoding (σ : Type*) where
  vocab : Vocabulary σ
  regexps : List Regexp
  spaceToSpmSep : Bool

/-- The rune that stands for a byte. -/
def byteRune (b : UInt8) : Char :=
  if b = 0xAD then Char.ofNat 0x143
  else if b ≤ 0x20 then Char.ofNat (b.toNat + 0x100)
  else if 0x7F ≤ b ∧ b ≤ 0xA0 then Char.ofNat (b.toNat + 0xA2)
  else Char.ofNat b.toNat

/-- The bytes that a rune stands for; none for the rune of the byte 0. -/
def runeBytes (r : Char) : GoString :=
  let n := r.toNat
  if n = 0x100 then []
  else if n = 0x143 then [0xAD]
  else if 0x100 < n ∧ n ≤ 0x120 then [UInt8.ofNat (n - 0x100)]
  else if 0x120 < n ∧ n ≤ 0x142 then [UInt8.ofNat (n - 0xA2)]
  else if 0x143 < n then if n = 0x2581 then [0x20] else String.utf8EncodeChar r
  else [UInt8.ofNat n]

/-- The byte tokens of a token that is not in the vocabulary. -/
def Vocabulary.byteIds {σ : Type*} (v : Vocabulary σ) (token : GoString) : List Int :=
  (token.map fun b => v.encode (byteToken b)).filter fun id => decide (0 ≤ id)

/-- `"<0x"`, two bytes, `">"` -/
def readsAsByte (data : GoString) : Bool :=
  data.length == 6 && (encodeRunes ['<', '0', 'x']).isPrefixOf data &&
    (encodeRunes ['>']).isSuffixOf data

namespace BytePairEncoding

variable {σ : Type*}

def rules (bpe : BytePairEncoding σ) : MergeRules PairKey where
  key left right :=
    let rank := bpe.vocab.merge (encodeRunes left) (encodeRunes right)
    if rank < 0 then none else some ⟨rank, encodeRunes left ++ encodeRunes right⟩
  joins key left right :=
    encodeRunes left ++ encodeRunes right == key.value && decide (0 ≤ bpe.vocab.encode key.value)

def normalize (bpe : BytePairEncoding σ) (part : GoString) : GoString :=
  if bpe.spaceToSpmSep then replaceAll part (encodeRunes [' ']) spmWhitespaceSep
  else encodeRunes (part.map byteRune)

/-- The ids of a piece that the merge loop leaves. -/
def pieceIds (bpe : BytePairEncoding σ) (runes : List Char) : List Int :=
  let id := bpe.vocab.encode (encodeRunes runes)
  if 0 ≤ id then [id]
  else if bpe.spaceToSpmSep then bpe.vocab.byteIds (encodeRunes runes)
  else []

/-- The ids of one part of the text. `newWith` is the constructor of the heap. -/
def encodePart (bpe : BytePairEncoding σ)
    (newWith : (Pair PairKey → Pair PairKey → Ordering) → Heap (Pair PairKey)) (part : GoString) :
    Option (List Int) :=
  let normalized := bpe.normalize part
  let id := bpe.vocab.encode normalized
  if 0 ≤ id then some [id]
  else
    (mergeRunes bpe.rules (newWith fun i j => compare i.key.rank j.key.rank)
      (decodeRunes normalized)).map fun pieces => pieces.flatMap bpe.pieceIds

def encodeFragment (bpe : BytePairEncoding σ)
    (newWith : (Pair PairKey → Pair PairKey → Ordering) → Heap (Pair PairKey)) (frag : Fragment) :
    Option (List Int) :=
  if frag.ids ≠ [] then some frag.ids
  else ((split bpe.regexps frag.value).mapM (bpe.encodePart newWith)).map List.flatten

/-- `Encode`; `none` when a loop does not end. -/
def encode (bpe : BytePairEncoding σ)
    (newWith : (Pair PairKey → Pair PairKey → Ordering) → Heap (Pair PairKey)) (s : GoString)
    (addSpecial : Bool) : Option (List Int) :=
  (fragments bpe.vocab s).bind fun frags =>
    (frags.mapM (bpe.encodeFragment newWith)).map fun ids =>
      if addSpecial then bpe.vocab.addSpecials ids.flatten else ids.flatten

/-! ## Decoding -/

/-- What `Decode` writes for one token. -/
def decodeToken (bpe : BytePairEncoding σ) (data : GoString) : GoString :=
  let runes := decodeRunes data
  if bpe.spaceToSpmSep then
    let text := runes.flatMap fun r => if r = '\u2581' then [0x20] else String.utf8EncodeChar r
    if readsAsByte data then
      match parseUint (slice data 3 5) 16 8 with
      | .ok b => [UInt8.ofNat b]
      | .error _ => text
    else text
  else runes.flatMap runeBytes

/-- `Decode`; `none` when an id is not in the vocabulary. -/
def decode (bpe : BytePairEncoding σ) (ids : List Int) : Option GoString :=
  (ids.mapM fun id => (bpe.vocab.decode id).map bpe.decodeToken).map List.flatten

end BytePairEncoding

/-! ## Parts spell the text -/

theorem flatten_splitMatches (r : List Char) :
    ∀ (offset : Nat) (ms : List Match), MatchesFrom r.length offset ms →
      (splitMatches r offset ms).flatten = r.drop offset := by
  intro offset ms
  induction ms generalizing offset with
  | nil =>
    intro _
    unfold splitMatches
    split
    · simp
    · rw [List.drop_eq_nil_of_le (by omega)]
      rfl
  | cons m ms ih =>
    rintro ⟨hlo, -, -, hms⟩
    unfold splitMatches
    rw [List.flatten_append, List.flatten_cons, ih _ hms]
    have hbefore : (if m.index ≠ offset then [slice r offset m.index] else []).flatten =
        slice r offset m.index := by
      split
      · simp
      · rename_i heq
        simp [slice, not_not.mp heq]
    rw [hbefore]
    unfold slice
    rw [Nat.add_sub_cancel_left, ← List.drop_drop, List.take_append_drop]
    have hdrop : r.drop m.index = (r.drop offset).drop (m.index - offset) := by
      rw [List.drop_drop, Nat.add_sub_cancel' hlo]
    rw [hdrop, List.take_append_drop]

theorem split_spec (regexps : List Regexp) {s : GoString} (hs : ValidUtf8 s) :
    (split regexps s).flatten = s := by
  have hloop : ∀ parts : List GoString, (∀ part ∈ parts, ValidUtf8 part) →
      (regexps.foldl (fun parts re => parts.flatMap fun part =>
        (splitMatches (decodeRunes part) 0 (re.find (decodeRunes part))).map encodeRunes)
        parts).flatten = parts.flatten := by
    induction regexps with
    | nil => exact fun parts _ => rfl
    | cons re regexps ih =>
      intro parts hparts
      rw [List.foldl_cons, ih]
      · rw [List.flatMap_def, List.flatten_flatten, List.map_map]
        refine congrArg List.flatten ((List.map_congr_left fun part hpart => ?_).trans
          (List.map_id parts))
        have hmatches := flatten_splitMatches _ 0 _ (re.ordered (decodeRunes part))
        rw [Function.comp_apply, ← encodeRunes_flatten, hmatches, List.drop_zero, id]
        exact (hparts part hpart).encode_decode
      · intro part hpart
        obtain ⟨old, -, hpart⟩ := List.mem_flatMap.mp hpart
        obtain ⟨rs, -, rfl⟩ := List.mem_map.mp hpart
        exact validUtf8_encodeRunes rs
  have hparts := hloop [s] fun part hpart => by
    cases List.mem_singleton.mp hpart
    exact hs
  exact hparts.trans (List.append_nil s)

/-! ## Decoding piece by piece -/

section Decode

variable {σ : Type*} {bpe : BytePairEncoding σ}

namespace BytePairEncoding

theorem decode_append {ids ids' : List Int} {s t : GoString} (hs : bpe.decode ids = some s)
    (ht : bpe.decode ids' = some t) : bpe.decode (ids ++ ids') = some (s ++ t) := by
  unfold decode at *
  obtain ⟨ss, hss, rfl⟩ := Option.map_eq_some_iff.mp hs
  obtain ⟨ts, hts, rfl⟩ := Option.map_eq_some_iff.mp ht
  rw [List.mapM_append, hss, hts]
  simp

variable (bpe) in
theorem decode_encoded {token : GoString} (h : token ∈ bpe.vocab.values) :
    bpe.decode [bpe.vocab.encode token] = some (bpe.decodeToken token) := by
  unfold decode
  rw [List.mapM_cons, Vocabulary.decode_encode h]
  simp

variable (bpe) in
/-- Parts that decode to what they stand for decode to all of it. -/
theorem decode_mapM {β : Type*} {f : β → Option (List Int)} (g : β → GoString) (xs : List β)
    (h : ∀ x ∈ xs, ∃ ids, f x = some ids ∧ bpe.decode ids = some (g x)) :
    ∃ idss, xs.mapM f = some idss ∧ bpe.decode idss.flatten = some (xs.map g).flatten := by
  induction xs with
  | nil => exact ⟨[], rfl, rfl⟩
  | cons x xs ih =>
    obtain ⟨ids, hids, hdec⟩ := h x List.mem_cons_self
    obtain ⟨idss, hidss, hdecs⟩ := ih fun y hy => h y (List.mem_cons_of_mem x hy)
    refine ⟨ids :: idss, ?_, ?_⟩
    · rw [List.mapM_cons, hids, hidss]
      rfl
    · rw [List.flatten_cons, List.map_cons, List.flatten_cons]
      exact decode_append hdec hdecs

end BytePairEncoding

end Decode

/-! ## The GPT-2 mode -/

theorem runeBytes_byteRune {b : UInt8} (hb : b ≠ 0) : runeBytes (byteRune b) = [b] := by
  have hall : ∀ n < 256, n ≠ 0 → runeBytes (byteRune (UInt8.ofNat n)) = [UInt8.ofNat n] := by
    decide +kernel
  have hbyte := hall b.toNat b.toNat_lt fun hz => hb (UInt8.toNat_inj.mp hz)
  rwa [UInt8.ofNat_toNat] at hbyte

theorem runeBytes_asciiRune {b : UInt8} (hb : b.toNat < 128) : runeBytes (asciiRune b) = [b] := by
  have hall : ∀ n < 128, runeBytes (Char.ofNat n) = [UInt8.ofNat n] := by decide
  rw [asciiRune, hall b.toNat hb, UInt8.ofNat_toNat]

/-- The runes of the bytes of a text stand for the text. -/
theorem flatMap_runeBytes {s : GoString} (h : (0 : UInt8) ∉ s) :
    (s.map byteRune).flatMap runeBytes = s :=
  flatMap_map_of_eq_singleton fun _ hb => runeBytes_byteRune fun hz => h (hz ▸ hb)

section Gpt2

variable {σ : Type*} {v : Vocabulary σ} {regexps : List Regexp}
  {newWith : (Pair PairKey → Pair PairKey → Ordering) → Heap (Pair PairKey)}

namespace BytePairEncoding

theorem decodeToken_gpt2 (rs : List Char) :
    (⟨v, regexps, false⟩ : BytePairEncoding σ).decodeToken (encodeRunes rs) =
      rs.flatMap runeBytes := by
  simp only [decodeToken, decodeRunes_encodeRunes, Bool.false_eq_true, if_false]

/-- The pieces of a part decode to the bytes they stand for. -/
theorem decode_pieces {pieces : List (List Char)}
    (h : ∀ piece ∈ pieces, encodeRunes piece ∈ v.values) :
    (⟨v, regexps, false⟩ : BytePairEncoding σ).decode
        (pieces.flatMap (⟨v, regexps, false⟩ : BytePairEncoding σ).pieceIds) =
      some (pieces.flatten.flatMap runeBytes) := by
  induction pieces with
  | nil => rfl
  | cons piece pieces ih =>
    have hpiece := h piece List.mem_cons_self
    have hids : (⟨v, regexps, false⟩ : BytePairEncoding σ).pieceIds piece =
        [v.encode (encodeRunes piece)] := if_pos (Vocabulary.encode_nonneg.mpr hpiece)
    have hdec := decode_encoded ⟨v, regexps, false⟩ hpiece
    rw [decodeToken_gpt2] at hdec
    rw [List.flatMap_cons, List.flatten_cons, List.flatMap_append, hids]
    exact decode_append hdec (ih fun p hp => h p (List.mem_cons_of_mem piece hp))

variable (newWith) in
theorem encodePart_spec (hbytes : ∀ b, encodeRunes [byteRune b] ∈ v.values) (part : GoString)
    (hpart : (0 : UInt8) ∉ part) :
    ∃ ids, (⟨v, regexps, false⟩ : BytePairEncoding σ).encodePart newWith part = some ids ∧
      (⟨v, regexps, false⟩ : BytePairEncoding σ).decode ids = some part := by
  have hnorm : (⟨v, regexps, false⟩ : BytePairEncoding σ).normalize part =
      encodeRunes (part.map byteRune) := rfl
  by_cases hshort : encodeRunes (part.map byteRune) ∈ v.values
  · refine ⟨[v.encode (encodeRunes (part.map byteRune))], ?_, ?_⟩
    · simp only [encodePart, hnorm, if_pos (Vocabulary.encode_nonneg.mpr hshort)]
    · have hdec := decode_encoded ⟨v, regexps, false⟩ hshort
      rw [decodeToken_gpt2, flatMap_runeBytes hpart] at hdec
      exact hdec
  · obtain ⟨pieces, hpieces, hspelled, hgood⟩ := mergeRunes_spec
      (P := fun piece => encodeRunes piece ∈ v.values) (part.map byteRune)
      (⟨v, regexps, false⟩ : BytePairEncoding σ).rules
      (newWith fun i j => compare i.key.rank j.key.rank)
      (fun c hc => by
        obtain ⟨b, -, rfl⟩ := List.mem_map.mp hc
        exact hbytes b)
      (fun l r key _ _ hjoins => by
        obtain ⟨hvalue, hid⟩ := Bool.and_eq_true_iff.mp hjoins
        rw [encodeRunes_append, beq_iff_eq.mp hvalue]
        exact Vocabulary.encode_nonneg.mp (of_decide_eq_true hid))
    refine ⟨pieces.flatMap (⟨v, regexps, false⟩ : BytePairEncoding σ).pieceIds, ?_, ?_⟩
    · have hneg : ¬0 ≤ v.encode (encodeRunes (part.map byteRune)) := fun h =>
        hshort (Vocabulary.encode_nonneg.mp h)
      simp only [encodePart, hnorm, if_neg hneg, decodeRunes_encodeRunes, hpieces, Option.map_some]
    · rw [decode_pieces hgood, hspelled, flatMap_runeBytes hpart]

variable (newWith) in
/-- Every fragment decodes to its value. -/
theorem encodeFragment_spec (hbytes : ∀ b, encodeRunes [byteRune b] ∈ v.values)
    (hascii : ∀ special ∈ v.specialVocabulary, ∀ b ∈ special, b.toNat < 128) {frag : Fragment}
    (hok : frag.Ok v) (hnul : (0 : UInt8) ∉ frag.value) :
    ∃ ids, (⟨v, regexps, false⟩ : BytePairEncoding σ).encodeFragment newWith frag = some ids ∧
      (⟨v, regexps, false⟩ : BytePairEncoding σ).decode ids = some frag.value := by
  unfold encodeFragment
  rcases hok with ⟨hids, hvalid⟩ | ⟨hspecial, hids⟩
  · rw [if_neg (not_not.mpr hids)]
    have hsplit := split_spec regexps hvalid
    obtain ⟨idss, hidss, hdec⟩ := decode_mapM ⟨v, regexps, false⟩ id
      (split regexps frag.value) fun part hpart =>
        encodePart_spec newWith hbytes part fun hzero => hnul (by
          rw [← hsplit]
          exact List.mem_flatten_of_mem hpart hzero)
    refine ⟨idss.flatten, by rw [hidss]; rfl, ?_⟩
    rw [hdec, List.map_id, hsplit]
  · have hne : frag.ids ≠ [] := by
      rw [hids]
      exact List.cons_ne_nil _ _
    rw [if_pos hne]
    refine ⟨frag.ids, rfl, ?_⟩
    rw [hids, decode_encoded _ (Vocabulary.mem_values_of_special hspecial)]
    have hrunes := encodeRunes_asciiRune (hascii _ hspecial)
    rw [← hrunes, decodeToken_gpt2, hrunes]
    refine congrArg some (flatMap_map_of_eq_singleton fun b hb => ?_)
    exact runeBytes_asciiRune (hascii _ hspecial b hb)

end BytePairEncoding

end Gpt2

/-- GPT-2 byte-level encoding and decoding is the identity on valid text. -/
theorem gpt2_round_trip {σ : Type*} (v : Vocabulary σ) (regexps : List Regexp)
    (newWith : (Pair PairKey → Pair PairKey → Ordering) → Heap (Pair PairKey))
    (hbytes : ∀ b, encodeRunes [byteRune b] ∈ v.values)
    (hspecial : ∀ special ∈ v.specialVocabulary,
      special ≠ [] ∧ ∀ b ∈ special, 0x20 ≤ b ∧ b ≤ 0x7E)
    {s : GoString} (hvalid : ValidUtf8 s) (hnul : (0 : UInt8) ∉ s) :
    ∃ ids, (⟨v, regexps, false⟩ : BytePairEncoding σ).encode newWith s false = some ids ∧
      (⟨v, regexps, false⟩ : BytePairEncoding σ).decode ids = some s := by
  have hascii : ∀ special ∈ v.specialVocabulary, ∀ b ∈ special, b.toNat < 128 := by
    intro special hmem b hb
    have hle : b.toNat ≤ 0x7E := ((hspecial special hmem).2 b hb).2
    omega
  obtain ⟨frags, hfrags, hspelled, hok⟩ := fragments_spec (v := v) hvalid fun special hmem =>
    ⟨(hspecial special hmem).1, ⟨_, (encodeRunes_asciiRune (hascii special hmem)).symm⟩⟩
  obtain ⟨idss, hidss, hdec⟩ := BytePairEncoding.decode_mapM ⟨v, regexps, false⟩
    Fragment.value frags fun frag hfrag =>
      BytePairEncoding.encodeFragment_spec newWith hbytes hascii (hok frag hfrag)
        fun hzero => hnul (by
          rw [← hspelled]
          exact List.mem_flatten_of_mem (List.mem_map_of_mem hfrag) hzero)
  refine ⟨idss.flatten, ?_, hdec.trans (congrArg some hspelled)⟩
  unfold BytePairEncoding.encode
  simp only [hfrags, Option.bind_some, hidss, Option.map_some, Bool.false_eq_true, if_false]

/-- The runes of all bytes, the token `hi` and a control token `</s>`. -/
def byteVocabulary : Vocabulary Nat where
  tokens := (List.range 256).map (fun n => ⟨encodeRunes [byteRune (UInt8.ofNat n)], 1, 0⟩) ++
    [⟨encodeRunes ['h', 'i'], 1, 0⟩, ⟨encodeRunes ['<', '/', 's', '>'], tokenTypeControl, 0⟩]
  merges := [encodeRunes ['h', ' ', 'i']]
  bos := []
  eos := []
  addBOS := false
  addEOS := false
  length_le := by simp

/-- A pretokenizer that matches the whole of a text. -/
def anything : Regexp where
  find r := if r.length = 0 then [] else [⟨0, r.length⟩]
  ordered r := by
    split
    · trivial
    · rename_i hne
      exact ⟨le_refl 0, Nat.pos_of_ne_zero hne, le_of_eq (Nat.zero_add _), trivial⟩

/-- `hi é</s>hi` and back. -/
theorem gpt2_round_trip_hi :
    ∃ ids, (⟨byteVocabulary, [anything], false⟩ : BytePairEncoding Nat).encode
        (fun cmp => Heap.ofLess fun i j => cmp i j == .lt)
        (encodeRunes ['h', 'i', ' ', 'é', '<', '/', 's', '>', 'h', 'i']) false = some ids ∧
      (⟨byteVocabulary, [anything], false⟩ : BytePairEncoding Nat).decode ids =
        some (encodeRunes ['h', 'i', ' ', 'é', '<', '/', 's', '>', 'h', 'i']) := by
  refine gpt2_round_trip byteVocabulary [anything]
    (fun cmp => Heap.ofLess fun i j => cmp i j == .lt) (fun b => ?_) (by decide +kernel)
    (validUtf8_encodeRunes _) (by decide +kernel)
  refine List.mem_map.mpr ⟨⟨encodeRunes [byteRune b], 1, 0⟩, List.mem_append_left _ ?_, rfl⟩
  refine List.mem_map.mpr ⟨b.toNat, List.mem_range.mpr b.toNat_lt, ?_⟩
  rw [UInt8.ofNat_toNat]

end Prismalama.Tokenizer
