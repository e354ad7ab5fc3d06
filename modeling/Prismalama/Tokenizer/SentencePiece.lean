import Prismalama.Tokenizer.BytePairEncoding

/-!
# SentencePiece (`tokenizer/sentencepiece.go`)

Spaces become U+2581, neighbours are merged by score, and a piece that is not in
the vocabulary falls back to the tokens of its bytes. The decoder knows a byte
token by its spelling alone, and turns U+2581 back into a space within a token.
So a text survives exactly when no token taken from it is spelled like a byte
token, and no piece with a space falls back to bytes.
-/

namespace Prismalama.Tokenizer

open Prismalama.Lib

structure CandidateKey (σ : Type*) where
  score : σ
  size : Nat

inductive DecodeError
  /-- The index of an id is out of range. -/
  | outOfRange
  /-- `failed to parse hex byte`: what `ParseUint` was given, and its error. -/
  | hexByte (num : GoString) (err : NumError)
deriving DecidableEq

namespace SentencePiece

variable {σ : Type*}

def rules (v : Vocabulary σ) : MergeRules (CandidateKey σ) where
  key left right :=
    let id := v.encode (encodeRunes left ++ encodeRunes right)
    if 0 ≤ id then
      v.tokens[id.toNat]?.map fun t =>
        ⟨t.score, (encodeRunes left).length + (encodeRunes right).length⟩
    else none
  joins key left right := (encodeRunes left).length + (encodeRunes right).length == key.size

/-- The order of the queue. -/
def less [LT σ] [DecidableLT σ] [BEq σ] (i j : Pair (CandidateKey σ)) : Bool :=
  decide (j.key.score < i.key.score) || i.key.score == j.key.score && decide (i.a < j.a)

/-- `text`: the fragment with its spaces marked. -/
def mark (s : GoString) : GoString := replaceAll s (encodeRunes [' ']) spmWhitespaceSep

/-- The markers of a token as spaces. -/
def unmark (s : GoString) : GoString := replaceAll s spmWhitespaceSep (encodeRunes [' '])

/-- The ids of a piece that the merge loop leaves. -/
def pieceIds (v : Vocabulary σ) (runes : List Char) : List Int :=
  let id := v.encode (encodeRunes runes)
  if 0 ≤ id then [id] else v.byteIds (encodeRunes runes)

section Encode

variable [LT σ] [DecidableLT σ] [BEq σ]
  (heapOf : (Pair (CandidateKey σ) → Pair (CandidateKey σ) → Bool) → Heap (Pair (CandidateKey σ)))

def encodeFragment (v : Vocabulary σ) (frag : Fragment) : Option (List Int) :=
  if frag.ids ≠ [] then some frag.ids
  else
    let text := mark frag.value
    let id := v.encode text
    if 0 ≤ id then some [id]
    else
      (mergeRunes (rules v) (heapOf less) (decodeRunes text)).map fun pieces =>
        pieces.flatMap (pieceIds v)

/-- `Encode`; `none` when a loop does not end. -/
def encode (v : Vocabulary σ) (s : GoString) (addSpecial : Bool) : Option (List Int) :=
  (fragments v s).bind fun frags =>
    (frags.mapM (encodeFragment heapOf v)).map fun ids =>
      if addSpecial then v.addSpecials ids.flatten else ids.flatten

end Encode

/-- What `Decode` writes for one token. -/
def decodeToken (data : GoString) : Except DecodeError GoString :=
  let data := unmark data
  if readsAsByte data then
    match parseUint (slice data 1 5) 0 8 with
    | .ok b => .ok [UInt8.ofNat b]
    | .error e => .error (.hexByte (slice data 1 5) e)
  else .ok data

/-- A round of the loop of `Decode`. -/
def decodeId (v : Vocabulary σ) (id : Int) : Except DecodeError GoString :=
  match v.decode id with
  | none => .error .outOfRange
  | some data => decodeToken data

/-- `Decode` -/
def decode (v : Vocabulary σ) : List Int → Except DecodeError GoString
  | [] => .ok []
  | id :: ids =>
    match decodeId v id with
    | .error e => .error e
    | .ok s => (decode v ids).map (s ++ ·)

/-! ## What is taken from the text -/

/-- A part of the text: found in the vocabulary, or encoded byte by byte. -/
inductive Taken
  | token (value : GoString)
  | bytes (value : GoString)

def Taken.ids (v : Vocabulary σ) : Taken → List Int
  | .token value => [v.encode value]
  | .bytes value => v.byteIds value

/-- The text it stands for. -/
def Taken.text : Taken → GoString
  | .token value => unmark value
  | .bytes value => unmark value

/-- It decodes to that text: a token is not spelled like a byte token, and
bytes have no marked space. -/
def Taken.Faithful : Taken → Prop
  | .token value => readsAsByte (unmark value) = false
  | .bytes value => ¬spmWhitespaceSep <:+: value

def Taken.Known (v : Vocabulary σ) : Taken → Prop
  | .token value => value ∈ v.values
  | .bytes _ => True

def takenPiece (v : Vocabulary σ) (runes : List Char) : Taken :=
  if 0 ≤ v.encode (encodeRunes runes) then .token (encodeRunes runes)
  else .bytes (encodeRunes runes)

section Taken

variable [LT σ] [DecidableLT σ] [BEq σ]
  (heapOf : (Pair (CandidateKey σ) → Pair (CandidateKey σ) → Bool) → Heap (Pair (CandidateKey σ)))

/-- What the encoder takes from a fragment. -/
def takenFragment (v : Vocabulary σ) (frag : Fragment) : Option (List Taken) :=
  if frag.ids ≠ [] then some [.token frag.value]
  else
    let text := mark frag.value
    if 0 ≤ v.encode text then some [.token text]
    else
      (mergeRunes (rules v) (heapOf less) (decodeRunes text)).map fun pieces =>
        pieces.map (takenPiece v)

/-- What the encoder takes from a text. -/
def takenFrom (v : Vocabulary σ) (s : GoString) : Option (List Taken) :=
  (fragments v s).bind fun frags => (frags.mapM (takenFragment heapOf v)).map List.flatten

/-- Encoding and decoding gives back the text without an error. -/
def RoundTrips (v : Vocabulary σ) (s : GoString) : Prop :=
  ∃ ids, encode heapOf v s false = some ids ∧ decode v ids = .ok s

instance (v : Vocabulary σ) (s : GoString) : Decidable (RoundTrips heapOf v s) :=
  match h : encode heapOf v s false with
  | none => .isFalse fun ⟨ids, hids, _⟩ => by simp [h] at hids
  | some ids =>
    decidable_of_iff (decode v ids = .ok s)
      ⟨fun hdec => ⟨ids, h, hdec⟩, fun ⟨_, hids, hdec⟩ => by
        rw [h] at hids
        cases hids
        exact hdec⟩

end Taken

/-! ## Marked spaces -/

theorem mark_encodeRunes (rs : List Char) :
    mark (encodeRunes rs) = encodeRunes (rs.map fun r => if r = ' ' then '\u2581' else r) :=
  replaceAll_rune ' ' '\u2581' rs

theorem unmark_encodeRunes (rs : List Char) :
    unmark (encodeRunes rs) = encodeRunes (rs.map fun r => if r = '\u2581' then ' ' else r) :=
  replaceAll_rune '\u2581' ' ' rs

theorem encodeRunes_infix_of_mem {c : Char} {rs : List Char} (h : c ∈ rs) :
    encodeRunes [c] <:+: encodeRunes rs := by
  obtain ⟨before, after, rfl⟩ := List.mem_iff_append.mp h
  refine ⟨encodeRunes before, encodeRunes after, ?_⟩
  rw [← encodeRunes_append, ← encodeRunes_append, List.append_assoc]
  rfl

/-- Marking the spaces of a text without markers can be undone. -/
theorem unmark_map_mark {rs : List Char} (h : '\u2581' ∉ rs) :
    (rs.map fun r => if r = ' ' then '\u2581' else r).map
      (fun r => if r = '\u2581' then ' ' else r) = rs := by
  rw [List.map_map]
  refine (List.map_congr_left fun r hr => ?_).trans (List.map_id rs)
  rw [Function.comp_apply]
  by_cases hspace : r = ' '
  · rw [if_pos hspace, if_pos rfl, hspace]
    rfl
  · have hne : r ≠ '\u2581' := fun heq => h (heq ▸ hr)
    rw [if_neg hspace, if_neg hne]
    rfl

theorem unmark_eq_self {s : GoString} (h : ¬spmWhitespaceSep <:+: s) : unmark s = s :=
  replaceAll_of_not_infix _ h

/-! ## Decoding what is taken -/

theorem length_of_readsAsByte {data : GoString} (h : readsAsByte data = true) :
    data.length = 6 := by
  unfold readsAsByte at h
  simp only [Bool.and_eq_true, beq_iff_eq] at h
  exact h.1.1

theorem decode_append_ok {v : Vocabulary σ} {ids ids' : List Int} {s : GoString} :
    decode v (ids ++ ids') = .ok s ↔
      ∃ t u, decode v ids = .ok t ∧ decode v ids' = .ok u ∧ s = t ++ u := by
  induction ids generalizing s with
  | nil =>
    constructor
    · exact fun h => ⟨[], s, rfl, h, rfl⟩
    · rintro ⟨t, u, ht, hu, rfl⟩
      cases ht
      exact hu
  | cons id ids ih =>
    rw [List.cons_append, decode, decode]
    cases decodeId v id with
    | error e => simp
    | ok r =>
      constructor
      · intro h
        cases hrest : decode v (ids ++ ids') with
        | error e =>
          rw [hrest] at h
          cases h
        | ok w =>
          obtain ⟨t, u, ht, hu, rfl⟩ := ih.mp hrest
          rw [hrest] at h
          cases h
          rw [ht]
          exact ⟨r ++ t, u, rfl, hu, (List.append_assoc r t u).symm⟩
      · rintro ⟨t, u, ht, hu, rfl⟩
        cases hids : decode v ids with
        | error e =>
          rw [hids] at ht
          cases ht
        | ok t' =>
          rw [hids] at ht
          cases ht
          have hall := ih.mpr ⟨t', u, hids, hu, rfl⟩
          show (decode v (ids ++ ids')).map (r ++ ·) = _
          rw [hall]
          exact congrArg Except.ok (List.append_assoc r t' u).symm

/-- A byte token decodes to its byte. -/
theorem decodeToken_byteToken (b : UInt8) : decodeToken (byteToken b) = .ok [b] := by
  have hall : ∀ n < 256, decodeToken (byteToken (UInt8.ofNat n)) = .ok [UInt8.ofNat n] := by
    decide +kernel
  have hb := hall b.toNat b.toNat_lt
  rwa [UInt8.ofNat_toNat] at hb

theorem decode_cons {v : Vocabulary σ} {value : GoString} (h : value ∈ v.values)
    (ids : List Int) : decode v (v.encode value :: ids) =
      match decodeToken value with
      | .error e => .error e
      | .ok s => (decode v ids).map (s ++ ·) := by
  rw [decode, decodeId, Vocabulary.decode_encode h]

theorem decode_singleton {v : Vocabulary σ} {value : GoString} (h : value ∈ v.values) :
    decode v [v.encode value] = decodeToken value := by
  rw [decode_cons h]
  cases decodeToken value with
  | error e => rfl
  | ok s => exact congrArg Except.ok (List.append_nil s)

theorem decode_byteIds {v : Vocabulary σ} (hbytes : ∀ b, byteToken b ∈ v.values)
    (s : GoString) : decode v (v.byteIds s) = .ok s := by
  induction s with
  | nil => rfl
  | cons b s ih =>
    have hb : v.byteIds (b :: s) = v.encode (byteToken b) :: v.byteIds s :=
      List.filter_cons_of_pos (decide_eq_true (Vocabulary.encode_nonneg.mpr (hbytes b)))
    rw [hb, decode_cons (hbytes b), decodeToken_byteToken, ih]
    rfl

/-- The three things that can come of a part: its text, less than its text, or
the marker of a space. -/
theorem decode_taken {v : Vocabulary σ} (hbytes : ∀ b, byteToken b ∈ v.values) {t : Taken}
    (ht : t.Known v) :
    (t.Faithful → decode v (t.ids v) = .ok t.text) ∧
      (¬t.Faithful → ∀ out, decode v (t.ids v) = .ok out →
        out.length < t.text.length ∨ spmWhitespaceSep <:+: out) := by
  cases t with
  | token value =>
    have hdec : decode v [v.encode value] = decodeToken value := decode_singleton ht
    refine ⟨fun hf => ?_, fun hf out hout => .inl ?_⟩
    · rw [Taken.ids, hdec, decodeToken]
      simp only [show readsAsByte (unmark value) = false from hf, Bool.false_eq_true, if_false]
      rfl
    · have hreads : readsAsByte (unmark value) = true := by
        simpa [Taken.Faithful] using hf
      rw [Taken.ids, hdec, decodeToken] at hout
      simp only [hreads, if_true] at hout
      split at hout
      · cases hout
        rw [Taken.text, length_of_readsAsByte hreads]
        exact Nat.one_lt_succ_succ 4
      · cases hout
  | bytes value =>
    have hdec := decode_byteIds hbytes value
    refine ⟨fun hf => ?_, fun hf out hout => .inr ?_⟩
    · rw [Taken.ids, hdec, Taken.text, unmark_eq_self hf]
    · rw [Taken.ids, hdec] at hout
      cases hout
      exact not_not.mp hf

/-- Parts decode to their text exactly when all are faithful. -/
theorem decode_ok_iff {v : Vocabulary σ} (hbytes : ∀ b, byteToken b ∈ v.values)
    {taken : List Taken} (hknown : ∀ t ∈ taken, t.Known v)
    (hsep : ¬spmWhitespaceSep <:+: taken.flatMap Taken.text) :
    decode v (taken.flatMap (Taken.ids v)) = .ok (taken.flatMap Taken.text) ↔
      ∀ t ∈ taken, t.Faithful := by
  constructor
  · -- the output has no marker, so no part gives more than its text, and then none gives less
    have hle : ∀ (taken : List Taken), (∀ t ∈ taken, t.Known v) → ∀ out,
        decode v (taken.flatMap (Taken.ids v)) = .ok out → ¬spmWhitespaceSep <:+: out →
        out.length ≤ (taken.flatMap Taken.text).length ∧
          (out.length = (taken.flatMap Taken.text).length → ∀ t ∈ taken, t.Faithful) := by
      intro taken
      induction taken with
      | nil =>
        intro _ out hout _
        cases hout
        exact ⟨le_refl _, fun _ t ht => absurd ht List.not_mem_nil⟩
      | cons t taken ih =>
        intro hknown out hout hno
        rw [List.flatMap_cons] at hout
        obtain ⟨o, rest, ho, hrest, rfl⟩ := decode_append_ok.mp hout
        obtain ⟨hrestle, hrestall⟩ := ih (fun u hu => hknown u (List.mem_cons_of_mem t hu)) rest
          hrest fun hin => hno (hin.trans (List.suffix_append o rest).isInfix)
        obtain ⟨hyes, hnot⟩ := decode_taken hbytes (hknown t List.mem_cons_self)
        rw [List.flatMap_cons, List.length_append, List.length_append]
        by_cases hf : t.Faithful
        · rw [hyes hf] at ho
          cases ho
          refine ⟨Nat.add_le_add_left hrestle _, fun heq u hu => ?_⟩
          rcases List.mem_cons.mp hu with rfl | hu
          · exact hf
          · exact hrestall (Nat.add_left_cancel heq) u hu
        · rcases hnot hf o ho with hlt | hin
          · exact ⟨by omega, fun heq => by omega⟩
          · exact absurd (hin.trans (List.prefix_append o rest).isInfix) hno
    intro h
    exact (hle taken hknown _ h hsep).2 rfl
  · intro hall
    clear hsep
    induction taken with
    | nil => rfl
    | cons t taken ih =>
      rw [List.flatMap_cons, List.flatMap_cons]
      refine decode_append_ok.mpr ⟨t.text, taken.flatMap Taken.text, ?_, ?_, rfl⟩
      · exact (decode_taken hbytes (hknown t List.mem_cons_self)).1 (hall t List.mem_cons_self)
      · exact ih (fun u hu => hknown u (List.mem_cons_of_mem t hu))
          fun u hu => hall u (List.mem_cons_of_mem t hu)

/-! ## Encoding -/

section Encode

variable {v : Vocabulary σ}

/-- What is taken is encoded, known to the vocabulary, and spells `value`. -/
structure Takes (v : Vocabulary σ) (taken : List Taken) (ids : List Int) (value : GoString) :
    Prop where
  ids_eq : ids = taken.flatMap (Taken.ids v)
  known : ∀ t ∈ taken, t.Known v
  text_eq : taken.flatMap Taken.text = value

theorem Takes.append {taken taken' : List Taken} {ids ids' : List Int} {s s' : GoString}
    (h : Takes v taken ids s) (h' : Takes v taken' ids' s') :
    Takes v (taken ++ taken') (ids ++ ids') (s ++ s') := by
  refine ⟨?_, fun t ht => ?_, ?_⟩
  · rw [h.ids_eq, h'.ids_eq, List.flatMap_append]
  · rcases List.mem_append.mp ht with ht | ht
    · exact h.known t ht
    · exact h'.known t ht
  · rw [List.flatMap_append, h.text_eq, h'.text_eq]

theorem takes_token {value : GoString} (h : value ∈ v.values) :
    Takes v [.token value] [v.encode value] (unmark value) := by
  refine ⟨rfl, fun t ht => ?_, ?_⟩
  · cases List.mem_singleton.mp ht
    exact h
  · simp [Taken.text]

/-- The pieces of the merge loop. -/
theorem takes_pieces (pieces : List (List Char)) :
    Takes v (pieces.map (takenPiece v)) (pieces.flatMap (pieceIds v))
      (unmark (encodeRunes pieces.flatten)) := by
  have hone : ∀ piece : List Char,
      Takes v [takenPiece v piece] (pieceIds v piece) (unmark (encodeRunes piece)) := by
    intro piece
    by_cases hin : 0 ≤ v.encode (encodeRunes piece)
    · have hpiece : takenPiece v piece = .token (encodeRunes piece) := if_pos hin
      have hids : pieceIds v piece = [v.encode (encodeRunes piece)] := if_pos hin
      rw [hpiece, hids]
      exact takes_token (Vocabulary.encode_nonneg.mp hin)
    · have hpiece : takenPiece v piece = .bytes (encodeRunes piece) := if_neg hin
      have hids : pieceIds v piece = v.byteIds (encodeRunes piece) := if_neg hin
      rw [hpiece, hids]
      refine ⟨(List.append_nil _).symm, fun t ht => ?_, List.append_nil _⟩
      cases List.mem_singleton.mp ht
      trivial
  induction pieces with
  | nil => exact ⟨rfl, fun t ht => absurd ht List.not_mem_nil, rfl⟩
  | cons piece pieces ih =>
    have hunmark : unmark (encodeRunes (piece :: pieces).flatten) =
        unmark (encodeRunes piece) ++ unmark (encodeRunes pieces.flatten) := by
      rw [List.flatten_cons, unmark_encodeRunes, unmark_encodeRunes, unmark_encodeRunes,
        List.map_append, encodeRunes_append]
    rw [hunmark]
    exact (hone piece).append ih

variable [LT σ] [DecidableLT σ] [BEq σ]
  {heapOf : (Pair (CandidateKey σ) → Pair (CandidateKey σ) → Bool) → Heap (Pair (CandidateKey σ))}

variable (heapOf) in
theorem takenFragment_spec {frag : Fragment} (hok : frag.Ok v)
    (hsep : ¬spmWhitespaceSep <:+: frag.value) :
    ∃ taken ids, takenFragment heapOf v frag = some taken ∧
      encodeFragment heapOf v frag = some ids ∧ Takes v taken ids frag.value := by
  rcases hok with ⟨hids, hvalid⟩ | ⟨hspecial, hids⟩
  · -- a text fragment
    obtain ⟨rs, hrs⟩ := hvalid
    have hnone : '\u2581' ∉ rs := fun hin => hsep (hrs ▸ encodeRunes_infix_of_mem hin)
    have hunmark : unmark (mark frag.value) = frag.value := by
      rw [hrs, mark_encodeRunes, unmark_encodeRunes, unmark_map_mark hnone]
    by_cases hshort : 0 ≤ v.encode (mark frag.value)
    · refine ⟨[.token (mark frag.value)], [v.encode (mark frag.value)], ?_, ?_, ?_⟩
      · simp only [takenFragment, hids, ne_eq, not_true_eq_false, if_false, if_pos hshort]
      · simp only [encodeFragment, hids, ne_eq, not_true_eq_false, if_false, if_pos hshort]
      · have htakes := takes_token (Vocabulary.encode_nonneg.mp hshort)
        rwa [hunmark] at htakes
    · obtain ⟨pieces, hpieces, hspelled, -⟩ := mergeRunes_spec (P := fun _ => True)
        (decodeRunes (mark frag.value)) (rules v) (heapOf less)
        (fun _ _ => trivial) fun _ _ _ _ _ _ => trivial
      refine ⟨pieces.map (takenPiece v), pieces.flatMap (pieceIds v), ?_, ?_, ?_⟩
      · simp only [takenFragment, hids, ne_eq, not_true_eq_false, if_false, if_neg hshort, hpieces,
          Option.map_some]
      · simp only [encodeFragment, hids, ne_eq, not_true_eq_false, if_false, if_neg hshort, hpieces,
          Option.map_some]
      · have htakes := takes_pieces (v := v) pieces
        have hvalid : ValidUtf8 (mark frag.value) := by
          rw [hrs, mark_encodeRunes]
          exact validUtf8_encodeRunes _
        rwa [hspelled, hvalid.encode_decode, hunmark] at htakes
  · -- a special token
    have hne : frag.ids ≠ [] := by
      rw [hids]
      exact List.cons_ne_nil _ _
    refine ⟨[.token frag.value], frag.ids, if_pos hne, if_pos hne, ?_⟩
    have htakes := takes_token (Vocabulary.mem_values_of_special hspecial)
    rwa [unmark_eq_self hsep, ← hids] at htakes

variable (heapOf) in
theorem takenFrom_spec {s : GoString} (hvalid : ValidUtf8 s) (hsep : ¬spmWhitespaceSep <:+: s)
    (hspecial : ∀ special ∈ v.specialVocabulary, special ≠ [] ∧ ValidUtf8 special) :
    ∃ taken ids, takenFrom heapOf v s = some taken ∧ encode heapOf v s false = some ids ∧
      Takes v taken ids s := by
  obtain ⟨frags, hfrags, rfl, hok⟩ := fragments_spec hvalid hspecial
  have hloop : ∀ frags : List Fragment, (∀ f ∈ frags, f.Ok v) →
      ¬spmWhitespaceSep <:+: spelled frags →
      ∃ takens idss, frags.mapM (takenFragment heapOf v) = some takens ∧
        frags.mapM (encodeFragment heapOf v) = some idss ∧
        Takes v takens.flatten idss.flatten (spelled frags) := by
    intro frags
    induction frags with
    | nil =>
      exact fun _ _ => ⟨[], [], rfl, rfl, rfl, fun t ht => absurd ht List.not_mem_nil, rfl⟩
    | cons frag frags ih =>
      intro hok hsep
      have hspelled : spelled (frag :: frags) = frag.value ++ spelled frags := rfl
      rw [hspelled] at hsep
      obtain ⟨taken, ids, htaken, hids, htakes⟩ := takenFragment_spec heapOf
        (hok frag List.mem_cons_self) fun hin =>
          hsep (hin.trans (List.prefix_append frag.value (spelled frags)).isInfix)
      obtain ⟨takens, idss, htakens, hidss, htakess⟩ := ih
        (fun f hf => hok f (List.mem_cons_of_mem frag hf)) fun hin =>
          hsep (hin.trans (List.suffix_append frag.value (spelled frags)).isInfix)
      refine ⟨taken :: takens, ids :: idss, ?_, ?_, htakes.append htakess⟩
      · rw [List.mapM_cons, htaken, htakens]
        rfl
      · rw [List.mapM_cons, hids, hidss]
        rfl
  obtain ⟨takens, idss, htakens, hidss, htakes⟩ := hloop frags hok hsep
  refine ⟨takens.flatten, idss.flatten, ?_, ?_, htakes⟩
  · simp only [takenFrom, hfrags, Option.bind_some, htakens, Option.map_some]
  · simp only [encode, hfrags, Option.bind_some, hidss, Option.map_some, Bool.false_eq_true,
      if_false]

end Encode

/-- A text survives encoding and decoding exactly when everything that is taken
from it is faithful. -/
theorem round_trip_iff [LT σ] [DecidableLT σ] [BEq σ] (v : Vocabulary σ)
    (heapOf : (Pair (CandidateKey σ) → Pair (CandidateKey σ) → Bool) →
      Heap (Pair (CandidateKey σ)))
    (hbytes : ∀ b, byteToken b ∈ v.values)
    (hspecial : ∀ special ∈ v.specialVocabulary, special ≠ [] ∧ ValidUtf8 special)
    {s : GoString} (hvalid : ValidUtf8 s) (hsep : ¬spmWhitespaceSep <:+: s) :
    ∃ taken, takenFrom heapOf v s = some taken ∧
      (RoundTrips heapOf v s ↔ ∀ t ∈ taken, t.Faithful) := by
  obtain ⟨taken, ids, htaken, hids, htakes⟩ :=
    takenFrom_spec heapOf hvalid hsep hspecial
  refine ⟨taken, htaken, ?_⟩
  have hiff := decode_ok_iff hbytes htakes.known (by rw [htakes.text_eq]; exact hsep)
  rw [htakes.text_eq, ← htakes.ids_eq] at hiff
  rw [← hiff]
  constructor
  · rintro ⟨ids', hids', hdec⟩
    rw [hids] at hids'
    cases hids'
    exact hdec
  · exact fun hdec => ⟨ids, hids, hdec⟩

/-- The byte tokens, and some more. -/
def byteTokens (more : List (Token Nat)) (hlen : more.length ≤ 1000) : Vocabulary Nat where
  tokens := (List.range 256).map (fun n => ⟨byteToken (UInt8.ofNat n), 6, 0⟩) ++ more
  merges := []
  bos := []
  eos := []
  addBOS := false
  addEOS := false
  length_le := by
    simp only [List.length_append, List.length_map, List.length_range]
    omega

theorem byteToken_mem_byteTokens (more : List (Token Nat)) (hlen : more.length ≤ 1000)
    (b : UInt8) : byteToken b ∈ (byteTokens more hlen).values := by
  refine List.mem_map.mpr ⟨⟨byteToken b, 6, 0⟩, List.mem_append_left _ ?_, rfl⟩
  refine List.mem_map.mpr ⟨b.toNat, List.mem_range.mpr b.toNat_lt, ?_⟩
  rw [UInt8.ofNat_toNat]

theorem nodup_byteTokens {more : List (Token Nat)} {hlen : more.length ≤ 1000}
    (hmore : (more.map Token.value).Nodup) (hlength : ∀ t ∈ more, t.value.length ≠ 6) :
    (byteTokens more hlen).values.Nodup := by
  unfold Vocabulary.values byteTokens
  rw [List.map_append, List.map_map, List.nodup_append]
  refine ⟨List.Nodup.map_on (fun n hn m hm heq => ?_) List.nodup_range, hmore, ?_⟩
  · -- two bytes with the same token are the same
    have hdec := congrArg decodeToken heq
    simp only [Function.comp_apply, decodeToken_byteToken, Except.ok.injEq, List.cons.injEq,
      and_true] at hdec
    have hnm := congrArg UInt8.toNat hdec
    rw [UInt8.toNat_ofNat', UInt8.toNat_ofNat'] at hnm
    have := List.mem_range.mp hn
    have := List.mem_range.mp hm
    omega
  · intro a ha b hb heq
    obtain ⟨n, -, rfl⟩ := List.mem_map.mp ha
    obtain ⟨t, ht, rfl⟩ := List.mem_map.mp hb
    exact hlength t ht (heq ▸ rfl)

/-- `a b</s>` and back. -/
theorem round_trip_iff_ab :
    ∃ taken, takenFrom (fun less => Heap.ofLess less) (byteTokens
        [⟨spmWhitespaceSep, 1, 1⟩, ⟨encodeRunes ['a'], 1, 2⟩,
          ⟨encodeRunes ['<', '/', 's', '>'], tokenTypeControl, 0⟩] (by decide))
        (encodeRunes ['a', ' ', 'b', '<', '/', 's', '>']) = some taken ∧
      (RoundTrips (fun less => Heap.ofLess less) (byteTokens
        [⟨spmWhitespaceSep, 1, 1⟩, ⟨encodeRunes ['a'], 1, 2⟩,
          ⟨encodeRunes ['<', '/', 's', '>'], tokenTypeControl, 0⟩] (by decide))
        (encodeRunes ['a', ' ', 'b', '<', '/', 's', '>']) ↔ ∀ t ∈ taken, t.Faithful) := by
  refine round_trip_iff _ _ (byteToken_mem_byteTokens _ _) (fun special hspecial => ?_)
    (validUtf8_encodeRunes _) (by decide)
  have heq : (byteTokens [⟨spmWhitespaceSep, 1, 1⟩, ⟨encodeRunes ['a'], 1, 2⟩,
      ⟨encodeRunes ['<', '/', 's', '>'], tokenTypeControl, 0⟩] (by decide)).specialVocabulary =
      [encodeRunes ['<', '/', 's', '>']] := by decide
  rw [heq] at hspecial
  cases List.mem_singleton.mp hspecial
  exact ⟨by decide, validUtf8_encodeRunes _⟩

/-- The text `<0x41>` is taken for a byte token, a space falls back to the bytes
of its marker when the marker is no token, and a special token that is no valid
text cuts a rune apart. -/
theorem byte_token_spelling_lost :
    (∀ b, byteToken b ∈ (byteTokens [] (by decide)).values) ∧
      (byteTokens [] (by decide)).values.Nodup ∧
      (byteTokens [] (by decide)).specialVocabulary = [] ∧
      ¬RoundTrips (fun less => Heap.ofLess less) (byteTokens [] (by decide))
        (encodeRunes ['<', '0', 'x', '4', '1', '>']) ∧
      ¬RoundTrips (fun less => Heap.ofLess less) (byteTokens [] (by decide)) (encodeRunes [' ']) ∧
      (∀ b, byteToken b ∈
        (byteTokens [⟨[0xA9], tokenTypeUserDefined, 0⟩] (by decide)).values) ∧
      (byteTokens [⟨[0xA9], tokenTypeUserDefined, 0⟩] (by decide)).values.Nodup ∧
      (byteTokens [⟨[0xA9], tokenTypeUserDefined, 0⟩] (by decide)).specialVocabulary = [[0xA9]] ∧
      ¬RoundTrips (fun less => Heap.ofLess less)
        (byteTokens [⟨[0xA9], tokenTypeUserDefined, 0⟩] (by decide)) (encodeRunes ['é']) :=
  ⟨byteToken_mem_byteTokens _ _, nodup_byteTokens (by decide) (by decide), by decide,
    by decide +kernel, by decide +kernel, byteToken_mem_byteTokens _ _,
    nodup_byteTokens (by decide) (by decide), by decide +kernel, by decide +kernel⟩

end SentencePiece

end Prismalama.Tokenizer
