import Mathlib.Data.List.Basic
import Mathlib.Tactic

/-!
# Strings as bytes, runes as characters

A Go string is any sequence of bytes. `encodeRunes` is the conversion from
`[]rune`, `decodeRunes` the conversion to it, where every byte that starts no
encoded rune becomes U+FFFD. A string is valid when it is the encoding of some
runes. The encoding of a rune starts with a byte that no other place of an
encoding has, so a valid string can only be cut apart between two runes.
-/

namespace Prismalama.Lib

abbrev GoString := List UInt8

instance : LawfulBEq GoString := inferInstance

/-- `string(runes)` -/
def encodeRunes (runes : List Char) : GoString := runes.flatMap String.utf8EncodeChar

@[simp] theorem encodeRunes_nil : encodeRunes [] = [] := rfl

@[simp] theorem encodeRunes_cons (c : Char) (rs : List Char) :
    encodeRunes (c :: rs) = String.utf8EncodeChar c ++ encodeRunes rs := rfl

@[simp] theorem encodeRunes_append (rs rs' : List Char) :
    encodeRunes (rs ++ rs') = encodeRunes rs ++ encodeRunes rs' := List.flatMap_append

theorem encodeRunes_flatten (rss : List (List Char)) :
    encodeRunes rss.flatten = (rss.map encodeRunes).flatten := by
  induction rss with
  | nil => rfl
  | cons rs rss ih => simp [ih]

theorem utf8EncodeChar_ne_nil (c : Char) : String.utf8EncodeChar c ≠ [] :=
  String.utf8EncodeChar_ne_nil

/-! ## Decoding -/

/-- The rune whose encoding starts the string. -/
def decodeRune (s : GoString) : Option Char := s.toByteArray.utf8DecodeChar? 0

@[simp] theorem decodeRune_encode_append (c : Char) (s : GoString) :
    decodeRune (String.utf8EncodeChar c ++ s) = some c := by
  unfold decodeRune
  rw [List.toByteArray_append]
  exact ByteArray.utf8DecodeChar?_utf8EncodeChar_append

/-- Decode after `skip` bytes that belong to the rune before. -/
def decodeFrom : Nat → GoString → List Char
  | _, [] => []
  | skip + 1, _ :: s => decodeFrom skip s
  | 0, b :: s =>
    match decodeRune (b :: s) with
    | some c => c :: decodeFrom (c.utf8Size - 1) s
    | none => '\uFFFD' :: decodeFrom 0 s

/-- `[]rune(s)` -/
def decodeRunes (s : GoString) : List Char := decodeFrom 0 s

theorem decodeFrom_append : ∀ (s t : GoString), decodeFrom s.length (s ++ t) = decodeFrom 0 t
  | [], _ => rfl
  | _ :: s, t => decodeFrom_append s t

theorem decodeRunes_cons (c : Char) (s : GoString) :
    decodeRunes (String.utf8EncodeChar c ++ s) = c :: decodeRunes s := by
  have hdec := decodeRune_encode_append c s
  have hlen := String.length_utf8EncodeChar c
  cases henc : String.utf8EncodeChar c with
  | nil => exact absurd henc (utf8EncodeChar_ne_nil c)
  | cons b bs =>
    rw [henc] at hdec hlen
    have hskip : c.utf8Size - 1 = bs.length := by
      rw [← hlen, List.length_cons, Nat.add_sub_cancel]
    rw [List.cons_append] at hdec ⊢
    show decodeFrom 0 (b :: (bs ++ s)) = c :: decodeFrom 0 s
    rw [decodeFrom, hdec]
    show c :: decodeFrom (c.utf8Size - 1) (bs ++ s) = c :: decodeFrom 0 s
    rw [hskip, decodeFrom_append]

/-- Decoding undoes encoding. -/
@[simp] theorem decodeRunes_encodeRunes (rs : List Char) : decodeRunes (encodeRunes rs) = rs := by
  induction rs with
  | nil => rfl
  | cons c rs ih => rw [encodeRunes_cons, decodeRunes_cons, ih]

/-! ## Valid strings -/

def ValidUtf8 (s : GoString) : Prop := ∃ rs, s = encodeRunes rs

theorem validUtf8_encodeRunes (rs : List Char) : ValidUtf8 (encodeRunes rs) := ⟨rs, rfl⟩

/-- Encoding gives back a valid string. -/
theorem ValidUtf8.encode_decode {s : GoString} (h : ValidUtf8 s) :
    encodeRunes (decodeRunes s) = s := by
  obtain ⟨rs, rfl⟩ := h
  rw [decodeRunes_encodeRunes]

/-- `utf8.ValidString`: nothing of the string becomes U+FFFD that is not its encoding. -/
def validString (s : GoString) : Bool := encodeRunes (decodeRunes s) == s

theorem validString_iff {s : GoString} : validString s = true ↔ ValidUtf8 s := by
  rw [validString, beq_iff_eq]
  exact ⟨fun h => ⟨_, h.symm⟩, ValidUtf8.encode_decode⟩

theorem ValidUtf8.append {s t : GoString} (hs : ValidUtf8 s) (ht : ValidUtf8 t) :
    ValidUtf8 (s ++ t) := by
  obtain ⟨rs, rfl⟩ := hs
  obtain ⟨rs', rfl⟩ := ht
  exact ⟨rs ++ rs', (encodeRunes_append rs rs').symm⟩

/-- What follows the encoding of some runes in a valid string is the encoding of
the other runes. -/
theorem encodeRunes_append_eq {rs cs : List Char} {t : GoString}
    (h : encodeRunes rs ++ t = encodeRunes cs) : ∃ cs', cs = rs ++ cs' ∧ t = encodeRunes cs' := by
  induction rs generalizing cs with
  | nil => exact ⟨cs, rfl, h⟩
  | cons c rs ih =>
    rw [encodeRunes_cons, List.append_assoc] at h
    cases cs with
    | nil => exact absurd (List.append_eq_nil_iff.mp h).1 (utf8EncodeChar_ne_nil c)
    | cons d cs =>
      have hdec := congrArg decodeRune h
      rw [decodeRune_encode_append, encodeRunes_cons, decodeRune_encode_append] at hdec
      have hcd := Option.some.inj hdec
      subst hcd
      obtain ⟨cs', rfl, ht⟩ := ih (List.append_cancel_left h)
      exact ⟨cs', rfl, ht⟩

/-- Only the first byte of an encoded rune is a first byte. -/
theorem not_isUTF8FirstByte_of_lt {c : Char} {s t : GoString} {b : UInt8}
    (h : String.utf8EncodeChar c = s ++ b :: t) (hs : s ≠ []) : ¬b.IsUTF8FirstByte := by
  have hi : s.length < (String.utf8EncodeChar c).length := by
    rw [h, List.length_append, List.length_cons]
    omega
  have hb : (String.utf8EncodeChar c)[s.length] = b := by
    simp [h]
  rw [← hb, UInt8.isUTF8FirstByte_getElem_utf8EncodeChar]
  exact fun hlen => hs (List.length_eq_zero_iff.mp hlen)

/-- A valid string can be cut before a first byte. -/
theorem exists_runes_of_cut {cs : List Char} {s t : GoString} {b : UInt8}
    (hb : b.IsUTF8FirstByte) (h : s ++ b :: t = encodeRunes cs) : ValidUtf8 s := by
  induction cs generalizing s with
  | nil => simp at h
  | cons c cs ih =>
    rw [encodeRunes_cons] at h
    rcases List.append_eq_append_iff.mp h with ⟨u, hs, hu⟩ | ⟨u, hs, hu⟩
    · -- the cut is not after the first rune
      cases u with
      | nil =>
        rw [List.append_nil] at hs
        exact ⟨[c], by rw [← hs]; simp⟩
      | cons d u =>
        rw [List.cons_append, List.cons.injEq] at hu
        obtain ⟨rfl, -⟩ := hu
        cases s with
        | nil => exact ⟨[], rfl⟩
        | cons a s =>
          exact absurd hb (not_isUTF8FirstByte_of_lt hs (List.cons_ne_nil a s))
    · obtain ⟨rs, hrs⟩ := ih hu.symm
      exact ⟨c :: rs, by rw [hs, hrs, encodeRunes_cons]⟩

theorem exists_firstByte {c : Char} :
    ∃ b bs, String.utf8EncodeChar c = b :: bs ∧ b.IsUTF8FirstByte := by
  cases henc : String.utf8EncodeChar c with
  | nil => exact absurd henc (utf8EncodeChar_ne_nil c)
  | cons b bs =>
    refine ⟨b, bs, rfl, ?_⟩
    have hfirst := UInt8.isUTF8FirstByte_getElem_zero_utf8EncodeChar (c := c)
    simpa [henc] using hfirst

/-- What surrounds a valid part of a valid string is valid. -/
theorem ValidUtf8.of_middle {s m t : GoString} (h : ValidUtf8 (s ++ m ++ t)) (hm : ValidUtf8 m)
    (hne : m ≠ []) : ValidUtf8 s ∧ ValidUtf8 t := by
  obtain ⟨cs, hcs⟩ := h
  obtain ⟨ms, rfl⟩ := hm
  have hs : ValidUtf8 s := by
    cases ms with
    | nil => exact absurd rfl hne
    | cons c ms =>
      obtain ⟨b, bs, hc, hb⟩ := exists_firstByte (c := c)
      rw [encodeRunes_cons, hc, List.append_assoc] at hcs
      exact exists_runes_of_cut hb hcs
  refine ⟨hs, ?_⟩
  obtain ⟨rs, rfl⟩ := hs
  rw [← encodeRunes_append] at hcs
  obtain ⟨cs', -, ht⟩ := encodeRunes_append_eq hcs
  exact ⟨cs', ht⟩

/-! ## Runes of one byte -/

/-- Runes that stand for their bytes spell them. -/
theorem flatMap_map_of_eq_singleton {α β : Type*} {rune : α → β} {bytes : β → List α} {s : List α}
    (h : ∀ b ∈ s, bytes (rune b) = [b]) : (s.map rune).flatMap bytes = s := by
  rw [List.flatMap_map, List.flatMap_congr h, List.flatMap_singleton']

theorem utf8EncodeChar_ofNat : ∀ n < 128, String.utf8EncodeChar (Char.ofNat n) = [UInt8.ofNat n] := by
  decide

/-- An ASCII byte as a rune. -/
def asciiRune (b : UInt8) : Char := Char.ofNat b.toNat

theorem utf8EncodeChar_asciiRune {b : UInt8} (hb : b.toNat < 128) :
    String.utf8EncodeChar (asciiRune b) = [b] := by
  unfold asciiRune
  rw [utf8EncodeChar_ofNat b.toNat hb, UInt8.ofNat_toNat]

/-- An ASCII string has one rune for each byte. -/
theorem encodeRunes_asciiRune {s : GoString} (h : ∀ b ∈ s, b.toNat < 128) :
    encodeRunes (s.map asciiRune) = s := by
  induction s with
  | nil => rfl
  | cons b s ih =>
    rw [List.map_cons, encodeRunes_cons, utf8EncodeChar_asciiRune (h b List.mem_cons_self),
      ih fun a ha => h a (List.mem_cons_of_mem b ha)]
    rfl

end Prismalama.Lib
