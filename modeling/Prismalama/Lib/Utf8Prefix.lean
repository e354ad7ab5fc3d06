import Prismalama.Lib.Utf8

/-!
# Incomplete encodings

`utf8.DecodeRune` cannot tell a byte that belongs to no encoding from an encoding of which
the end is still to come; `utf8.FullRune` can. What it says of some bytes does not change
when more bytes follow, once it has called them full.
-/

namespace Prismalama.Lib

/-- The length of an encoding with this first byte; one for a byte that starts none. -/
def runeSize (b : UInt8) : Nat :=
  if b < 0xC2 then 1 else if b < 0xE0 then 2 else if b < 0xF0 then 3 else if b < 0xF5 then 4 else 1

/-- The least second byte of an encoding with this first byte. -/
def acceptLo (b : UInt8) : UInt8 := if b = 0xE0 then 0xA0 else if b = 0xF0 then 0x90 else 0x80

/-- The greatest one. -/
def acceptHi (b : UInt8) : UInt8 := if b = 0xED then 0x9F else if b = 0xF4 then 0x8F else 0xBF

/-- `utf8.FullRune` -/
def fullRune : GoString → Bool
  | [] => false
  | b :: s =>
    decide (runeSize b ≤ s.length + 1) ||
      (s[0]?.any fun c => decide (c < acceptLo b ∨ acceptHi b < c)) ||
      (s[1]?.any fun d => decide (d < 0x80 ∨ 0xBF < d))

/-- A full rune stays one. -/
theorem fullRune_append {s : GoString} (h : fullRune s = true) (t : GoString) :
    fullRune (s ++ t) = true := by
  cases s with
  | nil => cases h
  | cons b s =>
    simp only [fullRune, Bool.or_eq_true, decide_eq_true_eq, Option.any_eq_true] at h
    simp only [List.cons_append, fullRune, Bool.or_eq_true, decide_eq_true_eq, Option.any_eq_true]
    rcases h with (hsize | ⟨c, hc, hout⟩) | ⟨d, hd, hout⟩
    · refine .inl (.inl ?_)
      rw [List.length_append]
      omega
    · refine .inl (.inr ⟨c, ?_, hout⟩)
      exact List.getElem?_append_left (List.getElem?_eq_some_iff.mp hc).1 ▸ hc
    · refine .inr ⟨d, ?_, hout⟩
      exact List.getElem?_append_left (List.getElem?_eq_some_iff.mp hd).1 ▸ hd

theorem runeSize_le (b : UInt8) : runeSize b ≤ 4 := by
  unfold runeSize
  split_ifs <;> decide

/-- Bytes that are not full are fewer than four. -/
theorem length_lt_four {s : GoString} (h : fullRune s = false) : s.length < 4 := by
  cases s with
  | nil => decide
  | cons b s =>
    simp only [fullRune, Bool.or_eq_false_iff, decide_eq_false_iff_not] at h
    have hsize := runeSize_le b
    rw [List.length_cons]
    omega

example : fullRune [0xE2, 0x82] = false := by decide

/-! ## The tables on the numbers of the bytes -/

theorem ofNat_lt_ofNat {m k : Nat} (hm : m < 256) (hk : k < 256) :
    UInt8.ofNat m < UInt8.ofNat k ↔ m < k := by
  rw [UInt8.lt_iff_toNat_lt, UInt8.toNat_ofNat', UInt8.toNat_ofNat', Nat.mod_eq_of_lt hm,
    Nat.mod_eq_of_lt hk]

theorem tables_ofNat : ∀ m < 256,
    (runeSize (UInt8.ofNat m) = if m < 0xC2 then 1 else if m < 0xE0 then 2 else
      if m < 0xF0 then 3 else if m < 0xF5 then 4 else 1) ∧
    acceptLo (UInt8.ofNat m) =
      UInt8.ofNat (if m = 0xE0 then 0xA0 else if m = 0xF0 then 0x90 else 0x80) ∧
    acceptHi (UInt8.ofNat m) =
      UInt8.ofNat (if m = 0xED then 0x9F else if m = 0xF4 then 0x8F else 0xBF) := by decide +kernel

theorem runeSize_ofNat (m : Nat) (hm : m < 256) : runeSize (UInt8.ofNat m) =
    if m < 0xC2 then 1 else if m < 0xE0 then 2 else if m < 0xF0 then 3 else
      if m < 0xF5 then 4 else 1 :=
  (tables_ofNat m hm).1

theorem acceptLo_ofNat (m : Nat) (hm : m < 256) : acceptLo (UInt8.ofNat m) =
    UInt8.ofNat (if m = 0xE0 then 0xA0 else if m = 0xF0 then 0x90 else 0x80) :=
  (tables_ofNat m hm).2.1

theorem acceptHi_ofNat (m : Nat) (hm : m < 256) : acceptHi (UInt8.ofNat m) =
    UInt8.ofNat (if m = 0xED then 0x9F else if m = 0xF4 then 0x8F else 0xBF) :=
  (tables_ofNat m hm).2.2

example : acceptHi (UInt8.ofNat 0xED) = 0x9F := by decide

theorem second_ofNat {m k : Nat} (hm : m < 256) (hk : k < 256)
    (hout : UInt8.ofNat k < acceptLo (UInt8.ofNat m) ∨ acceptHi (UInt8.ofNat m) < UInt8.ofNat k) :
    k < (if m = 0xE0 then 0xA0 else if m = 0xF0 then 0x90 else 0x80) ∨
      (if m = 0xED then 0x9F else if m = 0xF4 then 0x8F else 0xBF) < k := by
  rw [acceptLo_ofNat m hm, acceptHi_ofNat m hm] at hout
  exact hout.imp (ofNat_lt_ofNat hk (by split_ifs <;> decide)).mp
    (ofNat_lt_ofNat (by split_ifs <;> decide) hk).mp

theorem second_ok {m k : Nat} (hm : m < 256) (hk : 0x80 ≤ k ∧ k ≤ 0xBF) (hE0 : m = 0xE0 → 0xA0 ≤ k)
    (hF0 : m = 0xF0 → 0x90 ≤ k) (hED : m = 0xED → k ≤ 0x9F) (hF4 : m = 0xF4 → k ≤ 0x8F) :
    ¬(UInt8.ofNat k < acceptLo (UInt8.ofNat m) ∨ acceptHi (UInt8.ofNat m) < UInt8.ofNat k) := by
  intro hout
  have := second_ofNat hm (by omega) hout
  split_ifs at this <;> omega

theorem tail_ofNat {k : Nat} (hk : k < 256) (hout : UInt8.ofNat k < 0x80 ∨ 0xBF < UInt8.ofNat k) :
    k < 0x80 ∨ 0xBF < k :=
  hout.imp (ofNat_lt_ofNat hk (by decide)).mp (ofNat_lt_ofNat (by decide) hk).mp

theorem tail_ok {k : Nat} (hk : 0x80 ≤ k ∧ k ≤ 0xBF) :
    ¬(UInt8.ofNat k < 0x80 ∨ 0xBF < UInt8.ofNat k) := by
  intro hout
  have := tail_ofNat (by omega) hout
  omega

/-! ## Encodings and their beginnings -/

/-- The bytes of an encoding: a first byte that tells their number, a second one in the range
that the first one tells, and others. -/
theorem utf8EncodeChar_bytes (c : Char) : ∃ b s, String.utf8EncodeChar c = b :: s ∧
    runeSize b = s.length + 1 ∧ (∀ x, s[0]? = some x → ¬(x < acceptLo b ∨ acceptHi b < x)) ∧
    ∀ x, s[1]? = some x → ¬(x < 0x80 ∨ 0xBF < x) := by
  obtain ⟨v, hvalid⟩ := c
  have hv : v.toNat < 0xD800 ∨ 0xDFFF < v.toNat ∧ v.toNat < 0x110000 := hvalid
  unfold String.utf8EncodeChar
  simp only
  generalize v.toNat = n at hv ⊢
  clear hvalid
  split_ifs with h₁ h₂ h₃
  · refine ⟨_, _, rfl, ?_, by simp, by simp⟩
    rw [runeSize_ofNat n (by omega), if_pos (by omega)]
    rfl
  · refine ⟨_, _, rfl, ?_, ?_, by simp⟩
    · rw [runeSize_ofNat _ (by omega), if_neg (by omega), if_pos (by omega)]
      rfl
    · rintro x ⟨⟩
      exact second_ok (by omega) (by omega) (by omega) (by omega) (by omega) (by omega)
  · refine ⟨_, _, rfl, ?_, ?_, ?_⟩
    · rw [runeSize_ofNat _ (by omega), if_neg (by omega), if_neg (by omega), if_pos (by omega)]
      rfl
    · rintro x ⟨⟩
      exact second_ok (by omega) (by omega) (by omega) (by omega) (by omega) (by omega)
    · rintro x ⟨⟩
      exact tail_ok (by omega)
  · refine ⟨_, _, rfl, ?_, ?_, ?_⟩
    · rw [runeSize_ofNat _ (by omega), if_neg (by omega), if_neg (by omega), if_neg (by omega),
        if_pos (by omega)]
      rfl
    · rintro x ⟨⟩
      exact second_ok (by omega) (by omega) (by omega) (by omega) (by omega) (by omega)
    · rintro x ⟨⟩
      exact tail_ok (by omega)

/-- The beginning of an encoding is not full. -/
theorem fullRune_of_beginning {c : Char} {p t : GoString} (h : String.utf8EncodeChar c = p ++ t)
    (ht : t ≠ []) : fullRune p = false := by
  obtain ⟨b, s, hbytes, hsize, hsecond, hother⟩ := utf8EncodeChar_bytes c
  cases p with
  | nil => rfl
  | cons b' p =>
    rw [hbytes, List.cons_append, List.cons.injEq] at h
    obtain ⟨rfl, rfl⟩ := h
    have hpos := List.length_pos_iff.mpr ht
    rw [List.length_append] at hsize
    have hat : ∀ {i : Nat} {x : UInt8}, p[i]? = some x → (p ++ t)[i]? = some x := by
      intro i x hx
      rw [List.getElem?_append_left (List.getElem?_eq_some_iff.mp hx).1, hx]
    simp only [fullRune, Bool.or_eq_false_iff, decide_eq_false_iff_not, Option.any_eq_false]
    exact ⟨⟨by omega, fun x hx => hsecond x (hat hx)⟩, fun x hx => hother x (hat hx)⟩

/-- A rune is decoded where its encoding starts. -/
theorem decodeRune_eq_some {s : GoString} {c : Char} :
    decodeRune s = some c ↔ ∃ t, s = String.utf8EncodeChar c ++ t := by
  constructor
  · intro h
    obtain ⟨t, ht⟩ := ByteArray.exists_of_utf8DecodeChar?_eq_some h
    refine ⟨t.data.toList, ?_⟩
    have hlist := congrArg (fun b : ByteArray => b.data.toList) ht
    simpa using hlist
  · rintro ⟨t, rfl⟩
    exact decodeRune_encode_append c t

/-- A full rune that is no encoding is none whatever follows. -/
theorem decodeRune_append_none {s : GoString} (h : decodeRune s = none) (hfull : fullRune s = true)
    (t : GoString) : decodeRune (s ++ t) = none := by
  cases hdec : decodeRune (s ++ t) with
  | none => rfl
  | some c =>
    obtain ⟨u, hu⟩ := decodeRune_eq_some.mp hdec
    rcases List.append_eq_append_iff.mp hu with ⟨v, hv, -⟩ | ⟨v, hv, -⟩
    · cases v with
      | nil =>
        rw [List.append_nil] at hv
        rw [decodeRune_eq_some.mpr ⟨[], by rw [List.append_nil, hv]⟩] at h
        cases h
      | cons x v =>
        rw [fullRune_of_beginning hv (List.cons_ne_nil x v)] at hfull
        cases hfull
    · rw [decodeRune_eq_some.mpr ⟨v, hv⟩] at h
      cases h

/-- The beginning of an encoding is no rune. -/
theorem decodeRune_of_beginning {c : Char} {p t : GoString}
    (h : String.utf8EncodeChar c = p ++ t) (ht : t ≠ []) : decodeRune p = none := by
  cases hdec : decodeRune p with
  | none => rfl
  | some d =>
    -- then the two runes are the same, and nothing of the encoding is missing
    obtain ⟨u, rfl⟩ := decodeRune_eq_some.mp hdec
    have hc := decodeRune_encode_append c []
    rw [List.append_nil, h, List.append_assoc, decodeRune_encode_append] at hc
    obtain rfl := Option.some.inj hc
    have hlen := congrArg List.length h
    have hpos := List.length_pos_iff.mpr ht
    simp only [List.length_append] at hlen
    omega

/-- The beginning of an encoding, but not all of it. -/
def Beginning (p : GoString) : Prop := ∃ c u, u ≠ [] ∧ String.utf8EncodeChar c = p ++ u

theorem beginning_nil : Beginning [] := ⟨'a', _, utf8EncodeChar_ne_nil 'a', rfl⟩

theorem Beginning.fullRune {p : GoString} (h : Beginning p) : fullRune p = false := by
  obtain ⟨c, u, hu, hc⟩ := h
  exact fullRune_of_beginning hc hu

theorem Beginning.decodeRune {p : GoString} (h : Beginning p) : decodeRune p = none := by
  obtain ⟨c, u, hu, hc⟩ := h
  exact decodeRune_of_beginning hc hu

/-- The bytes of some runes and the beginning of one more. -/
theorem exists_runes_of_beginning {cs : List Char} {s t : GoString}
    (h : s ++ t = encodeRunes cs) : ∃ rs p, s = encodeRunes rs ++ p ∧ Beginning p := by
  induction cs generalizing s with
  | nil =>
    obtain ⟨rfl, -⟩ := List.append_eq_nil_iff.mp h
    exact ⟨[], [], rfl, beginning_nil⟩
  | cons c cs ih =>
    rw [encodeRunes_cons] at h
    rcases List.append_eq_append_iff.mp h with ⟨u, hu, -⟩ | ⟨u, hu, ht⟩
    · cases u with
      | nil =>
        rw [List.append_nil] at hu
        exact ⟨[c], [], by simp [hu], beginning_nil⟩
      | cons x u => exact ⟨[], s, rfl, c, x :: u, List.cons_ne_nil x u, hu⟩
    · obtain ⟨rs, p, rfl, hp⟩ := ih ht.symm
      exact ⟨c :: rs, p, by rw [hu, encodeRunes_cons, List.append_assoc], hp⟩

/-- A beginning of a valid string: a valid string and the beginning of one more encoding. -/
theorem ValidUtf8.of_append {s t : GoString} (h : ValidUtf8 (s ++ t)) :
    ∃ v p, s = v ++ p ∧ ValidUtf8 v ∧ Beginning p := by
  obtain ⟨cs, hcs⟩ := h
  obtain ⟨rs, p, hs, hp⟩ := exists_runes_of_beginning hcs
  exact ⟨encodeRunes rs, p, hs, validUtf8_encodeRunes rs, hp⟩

/-- What follows a valid string in a valid string is valid. -/
theorem ValidUtf8.of_append_right {s t : GoString} (h : ValidUtf8 (s ++ t)) (hs : ValidUtf8 s) :
    ValidUtf8 t := by
  obtain ⟨cs, hcs⟩ := h
  obtain ⟨rs, rfl⟩ := hs
  obtain ⟨cs', -, ht⟩ := encodeRunes_append_eq hcs
  exact ⟨cs', ht⟩

theorem Beginning.of_append {p q : GoString} (h : Beginning (p ++ q)) : Beginning p := by
  obtain ⟨c, u, hu, hc⟩ := h
  rw [List.append_assoc] at hc
  exact ⟨c, q ++ u, fun hnil => hu (List.append_eq_nil_iff.mp hnil).2, hc⟩

/-- The beginning of an encoding holds no rune. -/
theorem Beginning.eq_nil_of_valid {p : GoString} (h : Beginning p) (hvalid : ValidUtf8 p) :
    p = [] := by
  obtain ⟨rs, rfl⟩ := hvalid
  cases rs with
  | nil => rfl
  | cons c rs =>
    have hnone := h.decodeRune
    rw [encodeRunes_cons, decodeRune_encode_append] at hnone
    cases hnone

/-- No valid beginning of the string is longer than the one before an incomplete encoding. -/
theorem Beginning.le_length_of_valid {v p : GoString} {b : Nat} (h : Beginning p)
    (hv : ValidUtf8 v) (hb : b ≤ (v ++ p).length) (hvalid : ValidUtf8 ((v ++ p).take b)) :
    b ≤ v.length := by
  by_contra hlt
  rw [not_le] at hlt
  rw [List.take_append, List.take_of_length_le hlt.le] at hvalid
  have hq := hvalid.of_append_right hv
  have hbegin : Beginning (p.take (b - v.length)) :=
    Beginning.of_append (q := p.drop (b - v.length)) (by rwa [List.take_append_drop])
  have hlen := congrArg List.length (hbegin.eq_nil_of_valid hq)
  rw [List.length_take, List.length_nil] at hlen
  rw [List.length_append] at hb
  omega

end Prismalama.Lib
