import Prismalama.Lib.Utf8Prefix

/-!
# Text that arrives in pieces (`x/mlxrunner/utf8_buffer.go`)

The bytes of the tokens go into a buffer, from which the text is taken as far as it is
complete. Bytes that belong to no encoding are taken one by one; the beginning of an
encoding waits for the rest of it.
-/

namespace Prismalama.Mlxrunner

open Prismalama.Lib

/-- The loop of `validUTF8PrefixLen`, after `skip` bytes that belong to the rune before. -/
def validUTF8PrefixLenFrom : Nat → GoString → Nat
  | _, [] => 0
  | skip + 1, _ :: s => validUTF8PrefixLenFrom skip s + 1
  | 0, b :: s =>
    match decodeRune (b :: s) with
    | some r => validUTF8PrefixLenFrom (r.utf8Size - 1) s + 1
    | none => if fullRune (b :: s) = false then 0 else validUTF8PrefixLenFrom 0 s + 1

def validUTF8PrefixLen (data : GoString) : Nat := validUTF8PrefixLenFrom 0 data

/-- `flushValidUTF8Prefix`: the text, and what stays in the buffer. -/
def flushValidUTF8Prefix (b : GoString) : GoString × GoString :=
  if b = [] then ([], b)
  else
    let n := validUTF8PrefixLen b
    if n = 0 then ([], b) else (b.take n, b.drop n)

/-- The chunks are written one after the other, with a flush after each: the flushed strings,
and the buffer at the end. -/
def flushChunks : GoString → List GoString → List GoString × GoString
  | b, [] => ([], b)
  | b, chunk :: chunks =>
    let out := flushValidUTF8Prefix (b ++ chunk)
    let rest := flushChunks out.2 chunks
    (out.1 :: rest.1, rest.2)

/-! ## The scan -/

theorem validUTF8PrefixLenFrom_append (s t : GoString) :
    validUTF8PrefixLenFrom s.length (s ++ t) = s.length + validUTF8PrefixLen t := by
  induction s with
  | nil => simp [validUTF8PrefixLen]
  | cons b s ih =>
    show validUTF8PrefixLenFrom s.length (s ++ t) + 1 = s.length + 1 + validUTF8PrefixLen t
    rw [ih]
    omega

theorem validUTF8PrefixLen_rune (c : Char) (s : GoString) :
    validUTF8PrefixLen (String.utf8EncodeChar c ++ s) =
      (String.utf8EncodeChar c).length + validUTF8PrefixLen s := by
  have hdec := decodeRune_encode_append c s
  have hlen := String.length_utf8EncodeChar c
  cases henc : String.utf8EncodeChar c with
  | nil => exact absurd henc (utf8EncodeChar_ne_nil c)
  | cons b bs =>
    rw [henc] at hdec hlen
    rw [List.length_cons] at hlen
    have hskip : c.utf8Size - 1 = bs.length := by omega
    rw [List.cons_append] at hdec ⊢
    unfold validUTF8PrefixLen
    rw [validUTF8PrefixLenFrom, hdec]
    show validUTF8PrefixLenFrom (c.utf8Size - 1) (bs ++ s) + 1 = _
    rw [hskip, validUTF8PrefixLenFrom_append, List.length_cons]
    unfold validUTF8PrefixLen
    omega

theorem validUTF8PrefixLen_stop {s : GoString} (hdec : decodeRune s = none)
    (hfull : fullRune s = false) : validUTF8PrefixLen s = 0 := by
  cases s with
  | nil => rfl
  | cons b s => simp [validUTF8PrefixLen, validUTF8PrefixLenFrom, hdec, hfull]

theorem validUTF8PrefixLen_invalid {b : UInt8} {s : GoString} (hdec : decodeRune (b :: s) = none)
    (hfull : fullRune (b :: s) = true) :
    validUTF8PrefixLen (b :: s) = 1 + validUTF8PrefixLen s := by
  simp [validUTF8PrefixLen, validUTF8PrefixLenFrom, hdec, hfull, Nat.add_comm]

/-- Some bytes start with a rune, or with a byte that belongs to none, or are the beginning of
one. -/
theorem scan_induction {P : GoString → Prop} (nil : P [])
    (rune : ∀ c s, P s → P (String.utf8EncodeChar c ++ s))
    (stop : ∀ s, decodeRune s = none → fullRune s = false → P s)
    (invalid : ∀ b s, decodeRune (b :: s) = none → fullRune (b :: s) = true → P s → P (b :: s))
    (s : GoString) : P s := by
  induction hn : s.length using Nat.strong_induction_on generalizing s with
  | _ n ih =>
    cases s with
    | nil => exact nil
    | cons b s =>
      cases hdec : decodeRune (b :: s) with
      | some c =>
        obtain ⟨t, ht⟩ := decodeRune_eq_some.mp hdec
        have hlen := congrArg List.length ht
        have hpos := List.length_pos_iff.mpr (utf8EncodeChar_ne_nil c)
        rw [List.length_append] at hlen
        rw [ht]
        exact rune c t (ih t.length (by omega) t rfl)
      | none =>
        cases hfull : fullRune (b :: s) with
        | false => exact stop _ hdec hfull
        | true =>
          rw [List.length_cons] at hn
          exact invalid b s hdec hfull (ih s.length (by omega) s rfl)

theorem validUTF8PrefixLen_le (s : GoString) : validUTF8PrefixLen s ≤ s.length := by
  induction s using scan_induction with
  | nil => exact le_refl 0
  | rune c s ih =>
    rw [validUTF8PrefixLen_rune, List.length_append]
    omega
  | stop s hdec hfull =>
    rw [validUTF8PrefixLen_stop hdec hfull]
    exact Nat.zero_le _
  | invalid b s hdec hfull ih =>
    rw [validUTF8PrefixLen_invalid hdec hfull, List.length_cons]
    omega

/-- What was taken is taken again when more follows, and the scan goes on behind it. -/
theorem validUTF8PrefixLen_append (s t : GoString) :
    validUTF8PrefixLen (s ++ t) =
      validUTF8PrefixLen s + validUTF8PrefixLen (s.drop (validUTF8PrefixLen s) ++ t) := by
  induction s using scan_induction with
  | nil => exact (Nat.zero_add _).symm
  | rune c s ih =>
    rw [List.append_assoc, validUTF8PrefixLen_rune, validUTF8PrefixLen_rune, ih,
      ← List.drop_drop, List.drop_left]
    omega
  | stop s hdec hfull =>
    rw [validUTF8PrefixLen_stop hdec hfull, Nat.zero_add, List.drop_zero]
  | invalid b s hdec hfull ih =>
    have hdec' := decodeRune_append_none hdec hfull t
    have hfull' := fullRune_append hfull t
    rw [List.cons_append] at hdec' hfull' ⊢
    rw [validUTF8PrefixLen_invalid hdec' hfull', validUTF8PrefixLen_invalid hdec hfull, ih,
      Nat.add_comm 1 (validUTF8PrefixLen s), List.drop_succ_cons]
    omega

/-- Of runes and the beginning of one more, the runes are taken. -/
theorem validUTF8PrefixLen_runes (rs : List Char) {p : GoString} (hp : Beginning p) :
    validUTF8PrefixLen (encodeRunes rs ++ p) = (encodeRunes rs).length := by
  induction rs with
  | nil => exact validUTF8PrefixLen_stop hp.decodeRune hp.fullRune
  | cons r rs ih =>
    rw [encodeRunes_cons, List.append_assoc, validUTF8PrefixLen_rune, ih, List.length_append]

/-! ## The buffer -/

theorem flushValidUTF8Prefix_eq (b : GoString) :
    flushValidUTF8Prefix b = (b.take (validUTF8PrefixLen b), b.drop (validUTF8PrefixLen b)) := by
  unfold flushValidUTF8Prefix
  split
  · rename_i hb
    rw [hb]
    rfl
  · simp only
    split
    · rename_i hn
      rw [hn, List.take_zero, List.drop_zero]
    · rfl

/-- The flushed text is what the scan takes from all bytes. -/
theorem flushChunks_eq (b : GoString) (chunks : List GoString)
    (hb : validUTF8PrefixLen b = 0) :
    (flushChunks b chunks).1.flatten =
        (b ++ chunks.flatten).take (validUTF8PrefixLen (b ++ chunks.flatten)) ∧
      (flushChunks b chunks).2 =
        (b ++ chunks.flatten).drop (validUTF8PrefixLen (b ++ chunks.flatten)) := by
  induction chunks generalizing b with
  | nil => simp [flushChunks, hb]
  | cons chunk chunks ih =>
    have hsplit := List.take_append_drop (validUTF8PrefixLen (b ++ chunk)) (b ++ chunk)
    have hall := validUTF8PrefixLen_append (b ++ chunk) chunks.flatten
    have hrest : validUTF8PrefixLen ((b ++ chunk).drop (validUTF8PrefixLen (b ++ chunk))) = 0 := by
      have hself := validUTF8PrefixLen_append (b ++ chunk) []
      rw [List.append_nil, List.append_nil] at hself
      omega
    obtain ⟨htext, hbuffer⟩ := ih _ hrest
    have hlen : ((b ++ chunk).take (validUTF8PrefixLen (b ++ chunk))).length =
        validUTF8PrefixLen (b ++ chunk) :=
      List.length_take_of_le (validUTF8PrefixLen_le _)
    rw [flushChunks, flushValidUTF8Prefix_eq]
    simp only [List.flatten_cons, ← List.append_assoc]
    rw [htext, hbuffer, hall]
    generalize validUTF8PrefixLen (b ++ chunk) = n at *
    generalize (b ++ chunk).drop n = rest at *
    generalize (b ++ chunk).take n = text at *
    rw [← hsplit, List.append_assoc, ← hlen, List.take_length_add_append,
      List.drop_length_add_append]
    exact ⟨rfl, rfl⟩

/-- Of a stream that is valid so far, valid strings are flushed, and the beginning of one
encoding stays. -/
theorem flushChunks_valid (chunks : List GoString) {b later : GoString} (hb : Beginning b)
    (h : ValidUtf8 (b ++ chunks.flatten ++ later)) :
    (∀ text ∈ (flushChunks b chunks).1, ValidUtf8 text) ∧ Beginning (flushChunks b chunks).2 := by
  induction chunks generalizing b with
  | nil => exact ⟨fun text ht => absurd ht List.not_mem_nil, hb⟩
  | cons chunk chunks ih =>
    obtain ⟨cs, hcs⟩ := h
    rw [List.flatten_cons, ← List.append_assoc b, List.append_assoc] at hcs
    -- the runes that are complete are flushed
    obtain ⟨rs, p, hsofar, hp⟩ := exists_runes_of_beginning hcs
    rw [hsofar, List.append_assoc] at hcs
    obtain ⟨cs', -, hrest⟩ := encodeRunes_append_eq hcs
    obtain ⟨htexts, hbuffer⟩ := ih hp ⟨cs', by rw [List.append_assoc, hrest]⟩
    rw [flushChunks, flushValidUTF8Prefix_eq, hsofar, validUTF8PrefixLen_runes rs hp,
      List.take_left, List.drop_left]
    refine ⟨fun text ht => ?_, hbuffer⟩
    rcases List.mem_cons.mp ht with rfl | ht
    · exact validUtf8_encodeRunes rs
    · exact htexts text ht

/-- Nothing is lost; from a stream that is valid so far only valid text is flushed, and less than
one encoded rune stays; and what was flushed up to now does not depend on the chunks. -/
theorem flushChunks_streams (chunks : List GoString) :
    (flushChunks [] chunks).1.flatten ++ (flushChunks [] chunks).2 = chunks.flatten ∧
      (∀ later, ValidUtf8 (chunks.flatten ++ later) →
        (∀ text ∈ (flushChunks [] chunks).1, ValidUtf8 text) ∧
          (flushChunks [] chunks).2.length < 4 ∧ Beginning (flushChunks [] chunks).2) ∧
      ∀ chunks' : List GoString, chunks'.flatten = chunks.flatten →
        (flushChunks [] chunks').1.flatten = (flushChunks [] chunks).1.flatten := by
  obtain ⟨htext, hbuffer⟩ := flushChunks_eq [] chunks rfl
  refine ⟨?_, fun later hvalid => ?_, fun chunks' hsame => ?_⟩
  · rw [htext, hbuffer, List.nil_append, List.take_append_drop]
  · obtain ⟨htexts, hbeginning⟩ := flushChunks_valid chunks beginning_nil hvalid
    exact ⟨htexts, length_lt_four hbeginning.fullRune, hbeginning⟩
  · rw [(flushChunks_eq [] chunks' rfl).1, htext, hsame]

end Prismalama.Mlxrunner
