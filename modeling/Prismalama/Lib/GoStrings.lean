import Prismalama.Lib.Utf8

/-!
# The string functions of the Go library

`strings.Index`, `strings.ReplaceAll` and `strconv.ParseUint` on strings of
bytes. An occurrence of an encoded rune in a valid string is that rune, so
replacing one rune by another replaces it in the list of runes.
-/

namespace Prismalama.Lib

/-- A string literal. -/
def lit (s : String) : GoString := s.toUTF8.data.toList

/-! ## Hexadecimal -/

/-- A digit of `%x`. -/
def hexChar (n : UInt8) : UInt8 := if n < 10 then 0x30 + n else 0x57 + n

def hex (bytes : List UInt8) : GoString :=
  bytes.flatMap fun b => [hexChar (b / 16), hexChar (b % 16)]

/-! ## Search -/

/-- `strings.Index`; `none` for -1. -/
def index : GoString → GoString → Option Nat
  | [], sep => if sep.isPrefixOf [] then some 0 else none
  | b :: s, sep => if sep.isPrefixOf (b :: s) then some 0 else (index s sep).map (· + 1)

/-- `strings.Contains` -/
def contains (s sep : GoString) : Bool := (index s sep).isSome

/-- The string up to an occurrence, the occurrence, and the rest. -/
theorem eq_append_of_index {s sep : GoString} {i : Nat} (h : index s sep = some i) :
    s = s.take i ++ sep ++ s.drop (i + sep.length) := by
  induction s generalizing i with
  | nil =>
    unfold index at h
    split at h
    · rename_i hpre
      obtain ⟨t, ht⟩ := List.isPrefixOf_iff_prefix.mp hpre
      obtain ⟨rfl, rfl⟩ := List.append_eq_nil_iff.mp ht
      simp
    · cases h
  | cons b s ih =>
    unfold index at h
    split at h
    · rename_i hpre
      cases h
      obtain ⟨t, ht⟩ := List.isPrefixOf_iff_prefix.mp hpre
      rw [← ht]
      simp
    · obtain ⟨j, hj, rfl⟩ := Option.map_eq_some_iff.mp h
      have hs := ih hj
      have hadd : j + 1 + sep.length = (j + sep.length) + 1 := by omega
      rw [hadd, List.take_succ_cons, List.drop_succ_cons, List.cons_append, List.cons_append, ← hs]

theorem index_le {s sep : GoString} {i : Nat} (h : index s sep = some i) :
    i + sep.length ≤ s.length := by
  induction s generalizing i with
  | nil =>
    unfold index at h
    split at h
    · rename_i hpre
      cases h
      rw [List.prefix_nil.mp (List.isPrefixOf_iff_prefix.mp hpre)]
      exact le_refl 0
    · cases h
  | cons b s ih =>
    unfold index at h
    split at h
    · rename_i hpre
      cases h
      rw [Nat.zero_add]
      exact (List.isPrefixOf_iff_prefix.mp hpre).length_le
    · obtain ⟨j, hj, rfl⟩ := Option.map_eq_some_iff.mp h
      have hle := ih hj
      rw [List.length_cons]
      omega

/-! ## Replacement -/

/-- Replace after `skip` bytes that belong to the occurrence before. -/
def replaceFrom (old new : GoString) : Nat → GoString → GoString
  | _, [] => []
  | skip + 1, _ :: s => replaceFrom old new skip s
  | 0, b :: s =>
    if old.isPrefixOf (b :: s) then new ++ replaceFrom old new (old.length - 1) s
    else b :: replaceFrom old new 0 s

/-- `strings.ReplaceAll` for a non-empty `old`. -/
def replaceAll (s old new : GoString) : GoString := replaceFrom old new 0 s

theorem replaceFrom_append (old new : GoString) :
    ∀ s t : GoString, replaceFrom old new s.length (s ++ t) = replaceFrom old new 0 t
  | [], _ => rfl
  | _ :: s, t => replaceFrom_append old new s t

theorem replaceAll_of_not_infix {s old : GoString} (new : GoString) (h : ¬old <:+: s) :
    replaceAll s old new = s := by
  induction s with
  | nil => rfl
  | cons b s ih =>
    rw [List.infix_cons_iff, not_or] at h
    have hpre : ¬old.isPrefixOf (b :: s) = true := fun hp => h.1 (List.isPrefixOf_iff_prefix.mp hp)
    show replaceFrom old new 0 (b :: s) = b :: s
    rw [replaceFrom, if_neg hpre]
    exact congrArg (b :: ·) (ih h.2)

theorem replaceAll_old {old t : GoString} (new : GoString) (hne : old ≠ []) :
    replaceAll (old ++ t) old new = new ++ replaceAll t old new := by
  cases old with
  | nil => exact absurd rfl hne
  | cons b bs =>
    have hpre : (b :: bs).isPrefixOf (b :: (bs ++ t)) = true :=
      List.isPrefixOf_iff_prefix.mpr (List.prefix_append (b :: bs) t)
    show replaceFrom (b :: bs) new 0 (b :: (bs ++ t)) = new ++ replaceFrom (b :: bs) new 0 t
    rw [replaceFrom, if_pos hpre]
    show new ++ replaceFrom (b :: bs) new bs.length (bs ++ t) = _
    rw [replaceFrom_append]

/-- Nothing is replaced in bytes at which `old` does not occur. -/
theorem replaceAll_append {old s t : GoString} (new : GoString)
    (h : ∀ u v, s = u ++ v → v ≠ [] → ¬old <+: v ++ t) :
    replaceAll (s ++ t) old new = s ++ replaceAll t old new := by
  induction s with
  | nil => rfl
  | cons b s ih =>
    have hpre : ¬old.isPrefixOf (b :: (s ++ t)) = true := fun hp =>
      h [] (b :: s) rfl (List.cons_ne_nil b s) (List.isPrefixOf_iff_prefix.mp hp)
    show replaceFrom old new 0 (b :: (s ++ t)) = b :: (s ++ replaceFrom old new 0 t)
    rw [replaceFrom, if_neg hpre]
    exact congrArg (b :: ·) (ih fun u v hs hv => h (b :: u) v (by rw [hs]; rfl) hv)

/-- Replace a rune by another. -/
theorem replaceAll_rune (c d : Char) (rs : List Char) :
    replaceAll (encodeRunes rs) (encodeRunes [c]) (encodeRunes [d]) =
      encodeRunes (rs.map fun r => if r = c then d else r) := by
  have hc : encodeRunes [c] = String.utf8EncodeChar c := by simp
  induction rs with
  | nil => rfl
  | cons r rs ih =>
    rw [encodeRunes_cons r, List.map_cons, encodeRunes_cons (if r = c then d else r), ← ih]
    by_cases hr : r = c
    · subst hr
      rw [if_pos rfl, ← hc, replaceAll_old _ (by simp)]
      simp
    · rw [if_neg hr]
      refine replaceAll_append _ fun u v hs hv hpre => ?_
      rw [hc] at hpre
      obtain ⟨t, ht⟩ := hpre
      cases u with
      | nil =>
        -- the rune at the front is `r`
        rw [List.nil_append] at hs
        rw [← hs] at ht
        have hdec := congrArg decodeRune ht
        rw [decodeRune_encode_append, decodeRune_encode_append] at hdec
        exact hr (Option.some.inj hdec).symm
      | cons a u =>
        -- no occurrence starts inside a rune
        obtain ⟨b, bs, hb, hfirst⟩ := exists_firstByte (c := c)
        rw [hb] at ht
        cases v with
        | nil => exact hv rfl
        | cons b' v =>
          rw [List.cons_append, List.cons_append, List.cons.injEq] at ht
          obtain ⟨rfl, -⟩ := ht
          exact not_isUTF8FirstByte_of_lt hs (List.cons_ne_nil a u) hfirst

/-! ## Numbers -/

inductive NumError
  | invalidSyntax
  | valueOutOfRange
deriving DecidableEq

/-- A letter in lower case. -/
def lower (c : UInt8) : UInt8 := c ||| 0x20

def digitValue (c : UInt8) : Option Nat :=
  if 0x30 ≤ c ∧ c ≤ 0x39 then some (c.toNat - 0x30)
  else if 0x61 ≤ lower c ∧ lower c ≤ 0x7A then some ((lower c).toNat - 0x61 + 10)
  else none

/-- The loop over the digits. Underscores count only with `base0`. -/
def parseDigits (base : Nat) (base0 : Bool) (maxVal : Nat) : Nat → GoString → Except NumError Nat
  | n, [] => .ok n
  | n, c :: s =>
    if c = 0x5F ∧ base0 = true then parseDigits base base0 maxVal n s
    else
      match digitValue c with
      | none => .error .invalidSyntax
      | some d =>
        if base ≤ d then .error .invalidSyntax
        else if maxVal < n * base + d then .error .valueOutOfRange
        else parseDigits base base0 maxVal (n * base + d) s

/-- The base that the prefix of a literal names, and the digits. -/
def splitBase : GoString → Nat × GoString
  | 0x30 :: p :: d :: s =>
    if lower p = 0x62 then (2, d :: s)
    else if lower p = 0x6F then (8, d :: s)
    else if lower p = 0x78 then (16, d :: s)
    else (8, p :: d :: s)
  | 0x30 :: s => (8, s)
  | s => (10, s)

/-- The loop of `underscoreOK`; `saw` is the class of the character before. -/
def underscoresFrom (hex : Bool) : UInt8 → GoString → Bool
  | saw, [] => saw != 0x5F
  | saw, c :: s =>
    if 0x30 ≤ c ∧ c ≤ 0x39 ∨ hex = true ∧ 0x61 ≤ lower c ∧ lower c ≤ 0x66 then
      underscoresFrom hex 0x30 s
    else if c = 0x5F then saw == 0x30 && underscoresFrom hex 0x5F s
    else saw != 0x5F && underscoresFrom hex 0x21 s

/-- `underscoreOK`, for a literal without a sign. -/
def underscoreOK (s : GoString) : Bool :=
  match s with
  | 0x30 :: p :: d =>
    if lower p = 0x62 ∨ lower p = 0x6F ∨ lower p = 0x78 then
      underscoresFrom (lower p == 0x78) 0x30 d
    else underscoresFrom false 0x5E s
  | _ => underscoresFrom false 0x5E s

/-- `strconv.ParseUint`, for a base of 0 or in 2..36. -/
def parseUint (s : GoString) (base bitSize : Nat) : Except NumError Nat :=
  if s = [] then .error .invalidSyntax
  else
    let split := if base = 0 then splitBase s else (base, s)
    match parseDigits split.1 (base == 0) (2 ^ bitSize - 1) 0 split.2 with
    | .error e => .error e
    | .ok n =>
      if base = 0 ∧ split.2.contains 0x5F = true ∧ underscoreOK s = false then
        .error .invalidSyntax
      else .ok n

/-- A digit of `%X`. -/
def hexDigit (n : Nat) : UInt8 := UInt8.ofNat (if n < 10 then 0x30 + n else 0x37 + n)

/-- `fmt.Sprintf("<0x%02X>", b)` -/
def byteToken (b : UInt8) : GoString :=
  [0x3C, 0x30, 0x78, hexDigit (b.toNat / 16), hexDigit (b.toNat % 16), 0x3E]

/-- `strconv.Itoa` of a number that is not negative. -/
def itoa (n : Nat) : GoString := (Nat.toDigits 10 n).map fun c => UInt8.ofNat c.toNat

/-- `%d` -/
def formatInt (n : Int) : GoString := if n < 0 then 0x2D :: itoa n.natAbs else itoa n.natAbs

theorem itoa_digits (n : Nat) : ∀ c ∈ itoa n, 48 ≤ c.toNat ∧ c.toNat ≤ 57 := by
  intro c hc
  obtain ⟨d, hd, rfl⟩ := List.mem_map.mp hc
  have hdigit := Nat.isDigit_of_mem_toDigits (by decide) (by decide) hd
  simp only [Char.isDigit, Bool.and_eq_true, decide_eq_true_eq] at hdigit
  have hlo : 48 ≤ d.toNat := hdigit.1
  have hhi : d.toNat ≤ 57 := hdigit.2
  rw [UInt8.toNat_ofNat']
  omega

end Prismalama.Lib
