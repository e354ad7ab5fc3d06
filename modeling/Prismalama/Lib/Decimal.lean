import Mathlib.Tactic

/-!
# Decimal numbers

`%d` and `strconv.ParseInt` in base 10 with 64 bits, on lists of runes. What is written for a number
of 64 bits is read as that number (`parseInt_printInt`).
-/

namespace Prismalama.Lib.Decimal

/-- The numbers of `int64`. -/
def IsInt64 (n : Int) : Prop := -2 ^ 63 ≤ n ∧ n < 2 ^ 63

instance (n : Int) : Decidable (IsInt64 n) := inferInstanceAs (Decidable (_ ∧ _))

/-- `%d` -/
def printInt (n : Int) : List Char :=
  if n < 0 then '-' :: Nat.toDigits 10 n.natAbs else Nat.toDigits 10 n.natAbs

/-- The number behind a sign, if it is one of `int64`. -/
def parseDigits (negative : Bool) (digits : List Char) : Option Int :=
  if digits = [] ∨ digits.all Char.isDigit = false then none
  else
    let n : Int := Nat.ofDigitChars 10 digits 0
    let n := if negative then -n else n
    if IsInt64 n then some n else none

/-- `strconv.ParseInt(s, 10, 64)`; `none` for an error -/
def parseInt : List Char → Option Int
  | '-' :: digits => parseDigits true digits
  | '+' :: digits => parseDigits false digits
  | digits => parseDigits false digits

theorem toDigits_ne_nil (n : Nat) : Nat.toDigits 10 n ≠ [] := by
  have hpos : 0 < (Nat.toDigits 10 n).length := Nat.length_toDigits_pos
  exact List.ne_nil_of_length_pos hpos

theorem all_isDigit_toDigits (n : Nat) : (Nat.toDigits 10 n).all Char.isDigit = true :=
  List.all_eq_true.mpr fun _ hc => Nat.isDigit_of_mem_toDigits (by decide) (by decide) hc

theorem parseDigits_toDigits {negative : Bool} {n : Nat}
    (h : IsInt64 (if negative then -(n : Int) else n)) :
    parseDigits negative (Nat.toDigits 10 n) = some (if negative then -(n : Int) else n) := by
  have hdigits : ¬(Nat.toDigits 10 n = [] ∨ (Nat.toDigits 10 n).all Char.isDigit = false) := by
    rw [all_isDigit_toDigits]
    rintro (hnil | hfalse)
    · exact toDigits_ne_nil n hnil
    · cases hfalse
  rw [parseDigits, if_neg hdigits]
  simp only [Nat.ofDigitChars_toDigits (b := 10) (by decide) (by decide)]
  exact if_pos h

theorem parseInt_toDigits (n : Nat) :
    parseInt (Nat.toDigits 10 n) = parseDigits false (Nat.toDigits 10 n) := by
  cases hdigits : Nat.toDigits 10 n with
  | nil => rfl
  | cons c cs =>
    have hc : c.isDigit = true :=
      List.all_eq_true.mp (all_isDigit_toDigits n) c (hdigits ▸ List.mem_cons_self)
    rw [parseInt]
    · intro digits heq
      rw [(List.cons.inj heq).1] at hc
      cases hc
    · intro digits heq
      rw [(List.cons.inj heq).1] at hc
      cases hc

/-- What is written is read. -/
theorem parseInt_printInt {n : Int} (h : IsInt64 n) : parseInt (printInt n) = some n := by
  rw [printInt]
  split
  · next hneg =>
    have habs : -(n.natAbs : Int) = n := by omega
    have hvalue : (if true then -(n.natAbs : Int) else n.natAbs) = n := habs
    have hread := @parseDigits_toDigits true n.natAbs (hvalue.symm ▸ h)
    rw [parseInt, hread, hvalue]
  · next hneg =>
    have habs : (n.natAbs : Int) = n := by omega
    have hvalue : (if false then -(n.natAbs : Int) else n.natAbs) = n := habs
    have hread := @parseDigits_toDigits false n.natAbs (hvalue.symm ▸ h)
    rw [parseInt_toDigits, hread, hvalue]

/-- The runes of a number. -/
theorem mem_printInt {n : Int} {c : Char} (h : c ∈ printInt n) : c = '-' ∨ c.isDigit = true := by
  rw [printInt] at h
  split at h
  · rcases List.mem_cons.mp h with rfl | h
    · exact .inl rfl
    · exact .inr (List.all_eq_true.mp (all_isDigit_toDigits _) c h)
  · exact .inr (List.all_eq_true.mp (all_isDigit_toDigits _) c h)

theorem printInt_ne_nil (n : Int) : printInt n ≠ [] := by
  rw [printInt]
  split
  · exact List.cons_ne_nil _ _
  · exact toDigits_ne_nil _

end Prismalama.Lib.Decimal
