import Prismalama.Lib.GoMap
import Prismalama.Lib.Utf8

/-!
# The names of functions in harmony prompts (`harmony/harmonyparser.go`)

Names of tools are turned into identifiers, and two maps remember which name became which. The
renaming can be undone exactly when no built-in name comes after another name that was turned into
it, and no identifier starts with a digit that is not ASCII (`inverted_iff`).
-/

namespace Prismalama.Harmony

open Prismalama.Lib

/-- The letters and digits of a version of Unicode. -/
structure Alphabet where
  /-- `unicode.IsLetter` -/
  isLetter : Char → Bool
  /-- `unicode.IsDigit` -/
  isDigit : Char → Bool
  isLetter_ascii : ∀ r, r.toNat < 128 → isLetter r = r.isAlpha
  isDigit_ascii : ∀ r, r.toNat < 128 → isDigit r = r.isDigit
  isDigit_latin : ∀ r, 128 ≤ r.toNat → r.toNat < 256 → isDigit r = false

structure FunctionNameMap where
  userToHarmony : GoMap (List Char) (List Char)
  harmonyToUser : GoMap (List Char) (List Char)

namespace FunctionNameMap

def newFunctionNameMap : FunctionNameMap := ⟨∅, ∅⟩

def builtins : List (List Char) :=
  ["browser.open".toList, "browser.search".toList, "browser.find".toList, "python".toList]

instance (name : List Char) : Decidable (name ∈ builtins) :=
  decidable_of_iff (builtins.any (fun b => decide (b = name)) = true) (by simp)

variable (U : Alphabet)

/-! ## Converting names -/

def mapper (r : Char) : Option Char :=
  if r = ' ' ∨ r = '-' ∨ r = '.' then some '_'
  else if U.isLetter r = true ∨ U.isDigit r = true ∨ r = '_' ∨ r = '$' then some r
  else none

/-- `rune(candidate[0])`, the first byte of the rune -/
def firstByte (r : Char) : Char := Char.ofNat ((String.utf8EncodeChar r).headD 0).toNat

def convertToValidChars (userFunctionName : List Char) : List Char :=
  let candidate := userFunctionName.filterMap (mapper U)
  match candidate with
  | [] => "unnamed".toList
  | r :: _ => if U.isDigit (firstByte r) = true then '_' :: candidate else candidate

/-- The loop of `deriveName`, for at most `fuel` rounds. -/
def unusedName (m : FunctionNameMap) (originalCandidate : List Char) :
    Nat → List Char → Nat → Option (List Char)
  | 0, _, _ => none
  | fuel + 1, candidate, count =>
    if (AList.lookup candidate m.harmonyToUser).isSome = true then
      unusedName m originalCandidate fuel
        (originalCandidate ++ '_' :: Nat.toDigits 10 count) (count + 1)
    else some candidate

def deriveName (m : FunctionNameMap) (userFunctionName : List Char) : Option (List Char) :=
  let originalCandidate := convertToValidChars U userFunctionName
  m.unusedName originalCandidate (m.harmonyToUser.keys.length + 1) originalCandidate 2

def convertAndAdd (m : FunctionNameMap) (userFunctionName : List Char) :
    Option (FunctionNameMap × List Char) :=
  (m.deriveName U userFunctionName).map fun harmonyFunctionName =>
    let harmonyFunctionName :=
      if userFunctionName ∈ builtins then userFunctionName else harmonyFunctionName
    (⟨AList.insert userFunctionName harmonyFunctionName m.userToHarmony,
      AList.insert harmonyFunctionName userFunctionName m.harmonyToUser⟩, harmonyFunctionName)

def originalFromConverted (m : FunctionNameMap) (harmonyFunctionName : List Char) : List Char :=
  (AList.lookup harmonyFunctionName m.harmonyToUser).getD harmonyFunctionName

/-! ## Runs -/

/-- The names that were added, with what they became, the last one first. -/
inductive Run : List (List Char × List Char) → FunctionNameMap → Prop
  | start : Run [] newFunctionNameMap
  | add {done : List (List Char × List Char)} {m m' : FunctionNameMap} {name c : List Char} :
    Run done m → m.convertAndAdd U name = some (m', c) → Run ((name, c) :: done) m'

def IsIdentifier (s : List Char) : Prop :=
  s ≠ [] ∧ (∀ r ∈ s, U.isLetter r = true ∨ U.isDigit r = true ∨ r = '_' ∨ r = '$') ∧
    ∀ r, s.head? = some r → U.isDigit r = false

/-- The renaming can be undone, and gives identifiers. -/
structure Inverted (done : List (List Char × List Char)) (m : FunctionNameMap) : Prop where
  distinct : (done.map Prod.snd).Nodup
  identifier : ∀ p ∈ done, p.1 ∉ builtins → IsIdentifier U p.2
  original : ∀ p ∈ done, m.originalFromConverted p.2 = p.1
  adds : ∀ name, (m.convertAndAdd U name).isSome = true

/-- What is left of the name does not start with a digit that is not ASCII. -/
def PlainStart (name : List Char) : Prop :=
  ∀ r, (name.filterMap (mapper U)).head? = some r → U.isDigit r = true → r.toNat < 128

/-- No name became a built-in one before that is added, and other names start plainly. -/
def Meets : List (List Char × List Char) → Prop
  | [] => True
  | (name, _) :: done =>
    (if name ∈ builtins then name ∉ done.map Prod.snd else PlainStart U name) ∧ Meets done

/-! ## Names that are not used yet -/

theorem toDigits_inj {m n : Nat} (h : Nat.toDigits 10 m = Nat.toDigits 10 n) : m = n := by
  have hread := congrArg (fun cs => Nat.ofDigitChars 10 cs 0) h
  rwa [Nat.ofDigitChars_toDigits (by decide) (by decide),
    Nat.ofDigitChars_toDigits (by decide) (by decide)] at hread

/-- The candidates from one number on. -/
def withNumber (s : List Char) (count : Nat) : List Char := s ++ '_' :: Nat.toDigits 10 count

theorem withNumber_inj {s : List Char} {i j : Nat} (h : withNumber s i = withNumber s j) : i = j :=
  toDigits_inj (List.cons.inj (List.append_cancel_left h)).2

/-- What the loop gives is a candidate that is not used. -/
theorem unusedName_eq_some {m : FunctionNameMap} {s c : List Char} {fuel : Nat}
    {candidate : List Char} {count : Nat}
    (h : m.unusedName s fuel candidate count = some c) :
    AList.lookup c m.harmonyToUser = none ∧ (c = candidate ∨ ∃ i, c = withNumber s i) := by
  induction fuel generalizing candidate count with
  | zero => cases h
  | succ fuel ih =>
    rw [unusedName] at h
    split at h
    · obtain ⟨hnone, rfl | hnumbered⟩ := ih h
      · exact ⟨hnone, .inr ⟨count, rfl⟩⟩
      · exact ⟨hnone, .inr hnumbered⟩
    · next hnot =>
      obtain rfl := Option.some.inj h
      exact ⟨Option.not_isSome_iff_eq_none.mp hnot, .inl rfl⟩

/-- The loop ends: the candidates differ, and only some names are used. -/
theorem unusedName_isSome {m : FunctionNameMap} {s : List Char} {fuel : Nat}
    {candidate : List Char} {count : Nat} {tried : List (List Char)}
    (htried : (tried ++ [candidate]).Nodup) (hused : ∀ t ∈ tried, t ∈ m.harmonyToUser.keys)
    (hlater : ∀ i, count ≤ i → withNumber s i ∉ tried ++ [candidate])
    (hfuel : m.harmonyToUser.keys.length < tried.length + fuel) :
    (m.unusedName s fuel candidate count).isSome = true := by
  induction fuel generalizing candidate count tried with
  | zero =>
    have hsub : tried.Subperm m.harmonyToUser.keys :=
      (List.nodup_append.mp htried).1.subperm hused
    exact absurd hsub.length_le (by omega)
  | succ fuel ih =>
    rw [unusedName]
    split
    · next hsome =>
      obtain ⟨v, hv⟩ := Option.isSome_iff_exists.mp hsome
      refine @ih _ _ (tried ++ [candidate]) ?_ ?_ ?_ ?_
      · refine List.nodup_append.mpr ⟨htried, List.nodup_singleton _, fun a ha b hb heq => ?_⟩
        rw [List.mem_singleton.mp hb] at heq
        have hnumbered : a = withNumber s count := heq
        exact hlater count le_rfl (hnumbered ▸ ha)
      · intro t ht
        rcases List.mem_append.mp ht with ht | ht
        · exact hused t ht
        · rw [List.mem_singleton.mp ht]
          exact (GoMap.mem_keys_iff _ _).mpr ⟨v, hv⟩
      · intro i hi hmem
        rcases List.mem_append.mp hmem with hmem | hmem
        · exact hlater i (by omega) hmem
        · exact absurd (withNumber_inj (List.mem_singleton.mp hmem)) (by omega)
      · rw [List.length_append, List.length_singleton]
        omega
    · rfl

/-- A name is always found. -/
theorem deriveName_isSome (m : FunctionNameMap) (name : List Char) :
    (m.deriveName U name).isSome = true := by
  refine @unusedName_isSome m _ _ _ _ [] (List.nodup_singleton _) (by simp) (fun i _ hmem => ?_)
    (by simp)
  have hlength := congrArg List.length (List.mem_singleton.mp hmem)
  rw [withNumber, List.length_append, List.length_cons] at hlength
  omega

theorem convertAndAdd_isSome (m : FunctionNameMap) (name : List Char) :
    (m.convertAndAdd U name).isSome = true := by
  rw [convertAndAdd, Option.isSome_map]
  exact deriveName_isSome U m name

variable {U}
variable {done : List (List Char × List Char)} {m m' : FunctionNameMap} {name c : List Char}

/-- What a call does. -/
theorem convertAndAdd_eq_some (h : m.convertAndAdd U name = some (m', c)) :
    m'.harmonyToUser = AList.insert c name m.harmonyToUser ∧
      if name ∈ builtins then c = name
      else AList.lookup c m.harmonyToUser = none ∧
        (c = convertToValidChars U name ∨ ∃ i, c = withNumber (convertToValidChars U name) i) := by
  obtain ⟨d, hd, heq⟩ := Option.map_eq_some_iff.mp h
  obtain ⟨rfl, rfl⟩ := Prod.mk.inj heq
  refine ⟨rfl, ?_⟩
  by_cases hbuiltin : name ∈ builtins
  · rw [if_pos hbuiltin, if_pos hbuiltin]
  · rw [if_neg hbuiltin, if_neg hbuiltin]
    exact unusedName_eq_some hd

/-! ## Identifiers -/

/-- The rune may stand in an identifier. -/
def Allowed (U : Alphabet) (r : Char) : Prop :=
  U.isLetter r = true ∨ U.isDigit r = true ∨ r = '_' ∨ r = '$'

theorem allowed_mapper {r r' : Char} (h : mapper U r = some r') : Allowed U r' := by
  rw [mapper] at h
  split at h
  · obtain rfl := Option.some.inj h
    exact .inr (.inr (.inl rfl))
  · split at h
    · next hor =>
      obtain rfl := Option.some.inj h
      exact hor
    · cases h

theorem allowed_filterMap : ∀ r ∈ name.filterMap (mapper U), Allowed U r := by
  intro r hr
  obtain ⟨a, -, ha⟩ := List.mem_filterMap.mp hr
  exact allowed_mapper ha

theorem isDigit_underscore : U.isDigit '_' = false := (U.isDigit_ascii '_' (by decide)).trans rfl

theorem firstByte_ascii {r : Char} (h : r.toNat < 128) : firstByte r = r := by
  have henc := utf8EncodeChar_ofNat r.toNat h
  rw [Char.ofNat_toNat] at henc
  rw [firstByte, henc, List.headD_cons, UInt8.toNat_ofNat', Nat.mod_eq_of_lt (by omega),
    Char.ofNat_toNat]

theorem toNat_ofNat_byte : ∀ n < 256, (Char.ofNat n).toNat = n := by
  decide +kernel

/-- The first byte of another rune is no digit. -/
theorem isDigit_firstByte {r : Char} (h : 128 ≤ r.toNat) : U.isDigit (firstByte r) = false := by
  obtain ⟨b, bs, henc, -⟩ := exists_firstByte (c := r)
  have hb : 128 ≤ b.toNat := by
    by_contra hlt
    have hsplit : encodeRunes [r] = encodeRunes [asciiRune b] ++ bs := by
      simp [utf8EncodeChar_asciiRune (not_le.mp hlt), henc]
    obtain ⟨cs, hcs, -⟩ := encodeRunes_append_eq hsplit.symm
    obtain ⟨rfl, -⟩ := List.cons.inj hcs
    rw [asciiRune, toNat_ofNat_byte _ b.toNat_lt] at h
    exact hlt h
  have hlt := b.toNat_lt
  have hnat : (firstByte r).toNat = b.toNat := by
    rw [firstByte, henc, List.headD_cons, toNat_ofNat_byte _ hlt]
  exact U.isDigit_latin _ (by omega) (by omega)

/-- The head of what a name becomes, when it is a digit that is not ASCII. -/
theorem head_convertToValidChars {r : Char} (hhead : (name.filterMap (mapper U)).head? = some r)
    (hr : 128 ≤ r.toNat) : (convertToValidChars U name).head? = some r := by
  rw [convertToValidChars]
  cases hcandidate : name.filterMap (mapper U) with
  | nil =>
    rw [hcandidate] at hhead
    cases hhead
  | cons a rest =>
    rw [hcandidate] at hhead
    obtain rfl := Option.some.inj hhead
    simp only
    rw [isDigit_firstByte hr]
    rfl

theorem isIdentifier_convertToValidChars (h : PlainStart U name) :
    IsIdentifier U (convertToValidChars U name) := by
  rw [convertToValidChars]
  cases hcandidate : name.filterMap (mapper U) with
  | nil =>
    have hletter : ∀ r ∈ "unnamed".toList,
        (decide (r.toNat < 128) && r.isAlpha && !r.isDigit) = true := List.all_eq_true.mp (by decide)
    simp only [Bool.and_eq_true, decide_eq_true_eq, Bool.not_eq_true'] at hletter
    refine ⟨List.cons_ne_nil _ _, fun r hr => .inl ?_, fun r hr => ?_⟩
    · obtain ⟨⟨hlt, halpha⟩, -⟩ := hletter r hr
      exact (U.isLetter_ascii r hlt).trans halpha
    · obtain ⟨⟨hlt, -⟩, hdigit⟩ := hletter r (List.mem_of_mem_head? hr)
      exact (U.isDigit_ascii r hlt).trans hdigit
  | cons a rest =>
    have hallowed : ∀ r ∈ a :: rest, Allowed U r := hcandidate ▸ allowed_filterMap
    simp only
    split
    · refine ⟨List.cons_ne_nil _ _, fun r hr => ?_, fun r hr => ?_⟩
      · rcases List.mem_cons.mp hr with rfl | hr
        · exact .inr (.inr (.inl rfl))
        · exact hallowed r hr
      · obtain rfl := Option.some.inj hr
        exact isDigit_underscore
    · next hbyte =>
      refine ⟨List.cons_ne_nil _ _, hallowed, fun r hr => ?_⟩
      obtain rfl := Option.some.inj hr
      rw [← Bool.not_eq_true]
      intro hdigit
      have hlt := h a (by rw [hcandidate]; rfl) hdigit
      rw [firstByte_ascii hlt] at hbyte
      exact hbyte hdigit

theorem head_withNumber {s : List Char} (hs : s ≠ []) (i : Nat) :
    (withNumber s i).head? = s.head? := by
  rw [withNumber, List.head?_append_of_ne_nil s hs]

theorem IsIdentifier.withNumber {s : List Char} (h : IsIdentifier U s) (i : Nat) :
    IsIdentifier U (withNumber s i) := by
  obtain ⟨hne, hallowed, hhead⟩ := h
  refine ⟨by simp [FunctionNameMap.withNumber], fun r hr => ?_, fun r hr => ?_⟩
  · rcases List.mem_append.mp hr with hr | hr
    · exact hallowed r hr
    · rcases List.mem_cons.mp hr with rfl | hr
      · exact .inr (.inr (.inl rfl))
      · have hdigit := Nat.isDigit_of_mem_toDigits (by decide) (by decide) hr
        have hlt : r.toNat < 128 := by
          simp only [Char.isDigit, Bool.and_eq_true, decide_eq_true_eq] at hdigit
          have hhi : r.toNat ≤ 57 := hdigit.2
          omega
        exact .inr (.inl ((U.isDigit_ascii r hlt).trans hdigit))
  · rw [head_withNumber hne] at hr
    exact hhead r hr

/-! ## The two maps -/

/-- The names that are used are those that were given. -/
theorem Run.used (h : Run U done m) :
    ∀ c, AList.lookup c m.harmonyToUser = none ↔ c ∉ done.map Prod.snd := by
  induction h with
  | start => exact fun c => iff_of_true rfl List.not_mem_nil
  | @add done m m' name c' _ hadd ih =>
    intro c
    rw [(convertAndAdd_eq_some hadd).1, GoMap.lookup_insert_ite, List.map_cons, List.mem_cons,
      not_or, ← ih]
    split
    · next heq => exact iff_of_false nofun fun hand => hand.1 heq
    · next hne => exact (and_iff_right hne).symm

/-- While the given names differ, each can be turned back. -/
theorem Run.original (h : Run U done m) (hdistinct : (done.map Prod.snd).Nodup) :
    ∀ p ∈ done, m.originalFromConverted p.2 = p.1 := by
  induction h with
  | start => exact fun p hp => absurd hp List.not_mem_nil
  | @add done m m' name c _ hadd ih =>
    obtain ⟨hnot, hrest⟩ := List.nodup_cons.mp hdistinct
    intro p hp
    rw [originalFromConverted, (convertAndAdd_eq_some hadd).1, GoMap.lookup_insert_ite]
    rcases List.mem_cons.mp hp with rfl | hp
    · rw [if_pos rfl]
      rfl
    · have hmem : p.2 ∈ done.map Prod.snd := List.mem_map_of_mem hp
      have hne : p.2 ≠ c := fun heq => hnot (heq ▸ hmem)
      rw [if_neg hne]
      exact ih hrest p hp

/-- Of distinct names, the renaming can be undone and gives identifiers at every point of a run if
and only if every name meets the condition when it is added. -/
theorem inverted_iff (h : Run U done m) : Inverted U done m ↔ Meets U done := by
  induction h with
  | start =>
    exact iff_of_true ⟨List.nodup_nil, nofun, nofun, convertAndAdd_isSome U _⟩ trivial
  | @add done m m' name c hrun hadd ih =>
    obtain ⟨-, hcase⟩ := convertAndAdd_eq_some hadd
    have hnext : Run U ((name, c) :: done) m' := .add hrun hadd
    constructor
    · intro hinv
      obtain ⟨hnot, hrest⟩ := List.nodup_cons.mp hinv.distinct
      have hbefore : Inverted U done m :=
        ⟨hrest, fun p hp => hinv.identifier p (List.mem_cons_of_mem _ hp), hrun.original hrest,
          convertAndAdd_isSome U m⟩
      refine ⟨?_, ih.mp hbefore⟩
      split
      · next hbuiltin =>
        rw [if_pos hbuiltin] at hcase
        exact hcase ▸ hnot
      · next hbuiltin =>
        rw [if_neg hbuiltin] at hcase
        intro r hhead hdigit
        by_contra hlt
        have hstart := head_convertToValidChars hhead (not_lt.mp hlt)
        have hne : convertToValidChars U name ≠ [] := fun hnil => by
          rw [hnil] at hstart
          cases hstart
        have hidentifier := (hinv.identifier _ List.mem_cons_self hbuiltin).2.2 r
        rcases hcase.2 with rfl | ⟨i, rfl⟩
        · exact absurd hdigit (by rw [hidentifier hstart]; exact Bool.false_ne_true)
        · rw [head_withNumber hne] at hidentifier
          exact absurd hdigit (by rw [hidentifier hstart]; exact Bool.false_ne_true)
    · rintro ⟨hname, hmeets⟩
      have hinv := ih.mpr hmeets
      have hnot : c ∉ done.map Prod.snd := by
        split at hcase
        · next hbuiltin =>
          rw [if_pos hbuiltin] at hname
          exact hcase ▸ hname
        · exact (hrun.used c).mp hcase.1
      have hdistinct : (((name, c) :: done).map Prod.snd).Nodup :=
        List.nodup_cons.mpr ⟨hnot, hinv.distinct⟩
      refine ⟨hdistinct, fun p hp hbuiltin => ?_, hnext.original hdistinct,
        convertAndAdd_isSome U m'⟩
      rcases List.mem_cons.mp hp with rfl | hp
      · rw [if_neg hbuiltin] at hcase hname
        have hidentifier := isIdentifier_convertToValidChars hname
        rcases hcase.2 with heq | ⟨i, heq⟩
        · rw [heq]
          exact hidentifier
        · rw [heq]
          exact hidentifier.withNumber i
      · exact hinv.identifier p hp hbuiltin

/-- The ASCII part of Unicode, with the Arabic-Indic digit three. -/
def someAlphabet : Alphabet where
  isLetter r := r.isAlpha
  isDigit r := r.isDigit || r == '\u0663'
  isLetter_ascii _ _ := rfl
  isDigit_ascii r hr := by
    have hne : r ≠ '\u0663' := by
      rintro rfl
      revert hr
      decide
    rw [beq_false_of_ne hne, Bool.or_false]
  isDigit_latin r hlo hhi := by
    have hne : r ≠ '\u0663' := by
      rintro rfl
      revert hhi
      decide
    have hnot : r.isDigit = false := by
      simp only [Char.isDigit, Bool.and_eq_false_iff, decide_eq_false_iff_not]
      right
      intro hle
      have hle' : r.toNat ≤ 57 := hle
      omega
    rw [hnot, beq_false_of_ne hne, Bool.or_false]

/-- The names become these. -/
def convertsTo (U : Alphabet) (m : FunctionNameMap) (names converted : List (List Char)) : Bool :=
  match names, converted with
  | [], [] => true
  | name :: names, c :: converted =>
    match m.convertAndAdd U name with
    | some (m', c') => c' == c && convertsTo U m' names converted
    | none => false
  | _, _ => false

theorem exists_run {m : FunctionNameMap} {names converted : List (List Char)} (h : Run U done m)
    (hconverts : convertsTo U m names converted = true) :
    ∃ m', Run U ((names.zip converted).reverse ++ done) m' := by
  induction names generalizing done m converted with
  | nil => exact ⟨m, by simpa using h⟩
  | cons name names ih =>
    cases converted with
    | nil => cases hconverts
    | cons c converted =>
      rw [convertsTo] at hconverts
      split at hconverts
      · next m' c' hadd =>
        obtain ⟨hc, hrest⟩ := Bool.and_eq_true_iff.mp hconverts
        obtain rfl := eq_of_beq hc
        obtain ⟨m'', hrun⟩ := ih (.add h hadd) hrest
        refine ⟨m'', ?_⟩
        rw [List.zip_cons_cons, List.reverse_cons, List.append_assoc]
        exact hrun
      · cases hconverts

theorem inverted_two_names : ∃ m,
    Inverted someAlphabet [("python".toList, "python".toList),
      ("get weather".toList, "get_weather".toList)] m := by
  obtain ⟨m, hrun⟩ := @exists_run _ _ _ ["get weather".toList, "python".toList]
    ["get_weather".toList, "python".toList] (@Run.start someAlphabet) (by decide)
  refine ⟨m, (inverted_iff hrun).mpr ⟨?_, ?_, trivial⟩⟩
  · rw [if_pos (by decide)]
    decide
  · rw [if_neg (by decide)]
    intro r hr _
    have hhead : ("get weather".toList.filterMap (mapper someAlphabet)).head? = some 'g' := by
      decide
    obtain rfl := Option.some.inj (hhead.symm.trans hr)
    decide

/-- Two distinct names become `python`. -/
theorem not_inverted : ∃ m, Run someAlphabet [("python".toList, "python".toList),
    ("python!".toList, "python".toList)] m ∧
      ¬Inverted someAlphabet [("python".toList, "python".toList),
        ("python!".toList, "python".toList)] m := by
  obtain ⟨m, hrun⟩ := @exists_run _ _ _ ["python!".toList, "python".toList]
    ["python".toList, "python".toList] (@Run.start someAlphabet) (by decide)
  refine ⟨m, hrun, fun hinv => ?_⟩
  exact (List.nodup_cons.mp hinv.distinct).1 List.mem_cons_self

/-- The Arabic-Indic digit three starts the identifier. -/
example : convertToValidChars someAlphabet ['\u0663', 'a'] = ['\u0663', 'a'] := by decide

end FunctionNameMap

end Prismalama.Harmony
