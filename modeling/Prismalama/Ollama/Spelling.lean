import Prismalama.Ollama.Names

/-!
# How a name is written (`server/internal/internal/names/name.go`)

A string is cut at its last two slashes and at the colons behind them. The parser looks for the
separators from the right. A host, a namespace or a tag that is empty counts as one that is
missing: the string form of the name has no separator for it.
-/

namespace Prismalama.Ollama

open Prismalama.Lib

/-! ## The last separator -/

namespace Name

theorem cutLast_append {p : UInt8 → Bool} {b : UInt8} (hb : p b = true) (before : GoString)
    {after : GoString} (h : ∀ c ∈ after, p c = false) :
    cutLast p (before ++ b :: after) = some (before, b, after) := by
  have hnone : cutLast p after = none := by
    induction after with
    | nil => rfl
    | cons c after ih =>
      rw [cutLast, ih fun d hd => h d (List.mem_cons_of_mem c hd)]
      simp [h c List.mem_cons_self]
  induction before with
  | nil => simp [cutLast, hnone, hb]
  | cons c before ih => rw [List.cons_append, cutLast, ih]

theorem cutLast_none {p : UInt8 → Bool} {s : GoString} (h : ∀ c ∈ s, p c = false) :
    cutLast p s = none := by
  induction s with
  | nil => rfl
  | cons c s ih =>
    rw [cutLast, ih fun d hd => h d (List.mem_cons_of_mem c hd)]
    simp [h c List.mem_cons_self]

/-- A string is cut at its last separator, or has none. -/
theorem exists_cut (p : UInt8 → Bool) (s : GoString) : (∀ c ∈ s, p c = false) ∨
    ∃ before b after, s = before ++ b :: after ∧ p b = true ∧ ∀ c ∈ after, p c = false := by
  induction s with
  | nil => exact .inl fun c hc => absurd hc List.not_mem_nil
  | cons c s ih =>
    rcases ih with hnone | ⟨before, b, after, rfl, hb, hafter⟩
    · cases hc : p c with
      | true => exact .inr ⟨[], c, s, rfl, hc, hnone⟩
      | false =>
        refine .inl fun d hd => ?_
        rcases List.mem_cons.mp hd with rfl | hd
        · exact hc
        · exact hnone d hd
    · exact .inr ⟨c :: before, b, after, rfl, hb, hafter⟩

/-! ## `Merge` and `String` -/

/-- `cmp.Or` -/
def cmpOr (a b : GoString) : GoString := if a = [] then b else a

/-- `Merge` -/
def merge (a b : Name) : Name := ⟨cmpOr a.h b.h, cmpOr a.n b.n, a.m, cmpOr a.t b.t⟩

/-- `String` -/
def toString (n : Name) : GoString :=
  (if n.h ≠ [] then n.h ++ [0x2F] else []) ++ (if n.n ≠ [] then n.n ++ [0x2F] else []) ++ n.m ++
    (if n.t ≠ [] then 0x3A :: n.t else [])

/-- `defaultMask` -/
def defaultMask : Name := parse (lit "registry.ollama.ai/library/_:latest")

end Name

/-! ## Spellings -/

/-- The parts of a string: host and namespace with a slash behind each, the model, the tag with a
colon before it, and what follows the tag. -/
structure Spelling where
  h : Option GoString
  n : Option GoString
  m : GoString
  t : Option GoString
  more : GoString

namespace Spelling

def slashed : Option GoString → GoString
  | none => []
  | some p => p ++ [0x2F]

def coloned : Option GoString → GoString
  | none => []
  | some p => 0x3A :: p

/-- What is before the model. -/
def front (sp : Spelling) : GoString := slashed sp.h ++ slashed sp.n

def text (sp : Spelling) : GoString := sp.front ++ sp.m ++ coloned sp.t ++ sp.more

/-- The parts are cut at the last two slashes and at the colons behind them. -/
structure Cut (sp : Spelling) : Prop where
  host : sp.h.isSome = true → sp.n.isSome = true
  namespace_ : ∀ n ∈ sp.n, 0x2F ∉ n
  model : ∀ c ∈ sp.m, c ≠ 0x2F ∧ c ≠ 0x3A
  tag : ∀ t ∈ sp.t, ∀ c ∈ t, c ≠ 0x2F ∧ c ≠ 0x3A
  more_tag : sp.more ≠ [] → sp.t.isSome = true
  more_colon : sp.more ≠ [] → sp.more.head? = some 0x3A
  more_slash : 0x2F ∉ sp.more

/-- No part is empty where there is a separator, and nothing follows the tag. -/
structure Tidy (sp : Spelling) : Prop where
  host : sp.h ≠ some []
  namespace_ : sp.n ≠ some []
  tag : sp.t ≠ some []
  more : sp.more = []

def name (sp : Spelling) : Name := ⟨sp.h.getD [], sp.n.getD [], sp.m, sp.t.getD []⟩

/-- The separators beside empty parts are left out. -/
def dropEmpty (sp : Spelling) : Spelling :=
  ⟨sp.h.filter (· ≠ []), sp.n.filter (· ≠ []), sp.m, sp.t.filter (· ≠ []), []⟩

/-! ## Every string has a spelling -/

theorem exists_front (front : GoString) : ∃ h n : Option GoString,
    front ++ [0x2F] = slashed h ++ slashed n ∧ n.isSome = true ∧ ∀ p ∈ n, 0x2F ∉ p := by
  rcases Name.exists_cut (· == 0x2F) front with hnone | ⟨before, b, after, rfl, hb, hafter⟩
  · refine ⟨none, some front, rfl, rfl, ?_⟩
    rintro p ⟨⟩ hmem
    exact absurd (hnone _ hmem) (by decide)
  · obtain rfl := eq_of_beq hb
    refine ⟨some before, some after, by simp [slashed], rfl, ?_⟩
    rintro p ⟨⟩ hmem
    exact absurd (hafter _ hmem) (by decide)

theorem exists_back {back : GoString} (hback : 0x2F ∉ back) : ∃ (m : GoString)
    (t : Option GoString) (more : GoString), back = m ++ coloned t ++ more ∧
      (∀ c ∈ m, c ≠ 0x2F ∧ c ≠ 0x3A) ∧ (∀ p ∈ t, ∀ c ∈ p, c ≠ 0x2F ∧ c ≠ 0x3A) ∧
      (more ≠ [] → t.isSome = true ∧ more.head? = some 0x3A) ∧ 0x2F ∉ more := by
  -- up to the next colon
  have hcut : ∀ {s : GoString}, 0x2F ∉ s → ∃ p rest, s = p ++ rest ∧
      (∀ c ∈ p, c ≠ 0x2F ∧ c ≠ 0x3A) ∧ (rest ≠ [] → rest.head? = some 0x3A) := by
    intro s hs
    refine ⟨s.takeWhile (· != 0x3A), s.dropWhile (· != 0x3A), List.takeWhile_append_dropWhile.symm,
      fun c hc => ⟨fun heq => hs ?_, ?_⟩, fun hne => ?_⟩
    · exact heq ▸ (List.takeWhile_prefix _).subset hc
    · have hall := List.all_eq_true.mp (List.all_takeWhile (p := (· != 0x3A)) (l := s)) c hc
      exact bne_iff_ne.mp hall
    · have hhead := List.head_dropWhile_not (· != 0x3A) hne
      rw [List.head?_eq_some_head hne]
      exact congrArg some (by simpa using hhead)
  obtain ⟨m, rest, rfl, hm, hrest⟩ := hcut hback
  have hslash : 0x2F ∉ rest := fun hmem => hback (List.mem_append_right m hmem)
  cases rest with
  | nil =>
    exact ⟨m, none, [], by simp [coloned], hm, fun p hp => (by cases hp), fun h => absurd rfl h,
      List.not_mem_nil⟩
  | cons b rest =>
    have hb : b = 0x3A := Option.some.inj (hrest (List.cons_ne_nil b rest))
    subst hb
    obtain ⟨t, more, rfl, ht, hmore⟩ := hcut fun hmem => hslash (List.mem_cons_of_mem _ hmem)
    refine ⟨m, some t, more, by simp [coloned], hm, ?_, fun hne => ⟨rfl, hmore hne⟩, fun hmem => ?_⟩
    · rintro p ⟨⟩
      exact ht
    · exact hslash (List.mem_cons_of_mem _ (List.mem_append_right t hmem))

/-- Every string is spelled in some way. -/
theorem exists_spelling (s : GoString) : ∃ sp : Spelling, sp.Cut ∧ sp.text = s := by
  rcases Name.exists_cut (· == 0x2F) s with hnone | ⟨before, b, after, rfl, hb, hafter⟩
  · obtain ⟨m, t, more, rfl, hm, ht, hmore, hslash⟩ := @exists_back s
      fun hmem => absurd (hnone _ hmem) (by decide)
    exact ⟨⟨none, none, m, t, more⟩, ⟨fun h => h, fun n hn => (by cases hn), hm, ht,
      fun h => (hmore h).1, fun h => (hmore h).2, hslash⟩, rfl⟩
  · obtain rfl := eq_of_beq hb
    obtain ⟨h, n, hfront, hn, hnslash⟩ := exists_front before
    obtain ⟨m, t, more, rfl, hm, ht, hmore, hslash⟩ := @exists_back after
      fun hmem => absurd (hafter _ hmem) (by decide)
    refine ⟨⟨h, n, m, t, more⟩, ⟨fun _ => hn, hnslash, hm, ht, fun h => (hmore h).1,
      fun h => (hmore h).2, hslash⟩, ?_⟩
    rw [text, front, ← hfront]
    simp

/-! ## `Parse` of a spelling -/

theorem text_of_more {sp : Spelling} (hmore : sp.more = []) :
    sp.text = sp.front ++ sp.m ++ coloned sp.t := by
  rw [text, hmore, List.append_nil]

theorem front_of_namespace {sp : Spelling} {n : GoString} (hn : sp.n = some n) :
    sp.front = (slashed sp.h ++ n) ++ [0x2F] := by
  rw [front, hn, List.append_assoc]
  rfl

theorem front_of_none {sp : Spelling} (hcut : sp.Cut) (hn : sp.n = none) : sp.front = [] := by
  have hh : sp.h = none := by
    cases hh : sp.h with
    | none => rfl
    | some h =>
      have hsome := hcut.host (hh ▸ rfl)
      rw [hn] at hsome
      cases hsome
  rw [front, hn, hh]
  rfl

theorem cutLast_slashed {sp : Spelling} (hcut : sp.Cut) {n : GoString} (hn : sp.n = some n) :
    Name.cutLast (· == 0x2F) (slashed sp.h ++ n) = sp.h.map fun h => (h, 0x2F, n) := by
  have hslash : ∀ c ∈ n, (c == 0x2F) = false := fun c hc =>
    beq_eq_false_iff_ne.mpr fun heq => hcut.namespace_ n hn (heq ▸ hc)
  cases sp.h with
  | none => exact Name.cutLast_none hslash
  | some h =>
    rw [slashed, List.append_assoc]
    exact Name.cutLast_append rfl h hslash

/-- The loop behind the tag. -/
theorem parseFrom_front {sp : Spelling} (hcut : sp.Cut) (fuel : Nat) (tag : GoString) :
    Name.parseFrom (fuel + 1) (sp.front ++ sp.m) tag =
      ⟨sp.h.getD [], sp.n.getD [], sp.m, tag⟩ := by
  have hm : ∀ c ∈ sp.m, (c == 0x2F || c == 0x3A) = false := fun c hc => by
    simp [hcut.model c hc]
  cases hn : sp.n with
  | none =>
    have hh : sp.h = none := by
      cases hh : sp.h with
      | none => rfl
      | some h => exact absurd (hcut.host (hh ▸ rfl)) (by simp [hn])
    rw [front_of_none hcut hn, List.nil_append, Name.parseFrom, Name.cutLast_none hm, hh]
    rfl
  | some n =>
    rw [front_of_namespace hn, List.append_assoc, Name.parseFrom, List.singleton_append,
      Name.cutLast_append (by decide) _ hm]
    simp only [cutLast_slashed hcut hn]
    cases hh : sp.h with
    | none => simp [slashed]
    | some h => simp

/-- A string with one colon at most behind its last slash is parsed as it is spelled. -/
theorem parse_text {sp : Spelling} (hcut : sp.Cut) (hmore : sp.more = [])
    (hlen : sp.text.length ≤ Name.maxNameLength) : Name.parse sp.text = sp.name := by
  rw [Name.parse, if_neg (Nat.not_lt.mpr hlen), text_of_more hmore, name]
  cases ht : sp.t with
  | none =>
    rw [coloned, List.append_nil, parseFrom_front hcut]
    rfl
  | some t =>
    have htag : ∀ c ∈ t, (c == 0x2F || c == 0x3A) = false := fun c hc => by
      simp [hcut.tag t ht c hc]
    rw [coloned, Name.parseFrom, Name.cutLast_append (by decide) _ htag]
    simp only [if_true, List.length_append, List.length_cons]
    rw [← Nat.add_assoc, parseFrom_front hcut]
    rfl

/-- The string form of a name has no separator for a part that is empty. -/
theorem toString_name (sp : Spelling) : sp.name.toString = sp.dropEmpty.text := by
  have hslashed : ∀ o : Option GoString, (if o.getD [] ≠ [] then o.getD [] ++ [0x2F] else []) =
      slashed (o.filter (· ≠ [])) := by
    intro o
    cases o with
    | none => rfl
    | some p => cases p <;> rfl
  have hcoloned : (if sp.t.getD [] ≠ [] then 0x3A :: sp.t.getD [] else []) =
      coloned (sp.t.filter (· ≠ [])) := by
    cases sp.t with
    | none => rfl
    | some p => cases p <;> rfl
  show (if sp.h.getD [] ≠ [] then sp.h.getD [] ++ [0x2F] else []) ++
    (if sp.n.getD [] ≠ [] then sp.n.getD [] ++ [0x2F] else []) ++ sp.m ++
    (if sp.t.getD [] ≠ [] then 0x3A :: sp.t.getD [] else []) = _
  rw [hslashed, hslashed, hcoloned, text_of_more rfl]
  rfl

theorem dropEmpty_of_tidy {sp : Spelling} (htidy : sp.Tidy) : sp.dropEmpty = sp := by
  have hkeep : ∀ {o : Option GoString}, o ≠ some [] → o.filter (· ≠ []) = o := by
    intro o ho
    cases o with
    | none => rfl
    | some p =>
      have hp : p ≠ [] := fun heq => ho (heq ▸ rfl)
      simp [hp]
  rw [dropEmpty, hkeep htidy.host, hkeep htidy.namespace_, hkeep htidy.tag, ← htidy.more]

end Spelling

end Prismalama.Ollama
