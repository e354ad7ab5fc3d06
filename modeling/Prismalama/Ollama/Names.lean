import Prismalama.Ollama.DiskCache

/-!
# Model names (`server/internal/internal/names/name.go`)

A name has a host, a namespace, a model and a tag. The parts of a valid name are made
of letters, digits and a few other ASCII characters, so that a name and the path of its
manifest determine each other.
-/

namespace Prismalama.Ollama

open Prismalama.Lib

structure Name where
  h : GoString
  n : GoString
  m : GoString
  t : GoString
  deriving DecidableEq, Repr

inductive Part
  | partHost
  | partNamespace
  | partModel
  | partTag
  deriving DecidableEq

namespace Name

/-- The string before the last character that `p` picks, that character and the rest. -/
def cutLast (p : UInt8 → Bool) : GoString → Option (GoString × UInt8 × GoString)
  | [] => none
  | b :: s =>
    match cutLast p s with
    | some (before, sep, after) => some (b :: before, sep, after)
    | none => if p b then some ([], b, s) else none

/-- The loop of `Parse`, with the tag found so far. -/
def parseFrom : Nat → GoString → GoString → Name
  | 0, s, tag => ⟨[], [], s, tag⟩
  | fuel + 1, s, tag =>
    match cutLast (fun b => b == 0x2F || b == 0x3A) s with
    | none => ⟨[], [], s, tag⟩
    | some (before, sep, tail) =>
      if sep = 0x3A then parseFrom fuel before tail
      else
        match cutLast (· == 0x2F) before with
        | some (host, _, space) => ⟨host, space, tail, tag⟩
        | none => ⟨[], before, tail, tag⟩

def maxNameLength : Nat := 350 + 1 + 80 + 1 + 80 + 1 + 80

/-- `Parse` -/
def parse (s : GoString) : Name :=
  if maxNameLength < s.length then ⟨[], [], [], []⟩ else parseFrom (s.length + 1) s []

def isAlphanumericOrUnderscore (c : UInt8) : Bool :=
  decide (0x41 ≤ c ∧ c ≤ 0x5A) || decide (0x61 ≤ c ∧ c ≤ 0x7A) || decide (0x30 ≤ c ∧ c ≤ 0x39) ||
    c == 0x5F

def maxlen (kind : Part) : Nat := if kind = .partHost then 350 else 80

/-- The characters behind the first one. -/
def isValidByte (kind : Part) (c : UInt8) : Bool :=
  c == 0x5F || c == 0x2D || (c == 0x2E && decide (kind ≠ .partNamespace)) ||
    (c == 0x3A && decide (kind = .partHost)) || isAlphanumericOrUnderscore c

/-- `isValidPart`. The loop is over runes, and the first byte of one that has several is
not valid. -/
def isValidPart (kind : Part) (s : GoString) : Bool :=
  decide (s.length ≤ maxlen kind) &&
    match s with
    | [] => true
    | b :: rest => isAlphanumericOrUnderscore b && rest.all (isValidByte kind)

/-- `IsValid` -/
def isValid (n : Name) : Bool :=
  (decide (n.h = []) || isValidPart .partHost n.h) &&
    (decide (n.n = []) || isValidPart .partNamespace n.n) &&
    (decide (n.t = []) || isValidPart .partTag n.t) && (decide (n.m ≠ []) && isValidPart .partModel n.m)

/-- `IsFullyQualified` -/
def isFullyQualified (n : Name) : Bool :=
  n.isValid && decide (n.h ≠ []) && decide (n.n ≠ []) && decide (n.m ≠ []) && decide (n.t ≠ [])

/-- `filepath.Join` of the parts. No part of a valid name is empty, a dot, two dots or
has a slash, and there is nothing to clean. -/
def path (n : Name) : GoString := n.h ++ 0x2F :: (n.n ++ 0x2F :: (n.m ++ 0x2F :: n.t))

/-! ## Letter case -/

open DiskCache (foldByte)

/-- The name in lower case; `Compare` finds two names equal when these are. -/
def fold (n : Name) : Name :=
  ⟨n.h.map foldByte, n.n.map foldByte, n.m.map foldByte, n.t.map foldByte⟩

theorem foldByte_eq_slash {b : UInt8} : foldByte b = 0x2F ↔ b = 0x2F := by
  unfold foldByte
  grind

theorem slash_not_mem_of_valid {kind : Part} {s : GoString} (h : isValidPart kind s = true) :
    0x2F ∉ s.map foldByte := by
  intro hmem
  obtain ⟨b, hb, hfold⟩ := List.mem_map.mp hmem
  obtain rfl := foldByte_eq_slash.mp hfold
  unfold isValidPart at h
  have hparts := (Bool.and_eq_true_iff.mp h).2
  cases s with
  | nil => cases hb
  | cons c rest =>
    obtain ⟨hfirst, hrest⟩ := Bool.and_eq_true_iff.mp hparts
    rcases List.mem_cons.mp hb with rfl | hin
    · cases hfirst
    · have hbyte := List.all_eq_true.mp hrest _ hin
      revert hbyte
      cases kind <;> decide

/-- Two strings are cut at their first separators alike. -/
theorem append_sep_inj {sep : UInt8} {a a' b b' : GoString} (ha : sep ∉ a) (ha' : sep ∉ a')
    (h : a ++ sep :: b = a' ++ sep :: b') : a = a' ∧ b = b' := by
  induction a generalizing a' with
  | nil =>
    cases a' with
    | nil => exact ⟨rfl, (List.cons.inj h).2⟩
    | cons c a' => exact absurd ((List.cons.inj h).1 ▸ List.mem_cons_self) ha'
  | cons c a ih =>
    cases a' with
    | nil => exact absurd ((List.cons.inj h).1 ▸ List.mem_cons_self) ha
    | cons c' a' =>
      obtain ⟨rfl, hrest⟩ := List.cons.inj h
      obtain ⟨rfl, rfl⟩ := ih (fun hm => ha (List.mem_cons_of_mem _ hm))
        (fun hm => ha' (List.mem_cons_of_mem _ hm)) hrest
      exact ⟨rfl, rfl⟩

theorem valid_parts {n : Name} (h : n.isFullyQualified = true) :
    0x2F ∉ n.h.map foldByte ∧ 0x2F ∉ n.n.map foldByte ∧ 0x2F ∉ n.m.map foldByte := by
  simp only [isFullyQualified, isValid, Bool.and_eq_true, Bool.or_eq_true, decide_eq_true_eq] at h
  obtain ⟨⟨⟨⟨⟨⟨⟨hh, hn⟩, -⟩, -, hm⟩, hhne⟩, hnne⟩, -⟩, -⟩ := h
  exact ⟨slash_not_mem_of_valid (hh.resolve_left hhne),
    slash_not_mem_of_valid (hn.resolve_left hnne), slash_not_mem_of_valid hm⟩

/-- The paths of two names are equal up to letter case if the names are. -/
theorem path_fold_inj {a b : Name} (ha : a.isFullyQualified = true)
    (hb : b.isFullyQualified = true) :
    a.path.map foldByte = b.path.map foldByte ↔ a.fold = b.fold := by
  obtain ⟨hah, han, ham⟩ := valid_parts ha
  obtain ⟨hbh, hbn, hbm⟩ := valid_parts hb
  have hpath : ∀ n : Name, n.path.map foldByte = n.fold.h ++ 0x2F :: (n.fold.n ++
      0x2F :: (n.fold.m ++ 0x2F :: n.fold.t)) := by
    intro n
    simp only [path, fold, List.map_append, List.map_cons]
    rfl
  rw [hpath, hpath]
  constructor
  · intro heq
    obtain ⟨hh, heq⟩ := append_sep_inj hah hbh heq
    obtain ⟨hn, heq⟩ := append_sep_inj han hbn heq
    obtain ⟨hm, ht⟩ := append_sep_inj ham hbm heq
    unfold fold
    rw [Name.mk.injEq]
    exact ⟨hh, hn, hm, ht⟩
  · intro heq
    rw [heq]

end Name

/-- `nameToPath` -/
def nameToPath (name : GoString) : Option GoString :=
  if (Name.parse name).isFullyQualified then some (Name.parse name).path else none

example : Name.parse (lit "h:80/n/m:t") = ⟨lit "h:80", lit "n", lit "m", lit "t"⟩ := by
  decide

end Prismalama.Ollama
