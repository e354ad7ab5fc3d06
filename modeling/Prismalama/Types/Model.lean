import Prismalama.Ollama.Spelling
import Prismalama.Server.Images
import Prismalama.Lib.Paths

/-!
# Model names (`types/model/name.go`)

A name is cut from the right. A separator promises a part on both of its sides, and one that is
empty becomes a text which is no valid part. The printers leave out what `ParseName` puts back.
-/

namespace Prismalama.Types

open Prismalama.Lib Prismalama.Ollama Prismalama.Server.Images

/-- `MissingPart` -/
def missingPart : GoString := lit "!MISSING!"

def defaultHost : GoString := lit "registry.ollama.ai"

def defaultNamespace : GoString := lit "library"

def defaultTag : GoString := lit "latest"

def defaultProtocolScheme : GoString := lit "https"

structure Name where
  host : GoString
  namespace_ : GoString
  model : GoString
  tag : GoString
  protocolScheme : GoString
  deriving DecidableEq

/-- `DefaultName` -/
def defaultName : Name :=
  ⟨defaultHost, defaultNamespace, [], defaultTag, defaultProtocolScheme⟩

/-- `cutLast`, for a separator of one byte -/
def cutLast (s : GoString) (sep : UInt8) : GoString × GoString × Bool :=
  match Name.cutLast (· == sep) s with
  | some (before, _, after) => (before, after, true)
  | none => (s, [], false)

/-- `cutPromised` -/
def cutPromised (s : GoString) (sep : UInt8) : GoString × GoString × Bool :=
  match cutLast s sep with
  | (before, after, false) => (before, after, false)
  | (before, after, true) => (Name.cmpOr before missingPart, Name.cmpOr after missingPart, true)

/-- `strings.LastIndex`, for one byte -/
def lastIndex (s : GoString) (sep : UInt8) : Int :=
  match Name.cutLast (· == sep) s with
  | some (before, _, _) => before.length
  | none => -1

/-- `strings.Cut` -/
def cut (s sep : GoString) : GoString × GoString × Bool :=
  match index s sep with
  | some i => (s.take i, s.drop (i + sep.length), true)
  | none => (s, [], false)

namespace Name

/-- The end of `ParseNameBare`, with the tag. -/
def parseParts (s tag : GoString) : Name :=
  match cutPromised s 0x2F with
  | (s, _, false) => ⟨[], [], s, tag, []⟩
  | (s, model, true) =>
    match cutPromised s 0x2F with
    | (s, _, false) => ⟨[], s, model, tag, []⟩
    | (s, space, true) =>
      match cut s (lit "://") with
      | (scheme, host, true) => ⟨host, space, model, tag, scheme⟩
      | (scheme, _, false) => ⟨scheme, space, model, tag, []⟩

/-- `ParseNameBare` -/
def parseNameBare (s : GoString) : Name :=
  if lastIndex s 0x2F < lastIndex s 0x3A then
    parseParts (cutPromised s 0x3A).1 (cutPromised s 0x3A).2.1
  else parseParts s []

/-- `Merge` -/
def merge (a b : Name) : Name :=
  ⟨Name.cmpOr a.host b.host, Name.cmpOr a.namespace_ b.namespace_, a.model,
    Name.cmpOr a.tag b.tag, Name.cmpOr a.protocolScheme b.protocolScheme⟩

/-- `ParseName` -/
def parseName (s : GoString) : Name := (parseNameBare s).merge defaultName

/-- `IsFullyQualified` -/
def isFullyQualified (n : Name) : Bool :=
  isValidPart .kindHost n.host && isValidPart .kindNamespace n.namespace_ &&
    isValidPart .kindModel n.model && isValidPart .kindTag n.tag

/-- `ParseNameFromFilepath` -/
def parseNameFromFilepath (s : GoString) : Name :=
  match splitSep 0x2F s with
  | [host, space, model, tag] =>
    if isFullyQualified ⟨host, space, model, tag, []⟩ = true then ⟨host, space, model, tag, []⟩
    else ⟨[], [], [], [], []⟩
  | _ => ⟨[], [], [], [], []⟩

/-- `String` -/
def toString (n : Name) : GoString :=
  (if n.host ≠ [] then n.host ++ [0x2F] else []) ++
    (if n.namespace_ ≠ [] then n.namespace_ ++ [0x2F] else []) ++ n.model ++
    (if n.tag ≠ [] then 0x3A :: n.tag else [])

/-- `DisplayShortest` -/
def displayShortest (n : Name) : GoString :=
  (if DiskCache.equalFold n.host defaultHost = false then
      n.host ++ [0x2F] ++ (n.namespace_ ++ [0x2F])
    else if DiskCache.equalFold n.namespace_ defaultNamespace = false then n.namespace_ ++ [0x2F]
    else []) ++ n.model ++ [0x3A] ++ n.tag

/-- `filepath.Join`: the parts that are not empty with slashes between them, cleaned. A byte
stands for the rune of its number, as only dots and slashes count. -/
def filepathJoin (parts : List GoString) : GoString :=
  let elems := parts.filter (· ≠ [])
  if elems = [] then []
  else
    (clean (joinSlash (elems.map fun p => p.map fun b => Char.ofNat b.toNat))).map
      fun c => UInt8.ofNat c.toNat

/-- `Filepath`, of a name that is fully qualified; the others panic. -/
def filepath (n : Name) : Option GoString :=
  if n.isFullyQualified = true then some (filepathJoin [n.host, n.namespace_, n.model, n.tag])
  else none

/-- `EqualFold` -/
def equalFold (n o : Name) : Bool :=
  DiskCache.equalFold n.host o.host && DiskCache.equalFold n.namespace_ o.namespace_ &&
    DiskCache.equalFold n.model o.model && DiskCache.equalFold n.tag o.tag

end Name

/-! ## Cutting at separators -/

theorem cutLast_append {before after : GoString} {sep : UInt8} (h : sep ∉ after) :
    Ollama.Name.cutLast (· == sep) (before ++ sep :: after) = some (before, sep, after) :=
  @Ollama.Name.cutLast_append (· == sep) sep (beq_self_eq_true sep) before after fun _ hc =>
    beq_eq_false_iff_ne.mpr fun heq => h (heq ▸ hc)

theorem cutLast_none {s : GoString} {sep : UInt8} (h : sep ∉ s) :
    Ollama.Name.cutLast (· == sep) s = none :=
  Ollama.Name.cutLast_none fun _ hc => beq_eq_false_iff_ne.mpr fun heq => h (heq ▸ hc)

theorem cutPromised_append {before after : GoString} {sep : UInt8} (h : sep ∉ after) :
    cutPromised (before ++ sep :: after) sep =
      (Ollama.Name.cmpOr before missingPart, Ollama.Name.cmpOr after missingPart, true) := by
  rw [cutPromised, cutLast, cutLast_append h]

theorem cutPromised_none {s : GoString} {sep : UInt8} (h : sep ∉ s) :
    cutPromised s sep = (s, [], false) := by
  rw [cutPromised, cutLast, cutLast_none h]

theorem lastIndex_append {before after : GoString} {sep : UInt8} (h : sep ∉ after) :
    lastIndex (before ++ sep :: after) sep = before.length := by
  rw [lastIndex, cutLast_append h]

/-- A separator that is not in the end of a string is found before it. -/
theorem lastIndex_lt (before : GoString) {after : GoString} {sep : UInt8} (h : sep ∉ after) :
    lastIndex (before ++ after) sep < before.length := by
  rcases Ollama.Name.exists_cut (· == sep) before with hnone | ⟨x, b, y, rfl, hb, hy⟩
  · have hsep : sep ∉ before ++ after := by
      rintro hmem
      rcases List.mem_append.mp hmem with hmem | hmem
      · exact absurd (hnone sep hmem) (by simp)
      · exact h hmem
    rw [lastIndex, cutLast_none hsep]
    show (-1 : Int) < _
    omega
  · obtain rfl := eq_of_beq hb
    have hsep : b ∉ y ++ after := by
      intro hmem
      rcases List.mem_append.mp hmem with hmem | hmem
      · exact absurd (hy b hmem) (by simp)
      · exact h hmem
    rw [List.append_assoc, List.cons_append, lastIndex_append hsep, List.length_append,
      List.length_cons]
    omega

theorem cut_of_not_contains {s sep : GoString} (h : contains s sep = false) :
    cut s sep = (s, [], false) := by
  have hnone : index s sep = none := by simpa [contains] using h
  rw [cut, hnone]

theorem not_contains_of_not_mem {s sep : GoString} {c : UInt8} (hc : c ∈ sep) (h : c ∉ s) :
    contains s sep = false := by
  cases hidx : index s sep with
  | none => rw [contains, hidx]; rfl
  | some i =>
    refine absurd ?_ h
    rw [eq_append_of_index hidx]
    exact List.mem_append_left _ (List.mem_append_right _ hc)

theorem contains_append {s sep : GoString} (t : GoString) (h : contains s sep = true) :
    contains (s ++ t) sep = true := by
  obtain ⟨i, hi⟩ := Option.isSome_iff_exists.mp h
  induction s generalizing i with
  | nil =>
    unfold index at hi
    split at hi
    · rename_i hpre
      obtain rfl := List.prefix_nil.mp (List.isPrefixOf_iff_prefix.mp hpre)
      cases t <;> rfl
    · cases hi
  | cons b s ih =>
    unfold contains
    rw [List.cons_append, index]
    unfold index at hi
    split
    · rfl
    · next hnot =>
      split at hi
      · next hpre =>
        have hprefix := (List.isPrefixOf_iff_prefix.mp hpre).trans (List.prefix_append (b :: s) t)
        exact absurd (List.isPrefixOf_iff_prefix.mpr hprefix) hnot
      · obtain ⟨j, hj, -⟩ := Option.map_eq_some_iff.mp hi
        have hrest := ih (by rw [contains, hj]; rfl) j hj
        rw [Option.isSome_map]
        exact hrest

theorem cmpOr_of_ne {a b : GoString} (h : a ≠ []) : Ollama.Name.cmpOr a b = a := if_neg h

/-! ## `ParseNameBare` of a spelling -/

/-- A part beside a separator. -/
def promised : Option GoString → GoString
  | none => []
  | some p => Ollama.Name.cmpOr p missingPart

namespace Name

theorem parseParts_model {m : GoString} (h : 0x2F ∉ m) (tag : GoString) :
    parseParts m tag = ⟨[], [], m, tag, []⟩ := by
  rw [parseParts, cutPromised_none h]

/-- What is before the tag, with a slash. -/
theorem parseParts_front {sp : Spelling} (hcut : sp.Cut) {n : GoString} (hn : sp.n = some n)
    (hscheme : ∀ h ∈ sp.h, contains h (lit "://") = false) (tag : GoString) :
    parseParts (sp.front ++ sp.m) tag =
      ⟨promised sp.h, promised sp.n, Ollama.Name.cmpOr sp.m missingPart, tag, []⟩ := by
  have hm : 0x2F ∉ sp.m := fun hmem => (hcut.model _ hmem).1 rfl
  have hslash := hcut.namespace_ n hn
  rw [Spelling.front_of_namespace hn, List.append_assoc, List.singleton_append, parseParts,
    cutPromised_append hm]
  dsimp only
  cases hh : sp.h with
  | none =>
    have hspace : 0x2F ∉ Ollama.Name.cmpOr n missingPart := by
      unfold Ollama.Name.cmpOr
      split
      · decide
      · exact hslash
    rw [Spelling.slashed, List.nil_append, cutPromised_none hspace, hn]
    rfl
  | some h =>
    have hne : (h ++ [0x2F]) ++ n ≠ [] := by simp
    rw [Spelling.slashed, cmpOr_of_ne hne, List.append_assoc, List.singleton_append,
      cutPromised_append hslash]
    dsimp only
    have hhost : contains (Ollama.Name.cmpOr h missingPart) (lit "://") = false := by
      unfold Ollama.Name.cmpOr
      split
      · decide
      · exact hscheme h hh
    rw [cut_of_not_contains hhost, hn]
    rfl

/-- The model of a spelling, which a slash or a colon promises. -/
def promisedModel (sp : Spelling) : GoString :=
  if sp.n.isSome = true ∨ sp.t.isSome = true then Ollama.Name.cmpOr sp.m missingPart else sp.m

theorem parseNameBare_text {sp : Spelling} (hcut : sp.Cut) (hmore : sp.more = [])
    (hscheme : ∀ h ∈ sp.h, contains h (lit "://") = false) : parseNameBare sp.text =
      ⟨promised sp.h, promised sp.n, promisedModel sp, promised sp.t, []⟩ := by
  have hslash : 0x2F ∉ sp.m := fun hmem => (hcut.model _ hmem).1 rfl
  have hcolon : 0x3A ∉ sp.m := fun hmem => (hcut.model _ hmem).2 rfl
  have hhost : sp.n = none → sp.h = none := fun hn => by
    cases hh : sp.h with
    | none => rfl
    | some h => exact absurd (hcut.host (hh ▸ rfl)) (by simp [hn])
  rw [Spelling.text_of_more hmore]
  cases ht : sp.t with
  | none =>
    -- a colon can only be in the host or the namespace
    have hle : ¬lastIndex (sp.front ++ sp.m) 0x2F < lastIndex (sp.front ++ sp.m) 0x3A := by
      cases hn : sp.n with
      | none =>
        rw [Spelling.front_of_none hcut hn, List.nil_append, lastIndex, lastIndex,
          cutLast_none hslash, cutLast_none hcolon]
        exact lt_irrefl _
      | some n =>
        rw [Spelling.front_of_namespace hn, List.append_assoc, List.singleton_append,
          lastIndex_append hslash]
        have hlt := lastIndex_lt (Spelling.slashed sp.h ++ n)
          (show 0x3A ∉ 0x2F :: sp.m from List.not_mem_cons_of_ne_of_not_mem (by decide) hcolon)
        omega
    rw [Spelling.coloned, List.append_nil, parseNameBare, if_neg hle]
    cases hn : sp.n with
    | none =>
      rw [Spelling.front_of_none hcut hn, List.nil_append, parseParts_model hslash, hhost hn,
        promisedModel, if_neg (by simp [hn, ht])]
      rfl
    | some n =>
      rw [parseParts_front hcut hn hscheme, promisedModel, if_pos (by simp [hn]), hn]
      rfl
  | some t =>
    have htslash : 0x2F ∉ 0x3A :: t := List.not_mem_cons_of_ne_of_not_mem (by decide)
      fun hmem => (hcut.tag t ht _ hmem).1 rfl
    have htcolon : 0x3A ∉ t := fun hmem => (hcut.tag t ht _ hmem).2 rfl
    have hlt : lastIndex (sp.front ++ sp.m ++ 0x3A :: t) 0x2F <
        lastIndex (sp.front ++ sp.m ++ 0x3A :: t) 0x3A := by
      rw [lastIndex_append htcolon]
      exact lastIndex_lt _ htslash
    rw [Spelling.coloned, parseNameBare, if_pos hlt, cutPromised_append htcolon, promisedModel,
      if_pos (by simp [ht])]
    dsimp only
    cases hn : sp.n with
    | none =>
      have hmodel : 0x2F ∉ Ollama.Name.cmpOr sp.m missingPart := by
        unfold Ollama.Name.cmpOr
        split
        · decide
        · exact hslash
      rw [Spelling.front_of_none hcut hn, List.nil_append, parseParts_model hmodel, hhost hn]
      rfl
    | some n =>
      have hne : sp.front ++ sp.m ≠ [] := by
        rw [Spelling.front_of_namespace hn]
        simp
      rw [cmpOr_of_ne hne, parseParts_front hcut hn hscheme, hn]
      rfl

end Name

end Prismalama.Types
