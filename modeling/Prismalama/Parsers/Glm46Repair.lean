import Prismalama.Lib.TagStream

/-!
# The repair of GLM tool calls (`model/parsers/glm46.go`)

`repairGLM46XML` walks through the tags of a text in the order they should have, and puts in those
that are missing. A text is read as runes and tags (`lex`); no tag can begin inside another one, so
reading goes through at every `<` (`lex_append`). The repair gives whole cycles, and loses nothing
unless something follows a closing tag that is the last one (`repaired_iff`).
-/

namespace Prismalama.Parsers.Glm46

open Prismalama.Lib

/-- `repairPhase`, the next tag that is expected -/
inductive Phase
  | argKeyOpen
  | argKeyClose
  | argValOpen
  | argValClose
  deriving DecidableEq

namespace Phase

def tag : Phase → List Char
  | argKeyOpen => "<arg_key>".toList
  | argKeyClose => "</arg_key>".toList
  | argValOpen => "<arg_value>".toList
  | argValClose => "</arg_value>".toList

/-- `(phase + 1) % phaseCount` -/
def next : Phase → Phase
  | argKeyOpen => argKeyClose
  | argKeyClose => argValOpen
  | argValOpen => argValClose
  | argValClose => argKeyOpen

/-- `phase%2 == 0` -/
def isOpen : Phase → Bool
  | argKeyOpen => true
  | argKeyClose => false
  | argValOpen => true
  | argValClose => false

end Phase

def tagCycle : List Phase := [.argKeyOpen, .argKeyClose, .argValOpen, .argValClose]

/-- `strings.Index`; `none` for -1 -/
def index (s substr : List Char) : Option Nat := (cut substr s).map fun p => p.1.length

/-- `findNextTag`; `none` for the index -1 -/
def findNextTag (s : List Char) : Option (Nat × Phase) :=
  tagCycle.foldl (fun best tag =>
    match index s tag.tag with
    | some idx => if best.all fun b => idx < b.1 then some (idx, tag) else best
    | none => best) none

/-- The loop that emits missing tags, of at most `fuel` rounds: what is written, and what is left of
the text before the found tag. -/
def emitMissing (foundIdx : Phase) : Nat → Phase → List Char → List Char × List Char
  | 0, _, text => ([], text)
  | fuel + 1, phase, text =>
    if phase = foundIdx then ([], text)
    else
      let before := if phase.isOpen = false ∧ phase.next = foundIdx then text else []
      let text := if phase.isOpen = false ∧ phase.next = foundIdx then [] else text
      let rest := emitMissing foundIdx fuel phase.next text
      (before ++ phase.tag ++ rest.1, rest.2)

/-- The end, which closes what is open. -/
def finish : Phase → List Char
  | .argKeyOpen => []
  | .argKeyClose => Phase.tag .argKeyClose ++ Phase.tag .argValOpen ++ Phase.tag .argValClose
  | .argValOpen => Phase.tag .argValOpen ++ Phase.tag .argValClose
  | .argValClose => Phase.tag .argValClose

/-- The walk through the cycle, of at most `fuel` rounds: what is written from now on. -/
def walk : Nat → Phase → List Char → Option (List Char)
  | 0, _, _ => none
  | fuel + 1, phase, s =>
    if s = [] then some (finish phase)
    else
      match findNextTag s with
      | none =>
        if phase.isOpen = true then some (finish phase)
        else some (s ++ phase.tag ++ finish phase.next)
      | some (idx, found) =>
        if found = phase then
          (walk fuel phase.next (s.drop (idx + phase.tag.length))).map fun out =>
            s.take idx ++ phase.tag ++ out
        else if phase.isOpen = true ∧ 0 < idx then
          (walk fuel phase.next (s.drop idx)).map fun out => phase.tag ++ s.take idx ++ out
        else
          let missing := emitMissing found 3 phase (s.take idx)
          (walk fuel found (missing.2 ++ s.drop idx)).map fun out => missing.1 ++ out

/-- `repairGLM46XML`; `none` is a walk that does not end. -/
def repairGLM46XML (s : List Char) : Option (List Char) :=
  match findNextTag s with
  | none => some s
  | some (idx, firstTag) =>
    let before := s.take idx
    let rest := s.drop idx
    if firstTag ≠ .argKeyOpen then
      match before.findIdx? isSpace with
      | some spIdx =>
        (walk (2 * rest.length + 2) .argKeyClose rest).map fun out =>
          before.take spIdx ++ Phase.tag .argKeyOpen ++ trimLeft (before.drop spIdx) ++ out
      | none => (walk (2 * rest.length + 2) .argKeyOpen rest).map fun out => before ++ out
    else (walk (2 * rest.length + 2) .argKeyOpen rest).map fun out => before ++ out

/-! ## Runes and tags -/

inductive Item
  | rune (r : Char)
  | tag (p : Phase)
  deriving DecidableEq

/-- The tag that the text starts with. -/
def tagAt (s : List Char) : Option Phase := tagCycle.find? fun p => p.tag.isPrefixOf s

/-- The runes and tags, after `skip` runes. -/
def lexFrom : Nat → List Char → List Item
  | _, [] => []
  | skip + 1, _ :: s => lexFrom skip s
  | 0, c :: s =>
    match tagAt (c :: s) with
    | some p => .tag p :: lexFrom (p.tag.length - 1) s
    | none => .rune c :: lexFrom 0 s

def lex (s : List Char) : List Item := lexFrom 0 s

/-- The tags among the items. -/
def tags (xs : List Item) : List Phase :=
  xs.filterMap fun
    | .tag p => some p
    | .rune _ => none

/-- The text without the tags. -/
def text (xs : List Item) : List Char :=
  xs.filterMap fun
    | .rune r => some r
    | .tag _ => none

/-- What is behind the last tag. -/
def tail : List Item → List Char
  | [] => []
  | .rune r :: xs => if tags xs = [] then r :: tail xs else tail xs
  | .tag _ :: xs => tail xs

/-- The tag that is expected after the tags, if they come in the order of the cycle. -/
def follows : Phase → List Phase → Option Phase
  | phase, [] => some phase
  | phase, p :: ps => if p = phase then follows phase.next ps else none

/-- The tags are whole cycles. -/
def Cycles (ps : List Phase) : Prop := follows .argKeyOpen ps = some .argKeyOpen

/-- The text without white space. -/
def nonBlank (s : List Char) : List Char := s.filter fun r => !isSpace r

/-- The text is repaired, and nothing is lost. -/
structure Repaired (s r : List Char) : Prop where
  cycles : tags (lex s) ≠ [] → Cycles (tags (lex r))
  text : nonBlank (text (lex r)) = nonBlank (text (lex s))
  same : Cycles (tags (lex s)) → ∃ w, Blank w ∧ s = r ++ w

/-- After a closing tag that is the last one there is only white space. -/
def EndsClean (s : List Char) : Prop :=
  ∀ p, (tags (lex s)).getLast? = some p → p.isOpen = false → Blank (tail (lex s))

/-! ## Reading -/

theorem tag_shape (p : Phase) : ∃ body, p.tag = '<' :: body ∧ '<' ∉ body := by
  cases p
  · exact ⟨"arg_key>".toList, rfl, by decide⟩
  · exact ⟨"/arg_key>".toList, rfl, by decide⟩
  · exact ⟨"arg_value>".toList, rfl, by decide⟩
  · exact ⟨"/arg_value>".toList, rfl, by decide⟩

theorem tag_ne_nil (p : Phase) : p.tag ≠ [] := by
  obtain ⟨body, hbody, -⟩ := tag_shape p
  rw [hbody]
  exact List.cons_ne_nil _ _

theorem mem_tagCycle (p : Phase) : p ∈ tagCycle := by
  cases p <;> decide

/-- No tag is the beginning of another one. -/
theorem tag_eq_of_starts {p q : Phase} {s : List Char} (hp : p.tag <+: s) (hq : q.tag <+: s) : p = q := by
  have hnone : ∀ p ∈ tagCycle, ∀ q ∈ tagCycle, p.tag <+: q.tag → p = q := by
    decide
  rcases List.prefix_or_prefix_of_prefix hp hq with h | h
  · exact hnone p (mem_tagCycle p) q (mem_tagCycle q) h
  · exact (hnone q (mem_tagCycle q) p (mem_tagCycle p) h).symm

theorem prefix_of_tagAt {s : List Char} {p : Phase} (h : tagAt s = some p) : p.tag <+: s :=
  List.isPrefixOf_iff_prefix.mp (@List.find?_some _ (fun p : Phase => p.tag.isPrefixOf s) _ _ h)

theorem tagAt_eq_some_iff {s : List Char} {p : Phase} : tagAt s = some p ↔ p.tag <+: s := by
  constructor
  · exact prefix_of_tagAt
  · intro h
    cases hfind : tagAt s with
    | some q => rw [tag_eq_of_starts h (prefix_of_tagAt hfind)]
    | none =>
      exact absurd (List.isPrefixOf_iff_prefix.mpr h)
        (List.find?_eq_none.mp hfind p (mem_tagCycle p))

theorem tagAt_eq_none_iff {s : List Char} : tagAt s = none ↔ ∀ p : Phase, ¬p.tag <+: s := by
  rw [Option.eq_none_iff_forall_ne_some]
  exact forall_congr' fun p => not_congr tagAt_eq_some_iff

theorem lexFrom_eq (skip : Nat) (s : List Char) : lexFrom skip s = lex (s.drop skip) := by
  induction s generalizing skip with
  | nil => rw [List.drop_nil, lex, lexFrom, lexFrom]
  | cons c s ih =>
    cases skip with
    | zero => rfl
    | succ skip => rw [lexFrom, ih, List.drop_succ_cons]

@[simp] theorem lex_nil : lex [] = [] := rfl

/-- A tag is read as one. -/
theorem lex_tag (p : Phase) (s : List Char) : lex (p.tag ++ s) = .tag p :: lex s := by
  obtain ⟨body, hbody, -⟩ := tag_shape p
  have hat : tagAt ('<' :: (body ++ s)) = some p := tagAt_eq_some_iff.mpr ⟨s, by rw [hbody]; rfl⟩
  rw [hbody, List.cons_append, lex, lexFrom, hat]
  simp only
  rw [lexFrom_eq, hbody, List.length_cons, Nat.add_sub_cancel, List.drop_left]

theorem lex_rune {c : Char} {s : List Char} (h : ∀ p : Phase, ¬p.tag <+: c :: s) :
    lex (c :: s) = .rune c :: lex s := by
  rw [lex, lexFrom, tagAt_eq_none_iff.mpr h]
  rfl

/-- What the text starts with is a `<`. -/
def Starts (s : List Char) : Prop := ∀ r ∈ s.head?, r = '<'

theorem Starts.append {a b : List Char} (ha : Starts a) (hb : Starts b) : Starts (a ++ b) := by
  cases a with
  | nil => exact hb
  | cons c a => exact ha

theorem starts_nil : Starts [] := fun _ h => absurd h nofun

/-- A tag at the start of a text that goes on with a `<` ends before that. -/
theorem prefix_of_prefix_append {p : Phase} {c : Char} {a b : List Char}
    (hb : Starts b) (h : p.tag <+: (c :: a) ++ b) : p.tag <+: c :: a := by
  obtain ⟨body, hbody, hnot⟩ := tag_shape p
  rcases Nat.le_total p.tag.length (c :: a).length with hle | hle
  · exact List.prefix_of_prefix_length_le h (List.prefix_append _ b) hle
  · obtain ⟨d, hd⟩ := List.prefix_of_prefix_length_le (List.prefix_append (c :: a) b) h hle
    cases d with
    | nil => exact ⟨[], by rw [List.append_nil, ← hd, List.append_nil]⟩
    | cons r d =>
      rw [← hd] at h
      obtain ⟨b', hb'⟩ := (List.prefix_append_right_inj (c :: a)).mp h
      have hr : r = '<' := hb r (by rw [← hb']; rfl)
      rw [hbody, List.cons_append] at hd
      obtain ⟨-, hd⟩ := List.cons.inj hd
      exact absurd (by rw [← hd, hr]; simp) hnot

/-- Reading goes through at a `<`. -/
theorem lex_append (a : List Char) {b : List Char} (hb : Starts b) :
    lex (a ++ b) = lex a ++ lex b := by
  induction hlen : a.length using Nat.strong_induction_on generalizing a with
  | _ n ih =>
    cases a with
    | nil => rfl
    | cons c a =>
      by_cases hex : ∃ p : Phase, p.tag <+: c :: a
      · obtain ⟨p, a', ha'⟩ := hex
        have hpos := List.length_pos_of_ne_nil (tag_ne_nil p)
        have hlt : a'.length < n := by
          rw [← hlen, ← ha', List.length_append]
          omega
        rw [← ha', List.append_assoc, lex_tag, lex_tag, ih _ hlt a' rfl, List.cons_append]
      · have hnot : ∀ p : Phase, ¬p.tag <+: c :: a := fun p hp => hex ⟨p, hp⟩
        have hnot' : ∀ p : Phase, ¬p.tag <+: c :: (a ++ b) := fun p hp =>
          hnot p (prefix_of_prefix_append hb hp)
        have hlt : a.length < n := by
          rw [← hlen, List.length_cons]
          omega
        rw [List.cons_append, lex_rune hnot', lex_rune hnot, ih _ hlt a rfl, List.cons_append]

theorem starts_tag (p : Phase) (s : List Char) : Starts (p.tag ++ s) := by
  obtain ⟨body, hbody, -⟩ := tag_shape p
  rw [hbody]
  intro r hr
  exact (Option.some.inj hr).symm

/-- A text around a tag. -/
theorem lex_append_tag (a : List Char) (p : Phase) (s : List Char) :
    lex (a ++ p.tag ++ s) = lex a ++ .tag p :: lex s := by
  rw [List.append_assoc, lex_append a (starts_tag p s), lex_tag]

/-- The text has no tags. -/
def Plain (a : List Char) : Prop := lex a = a.map Item.rune

theorem plain_of_free {a : List Char} (h : ∀ p : Phase, ¬p.tag <:+: a) : Plain a := by
  induction a with
  | nil => rfl
  | cons c a ih =>
    rw [Plain, lex_rune fun p hp => h p hp.isInfix, List.map_cons,
      ih fun p hp => h p (hp.trans (List.suffix_cons c a).isInfix)]

theorem Plain.free {a : List Char} (h : Plain a) (p : Phase) : ¬p.tag <:+: a := by
  rintro ⟨x, y, rfl⟩
  rw [Plain, lex_append_tag] at h
  have hmem : Item.tag p ∈ (x ++ p.tag ++ y).map Item.rune := by
    rw [← h]
    exact List.mem_append_right _ List.mem_cons_self
  obtain ⟨c, -, hc⟩ := List.mem_map.mp hmem
  exact absurd hc nofun

theorem Plain.part {a b : List Char} (h : Plain a) (hb : b <:+: a) : Plain b :=
  plain_of_free fun p hp => h.free p (hp.trans hb)

@[simp] theorem plain_nil : Plain [] := rfl

/-- A plain text, and a tag behind it. -/
theorem Plain.lex_append_tag {a : List Char} (h : Plain a) (p : Phase) (s : List Char) :
    lex (a ++ p.tag ++ s) = a.map Item.rune ++ .tag p :: lex s := by
  rw [Glm46.lex_append_tag, h]

@[simp] theorem tags_append (xs ys : List Item) : tags (xs ++ ys) = tags xs ++ tags ys :=
  List.filterMap_append

@[simp] theorem text_append (xs ys : List Item) : text (xs ++ ys) = text xs ++ text ys :=
  List.filterMap_append

@[simp] theorem tags_tag (p : Phase) (xs : List Item) : tags (.tag p :: xs) = p :: tags xs := rfl

@[simp] theorem text_tag (p : Phase) (xs : List Item) : text (.tag p :: xs) = text xs := rfl

@[simp] theorem tags_runes (a : List Char) : tags (a.map Item.rune) = [] := by
  induction a with
  | nil => rfl
  | cons c a ih => exact ih

@[simp] theorem text_runes (a : List Char) : text (a.map Item.rune) = a := by
  induction a with
  | nil => rfl
  | cons c a ih => exact congrArg (c :: ·) ih

@[simp] theorem tail_runes (a : List Char) : tail (a.map Item.rune) = a := by
  induction a with
  | nil => rfl
  | cons c a ih => rw [List.map_cons, tail, if_pos (tags_runes a), ih]

@[simp] theorem tail_append_tag (a : List Char) (p : Phase) (xs : List Item) :
    tail (a.map Item.rune ++ .tag p :: xs) = tail xs := by
  induction a with
  | nil => rfl
  | cons c a ih =>
    have hne : tags (a.map Item.rune ++ .tag p :: xs) ≠ [] := by
      rw [tags_append, tags_runes, tags_tag]
      exact List.cons_ne_nil _ _
    rw [List.map_cons, List.cons_append, tail, if_neg hne, ih]

/-! ## The next tag -/

/-- What the search has, after some of the tags: the first place of one of them. -/
structure Earliest (s : List Char) (ps : List Phase) (best : Option (Nat × Phase)) : Prop where
  place : ∀ i p, best = some (i, p) → index s p.tag = some i
  first : ∀ p ∈ ps, ∀ j, index s p.tag = some j → ∃ i q, best = some (i, q) ∧ i ≤ j

theorem earliest_foldl (s : List Char) (qs ps : List Phase) (best : Option (Nat × Phase))
    (h : Earliest s ps best) :
    Earliest s (ps ++ qs) (qs.foldl (fun best tag =>
      match index s tag.tag with
      | some idx => if best.all fun b => idx < b.1 then some (idx, tag) else best
      | none => best) best) := by
  induction qs generalizing ps best with
  | nil => rwa [List.append_nil]
  | cons q qs ih =>
    rw [List.append_cons, List.foldl_cons]
    refine ih (ps ++ [q]) _ ?_
    cases hq : index s q.tag with
    | none =>
      refine ⟨h.place, fun p hp j hj => ?_⟩
      rcases List.mem_append.mp hp with hp | hp
      · exact h.first p hp j hj
      · rw [List.mem_singleton.mp hp, hq] at hj
        exact absurd hj nofun
    | some idx =>
      simp only
      split
      · rename_i hall
        refine ⟨fun i p hip => ?_, fun p hp j hj => ⟨idx, q, rfl, ?_⟩⟩
        · cases hip
          exact hq
        · rcases List.mem_append.mp hp with hp | hp
          · obtain ⟨i, r, hbest, hi⟩ := h.first p hp j hj
            rw [hbest, Option.all_some, decide_eq_true_eq] at hall
            exact hall.le.trans hi
          · rw [List.mem_singleton.mp hp, hq] at hj
            exact (Option.some.inj hj).le
      · rename_i hall
        refine ⟨h.place, fun p hp j hj => ?_⟩
        rcases List.mem_append.mp hp with hp | hp
        · exact h.first p hp j hj
        · rw [List.mem_singleton.mp hp, hq] at hj
          cases best with
          | none => exact absurd rfl hall
          | some b =>
            rw [Option.all_some, decide_eq_true_eq, not_lt] at hall
            exact ⟨b.1, b.2, rfl, (Option.some.inj hj) ▸ hall⟩

theorem earliest_findNextTag (s : List Char) : Earliest s tagCycle (findNextTag s) :=
  earliest_foldl s tagCycle [] none ⟨fun _ _ h => absurd h nofun, fun _ h => absurd h List.not_mem_nil⟩

theorem index_eq_some {s p : List Char} {i : Nat} (h : index s p = some i) :
    cut p s = some (s.take i, s.drop (i + p.length)) := by
  obtain ⟨⟨a, b⟩, hcut, hlen⟩ := Option.map_eq_some_iff.mp h
  have hs := eq_of_cut hcut
  subst hlen
  rw [hcut, hs, List.append_assoc, List.take_left, ← List.drop_drop, List.drop_left, List.drop_left]

theorem plain_of_findNextTag {s : List Char} (h : findNextTag s = none) : Plain s := by
  refine plain_of_free fun p hp => ?_
  cases hcut : cut p.tag s with
  | none => exact cut_eq_none_iff.mp hcut hp
  | some ab =>
    obtain ⟨i, q, hiq, -⟩ := (earliest_findNextTag s).first p (mem_tagCycle p) ab.1.length (by
      rw [index, hcut, Option.map_some])
    rw [h] at hiq
    exact absurd hiq nofun

/-- The text before the next tag is plain. -/
theorem eq_of_findNextTag {s : List Char} {idx : Nat} {p : Phase}
    (h : findNextTag s = some (idx, p)) :
    s = s.take idx ++ p.tag ++ s.drop (idx + p.tag.length) ∧ Plain (s.take idx) := by
  have hcut := index_eq_some ((earliest_findNextTag s).place idx p h)
  have hs := eq_of_cut hcut
  refine ⟨hs, plain_of_free fun q hq => ?_⟩
  have hidx : idx ≤ s.length := by
    have hlen := congrArg List.length hs
    have hpos := List.length_pos_of_ne_nil (tag_ne_nil p)
    rw [List.length_append, List.length_append, List.length_take, List.length_drop] at hlen
    omega
  cases hcutq : cut q.tag (s.take idx) with
  | none => exact cut_eq_none_iff.mp hcutq hq
  | some ab =>
    obtain ⟨a, b⟩ := ab
    have hindex : index s q.tag = some a.length := by
      have happ := cut_append hcutq (s.drop idx)
      rw [List.take_append_drop] at happ
      rw [index, happ, Option.map_some]
    obtain ⟨i, r, hir, hle⟩ := (earliest_findNextTag s).first q (mem_tagCycle q) _ hindex
    rw [h] at hir
    cases hir
    have hlen := congrArg List.length (eq_of_cut hcutq)
    have hpos := List.length_pos_of_ne_nil (tag_ne_nil q)
    rw [List.length_take, List.length_append, List.length_append] at hlen
    omega

theorem lex_of_findNextTag {s : List Char} {idx : Nat} {p : Phase}
    (h : findNextTag s = some (idx, p)) :
    lex s = (s.take idx).map Item.rune ++ .tag p :: lex (s.drop (idx + p.tag.length)) := by
  obtain ⟨hs, hplain⟩ := eq_of_findNextTag h
  rw [← hplain.lex_append_tag, ← hs]

/-- What is left of the text starts with the tag. -/
theorem drop_of_findNextTag {s : List Char} {idx : Nat} {p : Phase}
    (h : findNextTag s = some (idx, p)) :
    s.drop idx = p.tag ++ s.drop (idx + p.tag.length) := by
  have hs := (eq_of_findNextTag h).1
  rw [List.append_assoc] at hs
  exact List.append_cancel_left ((List.take_append_drop idx s).trans hs)

/-- A tag at the start is the next one. -/
theorem findNextTag_tag (p : Phase) (s : List Char) : ∃ q, findNextTag (p.tag ++ s) = some (0, q) := by
  cases h : findNextTag (p.tag ++ s) with
  | none =>
    exact absurd (List.prefix_append p.tag s).isInfix ((plain_of_findNextTag h).free p)
  | some found =>
    obtain ⟨idx, q⟩ := found
    have hlex := lex_of_findNextTag h
    rw [lex_tag] at hlex
    cases idx with
    | zero => exact ⟨q, rfl⟩
    | succ idx =>
      obtain ⟨c, a, hca⟩ := List.exists_cons_of_ne_nil (List.append_ne_nil_of_left_ne_nil (tag_ne_nil p) s)
      rw [hca, List.take_succ_cons, List.map_cons, List.cons_append] at hlex
      exact absurd (List.cons.inj hlex).1 nofun

/-! ## Emitting the missing tags -/

theorem follows_append (ph : Phase) (ps qs : List Phase) :
    follows ph (ps ++ qs) = (follows ph ps).bind fun q => follows q qs := by
  induction ps generalizing ph with
  | nil => rfl
  | cons p ps ih =>
    rw [List.cons_append, follows, follows]
    split
    · exact ih ph.next
    · rfl

/-- What the loop writes before the tag `found`: the tags in between, and the text or nothing of it. -/
structure Emitted (ph found : Phase) (a : List Char) (out : List Char × List Char) : Prop where
  through : ∀ x, lex (out.1 ++ x) = lex out.1 ++ lex x
  tags : follows ph (tags (lex out.1)) = some found
  text : text (lex out.1) ++ out.2 = a
  left : out.2 = a ∨ out.2 = []
  starts : a = [] → Starts out.1

theorem emitted_emitMissing {found : Phase} (fuel : Nat) {ph : Phase} {a : List Char}
    (hplain : Plain a) (h : ∃ k ≤ fuel, Phase.next^[k] ph = found) :
    Emitted ph found a (emitMissing found fuel ph a) := by
  have hnone : ∀ a, Emitted found found a ([], a) := fun a =>
    ⟨fun _ => rfl, rfl, rfl, .inl rfl, fun _ => starts_nil⟩
  induction fuel generalizing ph a with
  | zero =>
    obtain ⟨k, hk, hph⟩ := h
    obtain rfl := Nat.le_zero.mp hk
    rw [Function.iterate_zero, id] at hph
    rw [emitMissing, hph]
    exact hnone a
  | succ fuel ih =>
    rw [emitMissing]
    split
    · rename_i heq
      rw [heq]
      exact hnone a
    · rename_i hne
      have hnext : ∃ k ≤ fuel, Phase.next^[k] ph.next = found := by
        obtain ⟨k, hk, hph⟩ := h
        cases k with
        | zero => exact absurd hph hne
        | succ k => exact ⟨k, Nat.le_of_succ_le_succ hk, hph⟩
      -- what is written before the tag, and what is left
      have hstep : ∀ before left : List Char, Plain before → Plain left → before ++ left = a →
          (left = a ∨ left = []) → Emitted ph found a
            (before ++ ph.tag ++ (emitMissing found fuel ph.next left).1,
              (emitMissing found fuel ph.next left).2) := by
        intro before left hbefore hleft ha hor
        have hrest := ih hleft hnext
        refine ⟨fun x => ?_, ?_, ?_, ?_, fun hnil => ?_⟩
        · rw [List.append_assoc (before ++ ph.tag), hbefore.lex_append_tag, hbefore.lex_append_tag,
            hrest.through, List.append_assoc, List.cons_append]
        · rw [hbefore.lex_append_tag, tags_append, tags_runes, tags_tag, List.nil_append, follows,
            if_pos rfl]
          exact hrest.tags
        · rw [hbefore.lex_append_tag, text_append, text_runes, text_tag, List.append_assoc,
            hrest.text, ha]
        · rcases hrest.left with hl | hl
          · rw [hl]
            exact hor
          · exact .inr hl
        · obtain ⟨hb, -⟩ := List.append_eq_nil_iff.mp (ha.trans hnil)
          rw [hb, List.nil_append]
          exact starts_tag ph _
      split
      · exact hstep a [] hplain plain_nil (List.append_nil a) (.inr rfl)
      · exact hstep [] a plain_nil hplain rfl (.inl rfl)

/-- Any tag is reached in at most three steps. -/
theorem exists_iterate_next (ph found : Phase) : ∃ k ≤ 3, Phase.next^[k] ph = found := by
  cases ph <;> cases found <;> decide

/-! ## The walk -/

/-- The phase behind the items. -/
def endPhase (ph : Phase) (xs : List Item) : Phase := (tags xs).foldl (fun _ p => p.next) ph

/-- What the walk drops: the text behind the last tag, when an opening tag is expected there. -/
def lost (ph : Phase) (xs : List Item) : List Char :=
  if (endPhase ph xs).isOpen = true then tail xs else []

@[simp] theorem lost_append_tag (ph : Phase) (a : List Char) (p : Phase) (xs : List Item) :
    lost ph (a.map Item.rune ++ .tag p :: xs) = lost p.next xs := by
  rw [lost, lost, tail_append_tag, endPhase, endPhase, tags_append, tags_runes, List.nil_append,
    tags_tag, List.foldl_cons]

theorem lost_runes (ph : Phase) (a : List Char) :
    lost ph (a.map Item.rune) = if ph.isOpen = true then a else [] := by
  rw [lost, endPhase, tags_runes, tail_runes, List.foldl_nil]

@[simp] theorem lex_tag_self (p : Phase) : lex p.tag = [.tag p] := by
  have h := lex_tag p []
  rwa [List.append_nil] at h

theorem lex_finish (ph : Phase) : follows ph (tags (lex (finish ph))) = some .argKeyOpen ∧
    text (lex (finish ph)) = [] ∧ Starts (finish ph) := by
  cases ph
  · exact ⟨rfl, rfl, starts_nil⟩
  all_goals
    rw [finish]
    simp only [lex_tag, lex_tag_self, List.append_assoc]
    refine ⟨by decide, rfl, ?_⟩
    first | exact starts_tag _ _ | exact fun r hr => (Option.some.inj hr).symm

/-- What the walk gives for the text. -/
structure Walked (ph : Phase) (s out : List Char) : Prop where
  cycles : follows ph (tags (lex out)) = some .argKeyOpen
  text : text (lex out) ++ lost ph (lex s) = text (lex s)
  same : follows ph (tags (lex s)) = some .argKeyOpen → s = out ++ tail (lex s)
  starts : (∃ p : Phase, p.tag <+: s) → Starts out

/-- The rounds that a text takes at most. -/
def rounds (ph : Phase) (s : List Char) : Nat :=
  2 * s.length + if (tags (lex s)).head? = some ph then 1 else 2

theorem rounds_le (ph : Phase) (s : List Char) : rounds ph s ≤ 2 * s.length + 2 := by
  rw [rounds]
  split <;> omega

/-- Nothing is left. -/
theorem Walked.nil (ph : Phase) : Walked ph [] (finish ph) := by
  obtain ⟨hcycles, htext, hstarts⟩ := lex_finish ph
  refine ⟨hcycles, ?_, fun hs => ?_, fun _ => hstarts⟩
  · rw [htext, lex_nil]
    exact (lost_runes ph []).trans (ite_self _)
  · rw [Option.some.inj hs]
    rfl

/-- No tag is left. -/
theorem Walked.plain {ph : Phase} {s : List Char} (hs : Plain s) :
    Walked ph s (if ph.isOpen = true then finish ph else s ++ ph.tag ++ finish ph.next) := by
  obtain ⟨hcycles, htext, hstarts⟩ := lex_finish ph
  obtain ⟨hcycles', htext', -⟩ := lex_finish ph.next
  have hlex : lex s = s.map Item.rune := hs
  split
  · rename_i hopen
    refine ⟨hcycles, ?_, fun h => ?_, fun _ => hstarts⟩
    · rw [htext, hlex, lost_runes, if_pos hopen, text_runes, List.nil_append]
    · rw [hlex, tags_runes] at h
      rw [Option.some.inj h, hlex, tail_runes]
      rfl
  · rename_i hclosing
    refine ⟨?_, ?_, fun h => ?_, fun ⟨p, hp⟩ => absurd hp.isInfix (hs.free p)⟩
    · rw [hs.lex_append_tag, tags_append, tags_runes, tags_tag, List.nil_append, follows, if_pos rfl]
      exact hcycles'
    · rw [hs.lex_append_tag, text_append, text_tag, text_runes, htext', List.append_nil, hlex,
        lost_runes, if_neg hclosing, text_runes, List.append_nil]
    · rw [hlex, tags_runes] at h
      exact absurd (by rw [Option.some.inj h]; rfl) hclosing

section Found

variable {ph p : Phase} {s out : List Char} {idx : Nat}

theorem take_of_starts (h : findNextTag s = some (idx, p)) (hs : ∃ q : Phase, q.tag <+: s) :
    s.take idx = [] := by
  obtain ⟨q, t, rfl⟩ := hs
  obtain ⟨r, hr⟩ := findNextTag_tag q t
  rw [h] at hr
  rw [(Prod.mk.inj (Option.some.inj hr)).1, List.take_zero]

theorem not_follows_of_ne (h : findNextTag s = some (idx, p)) (hne : p ≠ ph) :
    follows ph (tags (lex s)) = none := by
  rw [lex_of_findNextTag h, tags_append, tags_runes, List.nil_append, tags_tag, follows, if_neg hne]

/-- The expected tag is found. -/
theorem Walked.found (h : findNextTag s = some (idx, ph))
    (hout : Walked ph.next (s.drop (idx + ph.tag.length)) out) :
    Walked ph s (s.take idx ++ ph.tag ++ out) := by
  obtain ⟨hs, hplain⟩ := eq_of_findNextTag h
  refine ⟨?_, ?_, fun hsame => ?_, fun hstarts => ?_⟩
  · rw [hplain.lex_append_tag, tags_append, tags_runes, List.nil_append, tags_tag, follows, if_pos rfl]
    exact hout.cycles
  · rw [hplain.lex_append_tag, lex_of_findNextTag h, lost_append_tag, text_append, text_tag,
      text_append, text_tag, List.append_assoc, hout.text]
  · rw [lex_of_findNextTag h, tags_append, tags_runes, List.nil_append, tags_tag, follows,
      if_pos rfl] at hsame
    have hrest := hout.same hsame
    rw [lex_of_findNextTag h, tail_append_tag, List.append_assoc (s.take idx ++ ph.tag), ← hrest]
    exact hs
  · rw [take_of_starts h hstarts, List.nil_append]
    exact starts_tag ph out

/-- An opening tag is missing, and there is text. -/
theorem Walked.opening (h : findNextTag s = some (idx, p)) (hne : p ≠ ph)
    (hout : Walked ph.next (s.drop idx) out) : Walked ph s (ph.tag ++ s.take idx ++ out) := by
  have hplain := (eq_of_findNextTag h).2
  have hdrop := drop_of_findNextTag h
  have hlex : lex (ph.tag ++ s.take idx ++ out) = .tag ph :: ((s.take idx).map Item.rune ++ lex out) := by
    rw [List.append_assoc, lex_tag, lex_append _ (hout.starts ⟨p, _, hdrop.symm⟩), hplain]
  have htext := hout.text
  rw [hdrop, lex_tag, text_tag] at htext
  have hlost : lost ph.next (.tag p :: lex (s.drop (idx + p.tag.length))) =
      lost p.next (lex (s.drop (idx + p.tag.length))) := lost_append_tag ph.next [] p _
  rw [hlost] at htext
  refine ⟨?_, ?_, fun hsame => ?_, fun hstarts => ?_⟩
  · rw [hlex, tags_tag, tags_append, tags_runes, List.nil_append, follows, if_pos rfl]
    exact hout.cycles
  · rw [hlex, lex_of_findNextTag h, lost_append_tag, text_tag, text_append, text_append, text_tag,
      text_runes, List.append_assoc, htext]
  · rw [not_follows_of_ne h hne] at hsame
    exact absurd hsame nofun
  · rw [List.append_assoc]
    exact starts_tag ph _

/-- Tags are missing before the one that is found. -/
theorem Walked.missing {m : List Char × List Char} (h : findNextTag s = some (idx, p))
    (hne : p ≠ ph) (hm : Emitted ph p (s.take idx) m) (hout : Walked p (m.2 ++ s.drop idx) out) :
    Walked ph s (m.1 ++ out) := by
  have hplain := (eq_of_findNextTag h).2
  have hdrop := drop_of_findNextTag h
  have hleft : Plain m.2 := by
    rcases hm.left with hl | hl
    · rwa [hl]
    · rw [hl]
      exact plain_nil
  have htext := hout.text
  rw [hdrop, ← List.append_assoc, hleft.lex_append_tag, lost_append_tag, text_append, text_runes,
    text_tag] at htext
  refine ⟨?_, ?_, fun hsame => ?_, fun hstarts => ?_⟩
  · rw [hm.through, tags_append, follows_append, hm.tags]
    exact hout.cycles
  · rw [hm.through, lex_of_findNextTag h, lost_append_tag, text_append, text_append, text_runes,
      text_tag, List.append_assoc, htext, ← List.append_assoc, hm.text]
  · rw [not_follows_of_ne h hne] at hsame
    exact absurd hsame nofun
  · have hnil := take_of_starts h hstarts
    refine (hm.starts hnil).append (hout.starts ⟨p, s.drop (idx + p.tag.length), ?_⟩)
    rcases hm.left with hl | hl
    · rw [hl, hnil, List.nil_append, hdrop]
    · rw [hl, List.nil_append, hdrop]

/-! Each step leaves fewer rounds. -/

theorem length_drop_of_findNextTag (h : findNextTag s = some (idx, p)) :
    (s.drop (idx + p.tag.length)).length < (s.drop idx).length ∧ idx ≤ s.length := by
  have hpos := List.length_pos_of_ne_nil (tag_ne_nil p)
  have hdrop := congrArg List.length (drop_of_findNextTag h)
  rw [List.length_append] at hdrop
  refine ⟨by omega, ?_⟩
  rw [List.length_drop] at hdrop
  omega

theorem rounds_found (h : findNextTag s = some (idx, p)) (ph : Phase) :
    rounds ph.next (s.drop (idx + p.tag.length)) < rounds ph s := by
  obtain ⟨hlt, -⟩ := length_drop_of_findNextTag h
  have hle := rounds_le ph.next (s.drop (idx + p.tag.length))
  rw [List.length_drop] at hlt hle
  rw [List.length_drop] at hlt
  rw [rounds.eq_def ph s]
  split <;> omega

theorem rounds_of_ne (h : findNextTag s = some (idx, p)) (hne : p ≠ ph) :
    rounds ph s = 2 * s.length + 2 := by
  rw [rounds, lex_of_findNextTag h, tags_append, tags_runes, List.nil_append, tags_tag,
    List.head?_cons, if_neg fun heq => hne (Option.some.inj heq)]

theorem rounds_opening (h : findNextTag s = some (idx, p)) (hne : p ≠ ph) (hidx : 0 < idx) :
    rounds ph.next (s.drop idx) < rounds ph s := by
  obtain ⟨-, hidx'⟩ := length_drop_of_findNextTag h
  have hle := rounds_le ph.next (s.drop idx)
  rw [List.length_drop] at hle
  rw [rounds_of_ne h hne]
  omega

theorem rounds_missing {m : List Char × List Char} (h : findNextTag s = some (idx, p))
    (hne : p ≠ ph) (hm : Emitted ph p (s.take idx) m) :
    rounds p (m.2 ++ s.drop idx) < rounds ph s := by
  have hplain := (eq_of_findNextTag h).2
  have hlex : (tags (lex (m.2 ++ s.drop idx))).head? = some p := by
    rcases hm.left with hl | hl
    · rw [hl, List.take_append_drop, lex_of_findNextTag h, tags_append, tags_runes, tags_tag]
      rfl
    · rw [hl, List.nil_append, drop_of_findNextTag h, lex_tag, tags_tag]
      rfl
  have hlen : m.2.length ≤ (s.take idx).length := by
    have htext := congrArg List.length hm.text
    rw [List.length_append] at htext
    omega
  have hsplit := congrArg List.length (List.take_append_drop idx s)
  rw [List.length_append] at hsplit
  rw [rounds_of_ne h hne, rounds, if_pos hlex, List.length_append]
  omega

end Found

/-- The walk ends in the rounds that the text takes, and keeps all but what it drops. -/
theorem walked_walk (fuel : Nat) (ph : Phase) (s : List Char) (h : rounds ph s ≤ fuel) :
    ∃ out, walk fuel ph s = some out ∧ Walked ph s out := by
  induction fuel generalizing ph s with
  | zero =>
    rw [rounds] at h
    split at h <;> omega
  | succ fuel ih =>
    rw [walk]
    split
    · rename_i hnil
      exact ⟨_, rfl, by rw [hnil]; exact Walked.nil ph⟩
    · cases hfind : findNextTag s with
      | none =>
        have hplain := @Walked.plain ph s (plain_of_findNextTag hfind)
        simp only
        split
        · rename_i hopen
          rw [if_pos hopen] at hplain
          exact ⟨_, rfl, hplain⟩
        · rename_i hclosing
          rw [if_neg hclosing] at hplain
          exact ⟨_, rfl, hplain⟩
      | some found =>
        obtain ⟨idx, p⟩ := found
        simp only
        split
        · rename_i heq
          subst heq
          have hlt := rounds_found hfind p
          obtain ⟨out, hwalk, hout⟩ := ih p.next (s.drop (idx + p.tag.length)) (by omega)
          exact ⟨_, by rw [hwalk, Option.map_some], hout.found hfind⟩
        · rename_i hne
          split
          · rename_i hopen
            have hlt := rounds_opening hfind hne hopen.2
            obtain ⟨out, hwalk, hout⟩ := ih ph.next (s.drop idx) (by omega)
            exact ⟨_, by rw [hwalk, Option.map_some], hout.opening hfind hne⟩
          · have hm := emitted_emitMissing 3 (eq_of_findNextTag hfind).2 (exists_iterate_next ph p)
            have hlt := rounds_missing hfind hne hm
            have hle : rounds p ((emitMissing p 3 ph (s.take idx)).2 ++ s.drop idx) ≤ fuel := by omega
            obtain ⟨out, hwalk, hout⟩ := ih p _ hle
            exact ⟨_, by rw [hwalk, Option.map_some], hout.missing hfind hne hm⟩

/-! ## The repair -/

theorem follows_endPhase {ph q : Phase} {xs : List Item} (h : follows ph (tags xs) = some q) :
    endPhase ph xs = q := by
  rw [endPhase]
  generalize tags xs = ps at h ⊢
  induction ps generalizing ph with
  | nil => exact Option.some.inj h
  | cons p ps ih =>
    rw [follows] at h
    split at h
    · rename_i heq
      rw [List.foldl_cons, heq]
      exact ih h
    · exact absurd h nofun

theorem endPhase_eq (ph : Phase) (xs : List Item) :
    endPhase ph xs = ((tags xs).getLast?.map Phase.next).getD ph := by
  rw [endPhase]
  induction tags xs using List.reverseRecOn with
  | nil => rfl
  | append_singleton ps p _ =>
    rw [List.foldl_append, List.getLast?_append, List.getLast?_singleton]
    rfl

/-- The text ends clean when what the walk drops is white space. -/
theorem endsClean_iff {s : List Char} {ph : Phase} (h : tags (lex s) ≠ []) :
    EndsClean s ↔ Blank (lost ph (lex s)) := by
  have hopen : ∀ p : Phase, p.next.isOpen = !p.isOpen := by
    intro p
    cases p <;> rfl
  obtain ⟨p, hp⟩ := Option.ne_none_iff_exists'.mp (mt List.getLast?_eq_none_iff.mp h)
  rw [EndsClean, lost, endPhase_eq, hp, Option.map_some, Option.getD_some, hopen]
  cases hclosing : p.isOpen with
  | true =>
    refine iff_of_true (fun q hq hfalse => ?_) blank_nil
    rw [← Option.some.inj hq, hclosing] at hfalse
    exact absurd hfalse nofun
  | false =>
    rw [Bool.not_false, if_pos rfl]
    exact ⟨fun hs => hs p rfl hclosing, fun hs _ _ _ => hs⟩

theorem nonBlank_append (s t : List Char) : nonBlank (s ++ t) = nonBlank s ++ nonBlank t :=
  List.filter_append s t

theorem nonBlank_eq_nil {s : List Char} : nonBlank s = [] ↔ Blank s := by
  rw [nonBlank, List.filter_eq_nil_iff]
  exact forall₂_congr fun c _ => by simp

theorem nonBlank_trimLeft (s : List Char) : nonBlank (trimLeft s) = nonBlank s := by
  conv_rhs => rw [← leading_append_trimLeft s, nonBlank_append,
    nonBlank_eq_nil.mpr (blank_leading s), List.nil_append]

/-- A repair that keeps all but what the walk drops. -/
theorem repaired_iff_of_lost {s r : List Char} (htags : tags (lex s) ≠ [])
    (hcycles : Cycles (tags (lex r)))
    (htext : nonBlank (text (lex r)) ++ nonBlank (lost .argKeyOpen (lex s)) =
      nonBlank (text (lex s)))
    (hsame : Cycles (tags (lex s)) → s = r ++ tail (lex s)) : Repaired s r ↔ EndsClean s := by
  rw [endsClean_iff htags]
  constructor
  · intro h
    rw [h.text] at htext
    exact nonBlank_eq_nil.mp (List.append_cancel_left (htext.trans (List.append_nil _).symm))
  · intro h
    rw [nonBlank_eq_nil.mpr h, List.append_nil] at htext
    refine ⟨fun _ => hcycles, htext, fun hs => ⟨tail (lex s), ?_, hsame hs⟩⟩
    rw [lost, follows_endPhase hs] at h
    exact h

/-- The repair ends, and is one that loses nothing for just the texts that end clean. -/
theorem repaired_iff (s : List Char) :
    ∃ r, repairGLM46XML s = some r ∧ (Repaired s r ↔ EndsClean s) := by
  rw [repairGLM46XML]
  cases hfind : findNextTag s with
  | none =>
    have hplain : lex s = s.map Item.rune := plain_of_findNextTag hfind
    refine ⟨s, rfl, iff_of_true ⟨fun hne => ?_, rfl, fun _ => ⟨[], blank_nil, ?_⟩⟩ fun p hp _ => ?_⟩
    · exact absurd (by rw [hplain, tags_runes]) hne
    · rw [List.append_nil]
    · rw [hplain, tags_runes] at hp
      exact absurd hp nofun
  | some found =>
    obtain ⟨idx, p⟩ := found
    have hplain := (eq_of_findNextTag hfind).2
    have hdrop := drop_of_findNextTag hfind
    have hlex := lex_of_findNextTag hfind
    have hprefix : ∃ q : Phase, q.tag <+: s.drop idx := ⟨p, _, hdrop.symm⟩
    have htags : tags (lex s) ≠ [] := by
      rw [hlex, tags_append, tags_tag, tags_runes]
      exact List.cons_ne_nil _ _
    have hrest : lex (s.drop idx) = .tag p :: lex (s.drop (idx + p.tag.length)) := by
      rw [hdrop, lex_tag]
    have hlost : ∀ ph, lost ph (lex (s.drop idx)) = lost .argKeyOpen (lex s) := fun ph => by
      rw [hlex, hrest, lost_append_tag]
      exact lost_append_tag ph [] p _
    have htextrest : text (lex s) = s.take idx ++ text (lex (s.drop idx)) := by
      rw [hlex, hrest, text_append, text_runes, text_tag]
    -- the walk alone, behind the text before the first tag
    have hwhole : ∀ out, Walked .argKeyOpen (s.drop idx) out →
        (Repaired s (s.take idx ++ out) ↔ EndsClean s) := by
      intro out hout
      have hlexout : lex (s.take idx ++ out) = (s.take idx).map Item.rune ++ lex out := by
        rw [lex_append _ (hout.starts hprefix), hplain]
      refine repaired_iff_of_lost htags ?_ ?_ fun hs => ?_
      · rw [Cycles, hlexout, tags_append, tags_runes, List.nil_append]
        exact hout.cycles
      · rw [hlexout, text_append, text_runes, nonBlank_append, List.append_assoc,
          ← nonBlank_append (text (lex out)), ← hlost .argKeyOpen, hout.text, htextrest,
          nonBlank_append]
      · rw [Cycles, hlex, tags_append, tags_runes, List.nil_append, tags_tag] at hs
        have hsame := hout.same (by rw [hrest, tags_tag]; exact hs)
        have htail : tail (lex s) = tail (lex (s.drop idx)) := by
          rw [hlex, hrest, tail_append_tag]
          rfl
        rw [htail, List.append_assoc, ← hsame, List.take_append_drop]
    have hwalked : ∀ ph, ∃ out, walk (2 * (s.drop idx).length + 2) ph (s.drop idx) = some out ∧
        Walked ph (s.drop idx) out := fun ph =>
      walked_walk _ ph _ (rounds_le ph (s.drop idx))
    simp only
    split
    · rename_i hne
      cases hspace : (s.take idx).findIdx? isSpace with
      | none =>
        obtain ⟨out, hwalk, hout⟩ := hwalked .argKeyOpen
        exact ⟨_, by simp only [hwalk, Option.map_some], hwhole out hout⟩
      | some spIdx =>
        obtain ⟨out, hwalk, hout⟩ := hwalked .argKeyClose
        refine ⟨(s.take idx).take spIdx ++ Phase.tag .argKeyOpen ++
          trimLeft ((s.take idx).drop spIdx) ++ out, by simp only [hwalk, Option.map_some], ?_⟩
        generalize hname : (s.take idx).take spIdx = name
        generalize hkey : trimLeft ((s.take idx).drop spIdx) = key
        have hname' : Plain name := hplain.part (by
          rw [← hname]
          exact (List.take_prefix spIdx _).isInfix)
        have hkey' : Plain key := hplain.part (by
          rw [← hkey]
          exact ((List.dropWhile_suffix isSpace).trans (List.drop_suffix spIdx _)).isInfix)
        have hlexout : lex (name ++ Phase.tag .argKeyOpen ++ key ++ out) =
            name.map Item.rune ++ .tag .argKeyOpen :: (key.map Item.rune ++ lex out) := by
          rw [List.append_assoc, hname'.lex_append_tag, lex_append _ (hout.starts hprefix), hkey']
        have htextkey : nonBlank name ++ nonBlank key = nonBlank (s.take idx) := by
          rw [← hname, ← hkey, nonBlank_trimLeft, ← nonBlank_append, List.take_append_drop]
        refine repaired_iff_of_lost htags ?_ ?_ fun hs => ?_
        · rw [Cycles, hlexout, tags_append, tags_runes, List.nil_append, tags_tag, tags_append,
            tags_runes, List.nil_append, follows, if_pos rfl]
          exact hout.cycles
        · rw [hlexout, text_append, text_runes, text_tag, text_append, text_runes, nonBlank_append,
            nonBlank_append, ← List.append_assoc, htextkey, List.append_assoc,
            ← nonBlank_append (text (lex out)), ← hlost .argKeyClose, hout.text, htextrest,
            nonBlank_append]
        · rw [Cycles, hlex, tags_append, tags_runes, List.nil_append, tags_tag, follows,
            if_neg hne] at hs
          exact absurd hs nofun
    · obtain ⟨out, hwalk, hout⟩ := hwalked .argKeyOpen
      exact ⟨_, by simp only [hwalk, Option.map_some], hwhole out hout⟩

/-- The text behind a last closing tag is lost. -/
theorem not_repaired :
    ¬∀ s : List Char, ∃ r, repairGLM46XML s = some r ∧ Repaired s r := by
  intro h
  obtain ⟨r, hr, hrepaired⟩ := h "f<arg_key>k</arg_key>v".toList
  have hr' : repairGLM46XML "f<arg_key>k</arg_key>v".toList =
      some "f<arg_key>k</arg_key><arg_value></arg_value>".toList := by decide
  rw [hr'] at hr
  have htext := hrepaired.text
  rw [← Option.some.inj hr] at htext
  exact absurd htext (by decide)

end Prismalama.Parsers.Glm46
