import Mathlib.Tactic

/-!
# Lexical paths

A relative path is cut at the slashes into components. `resolve` follows them from a directory
and fails where `..` leaves it; `clean` is the path without the components that do nothing, as
`path.Clean` has it for a relative path. A clean path that does not start with `..` resolves, and
a directory with its slash is a prefix of another one exactly when its components are. The text of
an absolute directory without that slash is a prefix of the directories next to it that only add to
its name as well.
-/

namespace Prismalama.Lib

/-! ## Cutting at a separator -/

section Split

variable {α : Type*} [DecidableEq α]

/-- The parts of a text between the separators. -/
def splitSep (sep : α) : List α → List (List α)
  | [] => [[]]
  | a :: s =>
    if a = sep then [] :: splitSep sep s
    else
      match splitSep sep s with
      | [] => [[a]]
      | p :: ps => (a :: p) :: ps

/-- The parts with the separator after each. -/
def terminated (sep : α) (ps : List (List α)) : List α := ps.flatMap fun p => p ++ [sep]

theorem splitSep_cons {sep : α} {p s : List α} (h : sep ∉ p) :
    splitSep sep (p ++ sep :: s) = p :: splitSep sep s := by
  induction p with
  | nil => simp [splitSep]
  | cons a p ih =>
    have ha : a ≠ sep := fun heq => h (heq ▸ List.mem_cons_self)
    rw [List.cons_append, splitSep, if_neg ha, ih fun hmem => h (List.mem_cons_of_mem a hmem)]

theorem splitSep_self {sep : α} {s : List α} (h : sep ∉ s) : splitSep sep s = [s] := by
  induction s with
  | nil => rfl
  | cons a s ih =>
    have ha : a ≠ sep := fun heq => h (heq ▸ List.mem_cons_self)
    rw [splitSep, if_neg ha, ih fun hmem => h (List.mem_cons_of_mem a hmem)]

theorem splitSep_append {sep : α} {p : List α} (hp : sep ∉ p) (s : List α) :
    ∃ q qs, splitSep sep (p ++ s) = (p ++ q) :: qs := by
  induction p with
  | nil =>
    cases s with
    | nil => exact ⟨[], [], rfl⟩
    | cons a s =>
      rw [List.nil_append, splitSep]
      split
      · exact ⟨_, _, rfl⟩
      · split
        · exact ⟨_, _, rfl⟩
        · exact ⟨_, _, rfl⟩
  | cons a p ih =>
    rw [List.mem_cons, not_or] at hp
    obtain ⟨q, qs, hsplit⟩ := ih hp.2
    refine ⟨q, qs, ?_⟩
    rw [List.cons_append, splitSep, if_neg (Ne.symm hp.1), hsplit, List.cons_append]

theorem splitSep_terminated_append {sep : α} {ps : List (List α)} (h : ∀ p ∈ ps, sep ∉ p)
    (s : List α) :
    splitSep sep (terminated sep ps ++ s) = ps ++ splitSep sep s := by
  induction ps with
  | nil => rfl
  | cons p ps ih =>
    obtain ⟨hp, hps⟩ := List.forall_mem_cons.mp h
    rw [terminated, List.flatMap_cons, List.append_assoc, List.append_assoc,
      List.singleton_append, splitSep_cons hp]
    exact congrArg (p :: ·) (ih hps)

theorem splitSep_terminated {sep : α} {ps : List (List α)} (h : ∀ p ∈ ps, sep ∉ p) :
    splitSep sep (terminated sep ps) = ps ++ [[]] := by
  have happend := splitSep_terminated_append h []
  rwa [List.append_nil] at happend

theorem not_mem_of_mem_splitSep {sep : α} {s p : List α} (h : p ∈ splitSep sep s) : sep ∉ p := by
  induction s generalizing p with
  | nil =>
    rw [List.mem_singleton.mp h]
    exact List.not_mem_nil
  | cons a s ih =>
    unfold splitSep at h
    split at h
    · rcases List.mem_cons.mp h with rfl | h
      · exact List.not_mem_nil
      · exact ih h
    · rename_i ha
      cases hs : splitSep sep s with
      | nil =>
        rw [hs] at h
        rw [List.mem_singleton.mp h]
        exact fun hmem => ha (List.mem_singleton.mp hmem).symm
      | cons q qs =>
        rw [hs] at h ih
        rcases List.mem_cons.mp h with rfl | h
        · intro hmem
          rcases List.mem_cons.mp hmem with heq | hmem
          · exact ha heq.symm
          · exact ih List.mem_cons_self hmem
        · exact ih (List.mem_cons_of_mem q h)

/-- One list of terminated parts starts another exactly when its parts do. -/
theorem prefix_of_terminated {sep : α} {ps qs : List (List α)} (hp : ∀ p ∈ ps, sep ∉ p)
    (hq : ∀ q ∈ qs, sep ∉ q) (h : terminated sep ps <+: terminated sep qs) : ps <+: qs := by
  induction ps generalizing qs with
  | nil => exact List.nil_prefix
  | cons p ps ih =>
    obtain ⟨t, ht⟩ := h
    have hsplit := congrArg (splitSep sep) ht
    rw [splitSep_terminated hq, terminated, List.flatMap_cons, List.append_assoc, List.append_assoc,
      List.singleton_append, splitSep_cons (hp p List.mem_cons_self)] at hsplit
    cases qs with
    | nil =>
      have hnil := congrArg List.length ht
      simp [terminated] at hnil
    | cons q qs =>
      obtain ⟨rfl, -⟩ := List.cons.inj hsplit
      refine List.prefix_cons_inj p |>.mpr (ih (fun x hx => hp x (List.mem_cons_of_mem p hx))
        (fun x hx => hq x (List.mem_cons_of_mem p hx)) ⟨t, ?_⟩)
      rw [terminated, List.flatMap_cons, List.append_assoc, terminated, List.flatMap_cons] at ht
      exact List.append_cancel_left ht

end Split

/-! ## Components -/

def dot : List Char := ['.']

def dotdot : List Char := ['.', '.']

/-- Follow a component from the directory `st`, innermost first. -/
def resolveStep (st : List (List Char)) (comp : List Char) : Option (List (List Char)) :=
  if comp = [] ∨ comp = dot then some st
  else if comp = dotdot then st.head?.map fun _ => st.tail
  else some (comp :: st)

/-- Where a relative path leads; `none` when it leaves the directory. -/
def resolve (path : List Char) : Option (List (List Char)) :=
  ((splitSep '/' path).foldlM resolveStep []).map List.reverse

/-- `..` in the clean form of a path: it undoes a component, unless that is `..`. -/
def cleanUp : List (List Char) → List (List Char)
  | [] => [dotdot]
  | c :: st => if c = dotdot then dotdot :: c :: st else st

def cleanStep (st : List (List Char)) (comp : List Char) : List (List Char) :=
  if comp = [] ∨ comp = dot then st
  else if comp = dotdot then cleanUp st
  else comp :: st

/-- The components that are left. -/
def cleanComponents (path : List Char) : List (List Char) :=
  ((splitSep '/' path).foldl cleanStep []).reverse

/-- Components with slashes between them. -/
def joinSlash : List (List Char) → List Char
  | [] => []
  | [c] => c
  | c :: cs => c ++ '/' :: joinSlash cs

/-- Components as a path. -/
def pathText (cs : List (List Char)) : List Char := if cs = [] then dot else joinSlash cs

/-- `path.Clean` of a relative path -/
def clean (path : List Char) : List Char := pathText (cleanComponents path)

/-- `path.Dir` of a relative path: up to its last slash, cleaned. -/
def pathDir (path : List Char) : List Char :=
  clean (path.reverse.dropWhile fun c => c != '/').reverse

/-- A component that leads into a directory. -/
def Plain (c : List Char) : Prop := c ≠ [] ∧ c ≠ dot ∧ c ≠ dotdot ∧ '/' ∉ c

theorem joinSlash_append (parent : List (List Char)) {cs : List (List Char)} (hne : cs ≠ []) :
    joinSlash (parent ++ cs) = terminated '/' parent ++ joinSlash cs := by
  induction parent with
  | nil => rfl
  | cons p parent ih =>
    rw [List.cons_append, joinSlash, ih, terminated, terminated, List.flatMap_cons,
      List.append_assoc, List.append_assoc, List.singleton_append]
    exact List.append_ne_nil_of_right_ne_nil parent hne

theorem joinSlash_concat (cs : List (List Char)) (c : List Char) :
    joinSlash (cs ++ [c]) = terminated '/' cs ++ c := by
  rw [joinSlash_append cs (List.cons_ne_nil c []), joinSlash]

theorem joinSlash_append_slash {cs : List (List Char)} (h : cs ≠ []) :
    joinSlash cs ++ ['/'] = terminated '/' cs := by
  obtain ⟨ds, c, rfl⟩ := (List.eq_nil_or_concat cs).resolve_left h
  rw [List.concat_eq_append, joinSlash_concat, terminated, terminated, List.flatMap_append,
    List.append_assoc]
  simp

theorem splitSep_joinSlash {cs : List (List Char)} (hne : cs ≠ []) (h : ∀ c ∈ cs, '/' ∉ c) :
    splitSep '/' (joinSlash cs) = cs := by
  induction cs with
  | nil => exact absurd rfl hne
  | cons c cs ih =>
    obtain ⟨hc, hcs⟩ := List.forall_mem_cons.mp h
    cases cs with
    | nil => exact splitSep_self hc
    | cons d cs =>
      rw [joinSlash, splitSep_cons hc, ih (List.cons_ne_nil d cs) hcs]
      exact List.cons_ne_nil d cs

theorem foldl_cleanStep_plain {cs : List (List Char)} (h : ∀ c ∈ cs, Plain c)
    (st : List (List Char)) : cs.foldl cleanStep st = cs.reverse ++ st := by
  induction cs generalizing st with
  | nil => rfl
  | cons c cs ih =>
    obtain ⟨hne, hdot, hdots, -⟩ := h c List.mem_cons_self
    have hstep : cleanStep st c = c :: st := by
      unfold cleanStep
      rw [if_neg (by tauto), if_neg hdots]
    rw [List.foldl_cons, hstep, ih fun d hd => h d (List.mem_cons_of_mem c hd), List.reverse_cons,
      List.append_assoc]
    rfl

theorem cleanComponents_terminated {cs : List (List Char)} (h : ∀ c ∈ cs, Plain c) :
    cleanComponents (terminated '/' cs) = cs := by
  unfold cleanComponents
  rw [splitSep_terminated fun c hc => (h c hc).2.2.2, List.foldl_append, foldl_cleanStep_plain h]
  show (cleanStep (cs.reverse ++ []) []).reverse = cs
  rw [List.append_nil, cleanStep, if_pos (.inl rfl), List.reverse_reverse]

/-- Components that lead into directories are clean. -/
theorem clean_joinSlash {cs : List (List Char)} (hne : cs ≠ []) (h : ∀ c ∈ cs, Plain c) :
    clean (joinSlash cs) = joinSlash cs := by
  have hsplit := splitSep_joinSlash hne fun c hc => (h c hc).2.2.2
  have hcomps : cleanComponents (joinSlash cs) = cs := by
    rw [cleanComponents, hsplit, foldl_cleanStep_plain h, List.append_nil, List.reverse_reverse]
  rw [clean, hcomps, pathText, if_neg hne]

/-- Once a path has left the directory, its clean form starts with `..`. -/
theorem cleanStep_left {st : List (List Char)} (h : st.getLast? = some dotdot) (comp : List Char) :
    (cleanStep st comp).getLast? = some dotdot := by
  cases st with
  | nil => cases h
  | cons c st =>
    unfold cleanStep
    split
    · exact h
    · split
      · rw [cleanUp]
        split
        · rwa [List.getLast?_cons_cons]
        · rename_i hc
          cases st with
          | nil => exact absurd (Option.some.inj h) hc
          | cons d st => rwa [List.getLast?_cons_cons] at h
      · rwa [List.getLast?_cons_cons]

/-- The clean form of a path either resolves or starts with `..`. -/
theorem foldl_cleanStep (comps : List (List Char)) (st : List (List Char))
    (hst : ∀ c ∈ st, Plain c) (hcomps : ∀ c ∈ comps, '/' ∉ c) :
    (comps.foldlM resolveStep st = some (comps.foldl cleanStep st) ∧
      ∀ c ∈ comps.foldl cleanStep st, Plain c) ∨
    (comps.foldl cleanStep st).getLast? = some dotdot := by
  induction comps generalizing st with
  | nil => exact .inl ⟨rfl, hst⟩
  | cons comp comps ih =>
    have hrest : ∀ c ∈ comps, '/' ∉ c := fun c hc => hcomps c (List.mem_cons_of_mem comp hc)
    rw [List.foldl_cons, List.foldlM_cons]
    by_cases hskip : comp = [] ∨ comp = dot
    · rw [cleanStep, resolveStep, if_pos hskip, if_pos hskip]
      exact ih st hst hrest
    · by_cases hdots : comp = dotdot
      · cases st with
        | nil =>
          -- the path leaves the directory here
          refine .inr ?_
          have hleft : ∀ (comps : List (List Char)) (st : List (List Char)),
              st.getLast? = some dotdot → (comps.foldl cleanStep st).getLast? = some dotdot := by
            intro comps
            induction comps with
            | nil => exact fun st h => h
            | cons c comps ih => exact fun st h => ih _ (cleanStep_left h c)
          refine hleft comps _ ?_
          rw [cleanStep, if_neg hskip, if_pos hdots]
          rfl
        | cons c st =>
          have hc := (hst c List.mem_cons_self).2.2.1
          rw [cleanStep, resolveStep, if_neg hskip, if_neg hskip, if_pos hdots, if_pos hdots,
            cleanUp, if_neg hc]
          exact ih st (fun d hd => hst d (List.mem_cons_of_mem c hd)) hrest
      · rw [cleanStep, resolveStep, if_neg hskip, if_neg hskip, if_neg hdots, if_neg hdots]
        refine ih (comp :: st) (fun d hd => ?_) hrest
        rcases List.mem_cons.mp hd with rfl | hd
        · rw [not_or] at hskip
          exact ⟨hskip.1, hskip.2, hdots, hcomps d List.mem_cons_self⟩
        · exact hst d hd

/-- A path whose clean form does not start with `..` resolves to its clean components. -/
theorem resolve_of_clean {path : List Char} (h : dotdot.isPrefixOf (clean path) = false) :
    resolve path = some (cleanComponents path) ∧ ∀ c ∈ cleanComponents path, Plain c := by
  rcases foldl_cleanStep (splitSep '/' path) [] (fun c hc => absurd hc List.not_mem_nil)
    (fun c hc => not_mem_of_mem_splitSep hc) with ⟨hresolve, hplain⟩ | hlast
  · refine ⟨?_, fun c hc => hplain c (List.mem_reverse.mp hc)⟩
    rw [resolve, hresolve]
    rfl
  · have hhead : (cleanComponents path).head? = some dotdot := by
      rw [cleanComponents, List.head?_reverse, hlast]
    cases hcs : cleanComponents path with
    | nil =>
      rw [hcs] at hhead
      cases hhead
    | cons c cs =>
      rw [hcs] at hhead
      cases Option.some.inj hhead
      rw [clean, hcs, pathText, if_neg (List.cons_ne_nil _ _)] at h
      cases cs with
      | nil => cases h
      | cons d cs =>
        rw [joinSlash] at h
        · cases h
        · exact List.cons_ne_nil d cs

/-- The directory of a clean path has its components but the last. -/
theorem pathDir_pathText {cs : List (List Char)} (h : ∀ c ∈ cs, Plain c) :
    pathDir (pathText cs) = pathText cs.dropLast := by
  have hterm : (pathText cs).reverse.dropWhile (fun c => c != '/') =
      (terminated '/' cs.dropLast).reverse := by
    rcases List.eq_nil_or_concat cs with rfl | ⟨ds, c, rfl⟩
    · rfl
    · rw [List.concat_eq_append] at h ⊢
      have hc := (h c (List.mem_append_right ds List.mem_cons_self)).2.2.2
      rw [pathText, if_neg (List.append_ne_nil_of_right_ne_nil ds (List.cons_ne_nil c [])),
        joinSlash_concat, List.dropLast_concat, List.reverse_append,
        List.dropWhile_append_of_pos fun x hx => ?_]
      · -- what is left ends with a slash
        rcases List.eq_nil_or_concat ds with rfl | ⟨es, e, rfl⟩
        · rfl
        · rw [List.concat_eq_append]
          simp [terminated]
      · rw [List.mem_reverse] at hx
        exact bne_iff_ne.mpr fun heq => hc (heq ▸ hx)
  rw [pathDir, hterm, List.reverse_reverse, clean, cleanComponents_terminated]
  exact fun c hc => h c (List.mem_of_mem_dropLast hc)

/-! ## Absolute paths -/

/-- `..` at the root stays there. -/
def cleanAbsStep (st : List (List Char)) (comp : List Char) : List (List Char) :=
  if comp = [] ∨ comp = dot then st else if comp = dotdot then st.tail else comp :: st

/-- The components of an absolute path that are left. -/
def absComponents (path : List Char) : List (List Char) :=
  ((splitSep '/' path).foldl cleanAbsStep []).reverse

/-- Components as an absolute path. -/
def absText (cs : List (List Char)) : List Char := '/' :: joinSlash cs

/-- `path.Clean` of an absolute path -/
def cleanAbs (path : List Char) : List Char := absText (absComponents path)

theorem foldl_cleanAbsStep_plain (comps : List (List Char)) (hcomps : ∀ c ∈ comps, '/' ∉ c)
    (st : List (List Char)) (hst : ∀ c ∈ st, Plain c) :
    ∀ c ∈ comps.foldl cleanAbsStep st, Plain c := by
  induction comps generalizing st with
  | nil => exact hst
  | cons comp comps ih =>
    refine ih (fun c hc => hcomps c (List.mem_cons_of_mem comp hc)) _ ?_
    unfold cleanAbsStep
    split
    · exact hst
    · next hskip =>
      split
      · exact fun c hc => hst c (List.mem_of_mem_tail hc)
      · next hdots =>
        rw [not_or] at hskip
        exact List.forall_mem_cons.mpr ⟨⟨hskip.1, hskip.2, hdots, hcomps comp List.mem_cons_self⟩,
          hst⟩

theorem absComponents_plain (path : List Char) : ∀ c ∈ absComponents path, Plain c :=
  fun c hc => foldl_cleanAbsStep_plain _ (fun _ h => not_mem_of_mem_splitSep h) []
    (fun _ h => absurd h List.not_mem_nil) c (List.mem_reverse.mp hc)

theorem absComponents_absText {cs : List (List Char)} (h : ∀ c ∈ cs, Plain c) :
    absComponents (absText cs) = cs := by
  have hfold : ∀ (cs st : List (List Char)), (∀ c ∈ cs, Plain c) →
      cs.foldl cleanAbsStep st = cs.reverse ++ st := by
    intro cs
    induction cs with
    | nil => exact fun _ _ => rfl
    | cons c cs ih =>
      intro st h
      obtain ⟨⟨hne, hdot, hdots, -⟩, hcs⟩ := List.forall_mem_cons.mp h
      have hstep : cleanAbsStep st c = c :: st := by
        rw [cleanAbsStep, if_neg (not_or.mpr ⟨hne, hdot⟩), if_neg hdots]
      rw [List.foldl_cons, hstep, ih _ hcs, List.reverse_cons, List.append_assoc,
        List.singleton_append]
  rw [absComponents, absText, splitSep, if_pos rfl, List.foldl_cons, cleanAbsStep,
    if_pos (.inl rfl)]
  rcases eq_or_ne cs [] with rfl | hne
  · rfl
  · rw [splitSep_joinSlash hne fun c hc => (h c hc).2.2.2, hfold cs [] h, List.append_nil,
      List.reverse_reverse]

theorem cleanAbs_idem (path : List Char) : cleanAbs (cleanAbs path) = cleanAbs path := by
  rw [cleanAbs, cleanAbs, absComponents_absText (absComponents_plain path)]

/-- The next directory adds to the name of the first one. -/
def Beside (cs ts : List (List Char)) : Prop :=
  ∃ parent name ext rest, ext ≠ [] ∧ cs = parent ++ [name] ∧ ts = parent ++ (name ++ ext) :: rest

/-- The text of an absolute directory starts the texts of what is below it and of what is below a
directory beside it. -/
theorem absText_prefix_iff {cs ts : List (List Char)} (hcs : ∀ c ∈ cs, Plain c)
    (hts : ∀ c ∈ ts, Plain c) : absText cs <+: absText ts ↔ cs <+: ts ∨ Beside cs ts := by
  rw [absText, absText, List.prefix_cons_inj]
  rcases List.eq_nil_or_concat cs with rfl | ⟨parent, name, rfl⟩
  · exact iff_of_true List.nil_prefix (.inl List.nil_prefix)
  rw [List.concat_eq_append] at hcs ⊢
  have hparent : ∀ c ∈ parent, '/' ∉ c := fun c hc => (hcs c (List.mem_append_left _ hc)).2.2.2
  obtain ⟨hname, -, -, hslash⟩ := hcs name (List.mem_append_right _ List.mem_cons_self)
  constructor
  · intro h
    have hne : ts ≠ [] := by
      rintro rfl
      rw [joinSlash_concat, joinSlash, List.prefix_nil, List.append_eq_nil_iff] at h
      exact hname h.2
    obtain ⟨s, hs⟩ := h
    have hsplit := congrArg (splitSep '/') hs
    obtain ⟨ext, rest, hrest⟩ := splitSep_append hslash s
    rw [joinSlash_concat, List.append_assoc,
      splitSep_terminated_append hparent, hrest,
      splitSep_joinSlash hne fun c hc => (hts c hc).2.2.2] at hsplit
    rcases eq_or_ne ext [] with rfl | hext
    · left
      rw [← hsplit, List.append_nil]
      exact ⟨rest, List.append_assoc parent [name] rest⟩
    · exact .inr ⟨parent, name, ext, rest, hext, rfl, hsplit.symm⟩
  · have hstarts : ∀ (ext : List Char) (rest : List (List Char)),
        joinSlash (parent ++ [name]) <+: joinSlash (parent ++ (name ++ ext) :: rest) := by
      intro ext rest
      rw [joinSlash_concat, joinSlash_append parent (List.cons_ne_nil _ _),
        List.prefix_append_right_inj]
      cases rest with
      | nil => exact List.prefix_append name ext
      | cons r rest =>
        rw [joinSlash, List.append_assoc]
        · exact List.prefix_append name _
        · exact List.cons_ne_nil r rest
    rintro (⟨rest, rfl⟩ | ⟨parent', name', ext, rest, -, heq, rfl⟩)
    · have hall := hstarts [] rest
      rwa [List.append_nil, ← List.singleton_append (l := rest), ← List.append_assoc] at hall
    · obtain ⟨rfl, hlast⟩ := List.append_inj' heq rfl
      obtain rfl := List.singleton_inj.mp hlast
      exact hstarts ext rest

end Prismalama.Lib
