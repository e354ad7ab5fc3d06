import Prismalama.Agent.Approval

/-!
# Commands that leave the directory (`x/agent/approval.go`)

Before a command runs, the user is warned if one of its arguments leads out of the current
directory. An argument is judged by how it starts: only one that starts with `..` is resolved, and
then the texts of the paths are compared, not their components (`Unseen`).
-/

namespace Prismalama.Agent

open Prismalama.Lib

/-! ## The check -/

/-- `filepath.Clean` -/
def filepathClean (path : Text) : Text :=
  if ['/'].isPrefixOf path then cleanAbs path else clean path

/-- `filepath.Join` of two elements -/
def filepathJoin (dir name : Text) : Text :=
  if dir = [] then
    if name = [] then [] else filepathClean name
  else if name = [] then filepathClean dir
  else filepathClean (dir ++ '/' :: name)

/-- `filepath.IsAbs` -/
def isAbs (path : Text) : Bool := ['/'].isPrefixOf path

def isFlag (arg : Text) : Bool := ['-'].isPrefixOf arg

/-- The parts of a command line between pipes and semicolons. -/
def commandParts (command : Text) : List Text :=
  (command.splitOnP fun r => r == '|' || r == ';' || r == '&').filter (· ≠ [])

/-- What the check does with one argument; `home` is `none` where `UserHomeDir` fails. -/
def isArgOutsideCwd (cwd : Text) (home : Option Text) (arg : Text) : Bool :=
  if isFlag arg then false
  else if ['/'].isPrefixOf arg || ['\\'].isPrefixOf arg then true
  else if isAbs arg then !(cwd.isPrefixOf (filepathClean arg))
  else if dotdot.isPrefixOf arg && !(cwd.isPrefixOf (filepathClean (filepathJoin cwd arg))) then
    true
  else if ['~'].isPrefixOf arg then
    match home with
    | some home => !(cwd.isPrefixOf home)
    | none => false
  else false

/-- `cwd` is `none` where `Getwd` fails. -/
def isCommandOutsideCwd (cwd home : Option Text) (command : Text) : Bool :=
  match cwd with
  | none => false
  | some cwd => (commandParts command).any fun part =>
    match fields (trimSpace part) with
    | [] => false
    | _ :: args => args.any (isArgOutsideCwd cwd home)

/-! ## Where an argument leads -/

/-- The non-flag arguments of all parts. -/
def arguments (command : Text) : List Text :=
  ((commandParts command).flatMap fun part => (fields (trimSpace part)).tail).filter
    fun arg => !isFlag arg

/-- The components of the path that an argument denotes. -/
def target (cwd : Text) (home : Option Text) (arg : Text) : List Text :=
  match arg, home with
  | '/' :: path, _ => absComponents ('/' :: path)
  | '~' :: path, some home => absComponents (home ++ path)
  | arg, _ => absComponents (cwd ++ '/' :: arg)

/-- It leads neither to the directory nor below it. -/
def Outside (cwd : Text) (home : Option Text) (arg : Text) : Prop :=
  ¬ absComponents cwd <+: target cwd home arg

/-- The arguments that raise no warning, wherever they lead. -/
inductive Unseen (cwd : Text) (home : Option Text) (arg : Text) : Prop
  /-- The path starts with a name; a `..` may follow further in. -/
  | name (hslash : ¬ ['/'] <+: arg) (hback : ¬ ['\\'] <+: arg) (hdots : ¬ dotdot <+: arg)
      (htilde : ¬ ['~'] <+: arg)
  /-- The path starts with `..`, and its clean text with the text of the directory. -/
  | dots (hdots : dotdot <+: arg) (htext : cwd <+: absText (target cwd home arg))
  /-- The text of the home directory starts with the text of the directory. -/
  | tilde (htilde : ['~'] <+: arg) (htext : ∀ dir ∈ home, cwd <+: dir)

variable {cwd : Text} {home : Option Text}

/-- Joined and cleaned, a relative path has the text of its target. -/
theorem filepathClean_join (habs : ['/'] <+: cwd) {arg : Text} (hdots : dotdot <+: arg) :
    filepathClean (filepathJoin cwd arg) = absText (target cwd home arg) := by
  obtain ⟨rest, rfl⟩ := hdots
  obtain ⟨dir, rfl⟩ := habs
  have htarget : target ('/' :: dir) home (dotdot ++ rest) =
      absComponents ('/' :: dir ++ '/' :: (dotdot ++ rest)) := rfl
  have hjoin : filepathJoin ('/' :: dir) (dotdot ++ rest) =
      cleanAbs ('/' :: dir ++ '/' :: (dotdot ++ rest)) := rfl
  have hclean : ∀ path, filepathClean (cleanAbs path) = cleanAbs path := cleanAbs_idem
  rw [List.singleton_append, htarget, hjoin, hclean, cleanAbs]

theorem starts_unique {c d : Char} {p q arg : Text} (hne : c ≠ d) (h : c :: p <+: arg) :
    ¬ d :: q <+: arg := by
  obtain ⟨rest, rfl⟩ := h
  exact fun hd => hne (List.cons_prefix_cons.mp hd).1.symm

theorem unseen_dots {arg : Text} (hdots : dotdot <+: arg) :
    Unseen cwd home arg ↔ cwd <+: absText (target cwd home arg) := by
  constructor
  · intro h
    cases h with
    | name _ _ hno => exact absurd hdots hno
    | dots _ htext => exact htext
    | tilde h => exact absurd h (starts_unique (by decide) hdots)
  · exact .dots hdots

theorem unseen_tilde {arg : Text} (htilde : ['~'] <+: arg) :
    Unseen cwd home arg ↔ ∀ dir ∈ home, cwd <+: dir := by
  constructor
  · intro h
    cases h with
    | name _ _ _ hno => exact absurd htilde hno
    | dots h => exact absurd htilde (starts_unique (by decide) h)
    | tilde _ htext => exact htext
  · exact .tilde htilde

theorem not_unseen_root {arg : Text} (hroot : ['/'] <+: arg ∨ ['\\'] <+: arg) :
    ¬ Unseen cwd home arg := by
  intro h
  cases h with
  | name hslash hback => exact hroot.elim hslash hback
  | dots hdots =>
    exact hroot.elim (starts_unique (by decide) hdots)
      (starts_unique (by decide) hdots)
  | tilde htilde =>
    exact hroot.elim (starts_unique (by decide) htilde)
      (starts_unique (by decide) htilde)

/-- No warning is raised for the unseen arguments, and for no others. -/
theorem isArgOutsideCwd_iff (habs : ['/'] <+: cwd) {arg : Text} (hflag : isFlag arg = false) :
    isArgOutsideCwd cwd home arg = false ↔ Unseen cwd home arg := by
  have hstarts : ∀ p : Text, p.isPrefixOf arg = true ↔ p <+: arg :=
    fun p => List.isPrefixOf_iff_prefix
  unfold isArgOutsideCwd
  rw [if_neg (Bool.eq_false_iff.mp hflag), isAbs]
  by_cases hroot : ['/'] <+: arg ∨ ['\\'] <+: arg
  · rw [if_pos (by rwa [Bool.or_eq_true, hstarts, hstarts])]
    exact iff_of_false Bool.true_eq_false.mp (not_unseen_root hroot)
  rw [if_neg (by rwa [Bool.or_eq_true, hstarts, hstarts]),
    if_neg (by rw [hstarts]; exact (not_or.mp hroot).1)]
  by_cases hdots : dotdot <+: arg
  · have htilde : ¬ ['~'] <+: arg := starts_unique (by decide) hdots
    rw [unseen_dots hdots, @filepathClean_join cwd home habs arg hdots, (hstarts _).mpr hdots,
      Bool.true_and, if_neg (c := ['~'].isPrefixOf arg = true) (by rwa [hstarts]),
      ← List.isPrefixOf_iff_prefix]
    cases cwd.isPrefixOf (absText (target cwd home arg)) <;> decide
  rw [Bool.eq_false_iff.mpr (mt (hstarts _).mp hdots), Bool.false_and, if_neg Bool.false_ne_true]
  by_cases htilde : ['~'] <+: arg
  · rw [if_pos ((hstarts _).mpr htilde), unseen_tilde htilde]
    cases home with
    | none => exact iff_of_true rfl fun _ h => nomatch h
    | some dir =>
      dsimp only
      rw [Bool.not_eq_false', List.isPrefixOf_iff_prefix]
      exact ⟨fun h d hd => Option.mem_some.mp hd ▸ h, fun h => h dir rfl⟩
  · rw [if_neg (mt (hstarts _).mp htilde)]
    exact iff_of_true rfl (.name (not_or.mp hroot).1 (not_or.mp hroot).2 hdots htilde)

theorem isArgOutsideCwd_flag {arg : Text} (h : isFlag arg = true) :
    isArgOutsideCwd cwd home arg = false := by
  unfold isArgOutsideCwd
  rw [if_pos h]

theorem isCommandOutsideCwd_iff (command : Text) :
    isCommandOutsideCwd (some cwd) home command = true ↔
      ∃ arg ∈ arguments command, isArgOutsideCwd cwd home arg = true := by
  have hpart : ∀ part, (match fields (trimSpace part) with
      | [] => false
      | _ :: args => args.any (isArgOutsideCwd cwd home)) =
      (fields (trimSpace part)).tail.any (isArgOutsideCwd cwd home) := by
    intro part
    cases fields (trimSpace part) <;> rfl
  simp only [isCommandOutsideCwd, hpart, List.any_eq_true, arguments, List.mem_filter,
    List.mem_flatMap, Bool.not_eq_true']
  constructor
  · rintro ⟨part, hmem, arg, harg, hout⟩
    refine ⟨arg, ⟨⟨part, hmem, harg⟩, Bool.eq_false_iff.mpr fun hflag => ?_⟩, hout⟩
    exact absurd hout (Bool.eq_false_iff.mp (isArgOutsideCwd_flag hflag))
  · rintro ⟨arg, ⟨⟨part, hmem, harg⟩, -⟩, hout⟩
    exact ⟨part, hmem, arg, harg, hout⟩

/-- A directory beside the current one is missed, and no other that `..` leads to. -/
theorem unseen_dots_iff {cs : List Text} (hcs : ∀ c ∈ cs, Plain c) {arg : Text}
    (hdots : dotdot <+: arg) (hout : Outside (absText cs) home arg) :
    Unseen (absText cs) home arg ↔ Beside cs (target (absText cs) home arg) := by
  have htarget : ∀ c ∈ target (absText cs) home arg, Plain c := by
    obtain ⟨rest, rfl⟩ := hdots
    exact absComponents_plain _
  rw [Outside, absComponents_absText hcs] at hout
  rw [unseen_dots hdots, absText_prefix_iff hcs htarget]
  exact or_iff_right hout

/-- A command that leaves the directory is noticed exactly when one of its arguments is not among
the unseen ones. -/
theorem outside_noticed_iff (habs : ['/'] <+: cwd) (command : Text) :
    ((∃ arg ∈ arguments command, Outside cwd home arg) →
      isCommandOutsideCwd (some cwd) home command = true) ↔
    ((∃ arg ∈ arguments command, Outside cwd home arg) →
      ∃ arg ∈ arguments command, ¬ Unseen cwd home arg) := by
  refine imp_congr_right fun _ => ?_
  rw [isCommandOutsideCwd_iff]
  refine exists_congr fun arg => and_congr_right fun harg => ?_
  have hflag : isFlag arg = false := by
    simpa using (List.mem_filter.mp harg).2
  rw [← isArgOutsideCwd_iff habs hflag, Bool.not_eq_false]

theorem outside_noticed_iff_parent :
    isCommandOutsideCwd (some "/home/u".toList) (some "/root".toList) "ls ../v".toList = true := by
  refine (outside_noticed_iff (by decide) "ls ../v".toList).mpr (fun _ => ?_)
    ⟨"../v".toList, by decide, by unfold Outside; decide⟩
  refine ⟨"../v".toList, by decide, ?_⟩
  rw [unseen_dots (by decide)]
  decide

/-- A `..` behind a name leads out unnoticed, and so does a directory or a home directory that adds
to the name of the current one. -/
theorem outside_not_noticed :
    ((∃ arg ∈ arguments "cat a/../../v".toList,
        Outside "/home/u".toList (some "/home/u2".toList) arg) ∧
      isCommandOutsideCwd (some "/home/u".toList) (some "/home/u2".toList)
        "cat a/../../v".toList = false) ∧
    ((∃ arg ∈ arguments "cat ../u2/v".toList,
        Outside "/home/u".toList (some "/home/u2".toList) arg) ∧
      isCommandOutsideCwd (some "/home/u".toList) (some "/home/u2".toList)
        "cat ../u2/v".toList = false) ∧
    ((∃ arg ∈ arguments "cat ~/v".toList,
        Outside "/home/u".toList (some "/home/u2".toList) arg) ∧
      isCommandOutsideCwd (some "/home/u".toList) (some "/home/u2".toList)
        "cat ~/v".toList = false) := by
  simp only [Outside]
  exact ⟨⟨⟨"a/../../v".toList, by decide⟩, by decide⟩,
    ⟨⟨"../u2/v".toList, by decide⟩, by decide⟩, ⟨⟨"~/v".toList, by decide⟩, by decide⟩⟩

end Prismalama.Agent
