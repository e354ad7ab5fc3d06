import Prismalama.Lib.GoMap
import Prismalama.Lib.Paths
import Prismalama.Lib.TagStream

/-!
# Tool approval (`x/agent/approval.go`)

A tool that the user allows for the session is added to an allowlist. A bash command that reads
files is added as a key, its first word with the directory of its first path, and then every
command is allowed whose key is the same or a directory below it. The key is taken from the text
before the first `|` and says nothing about the rest of the command line.
-/

namespace Prismalama.Agent

open Prismalama.Lib

abbrev Text := List Char

def bash : Text := "bash".toList

/-- `strings.Fields` -/
def fields : Text → List Text
  | [] => []
  | c :: s =>
    if isSpace c then fields s
    else
      match s with
      | [] => [[c]]
      | d :: _ =>
        if isSpace d then [c] :: fields s
        else
          match fields s with
          | [] => [[c]]
          | w :: ws => (c :: w) :: ws

/-- `strings.Contains` -/
def contains (sub : Text) : Text → Bool
  | [] => sub.isPrefixOf []
  | c :: s => sub.isPrefixOf (c :: s) || contains sub s

def isNumeric (s : Text) : Bool :=
  (s.all fun c => decide ('0' ≤ c) && decide (c ≤ '9')) && decide (0 < s.length)

/-! ## The key of a command -/

def safeCommands : List Text :=
  ["cat", "ls", "head", "tail", "less", "more", "file", "wc", "grep", "find", "tree", "stat",
    "sed"].map String.toList

/-- The arguments that no loop skips. -/
def isArgument (arg : Text) : Bool := !(['-'].isPrefixOf arg) && !isNumeric arg

/-- It looks like a path. -/
def isPathLike (arg : Text) : Bool :=
  isArgument arg && (arg.contains '/' || arg.contains '\\' || ['.'].isPrefixOf arg)

/-- `arg` with forward slashes. -/
def slashes (arg : Text) : Text := arg.map fun c => if c = '\\' then '/' else c

/-- Up to the first slash. -/
def base (path : Text) : Text := path.takeWhile fun c => c != '/'

/-- The key for a path; empty for none. -/
def prefixOfPath (baseCmd arg : Text) : Text :=
  let arg := slashes arg
  if ['/'].isPrefixOf arg then []
  else
    let cleaned := clean arg
    if dotdot.isPrefixOf cleaned then []
    else if contains dotdot arg && base arg != base cleaned then []
    else
      let isDir := ['/'].isSuffixOf arg
      let dir := if isDir then cleaned else pathDir cleaned
      if dir = dot then baseCmd ++ ":./".toList else baseCmd ++ ":".toList ++ dir ++ "/".toList

/-- The words of the text before the first `|`. -/
def firstStage (command : Text) : List Text :=
  fields (trimSpace (command.takeWhile fun c => c != '|'))

def extractBashPrefix (command : Text) : Text :=
  match firstStage command with
  | baseCmd :: arg :: rest =>
    if safeCommands.any fun c => c = baseCmd then
      match (arg :: rest).find? isPathLike with
      | some path => prefixOfPath baseCmd path
      | none => if (arg :: rest).any isArgument then baseCmd ++ ":./".toList else []
    else []
  | _ => []

/-! ## The manager -/

structure ApprovalManager where
  allowlist : GoMap Text Bool
  prefixes : GoMap Text Bool

def NewApprovalManager : ApprovalManager := ⟨∅, ∅⟩

/-- `command` is `args["command"]` when that is a string. -/
def AllowlistKey (toolName : Text) (command : Option Text) : Text :=
  if toolName = bash then
    match command with
    | some cmd => "bash:".toList ++ cmd
    | none => toolName
  else toolName

/-- What is before and after the first colon. -/
def cutColon : Text → Option (Text × Text)
  | [] => none
  | c :: s => if c = ':' then some ([], s) else (cutColon s).map fun p => (c :: p.1, p.2)

namespace ApprovalManager

def matchesHierarchicalPrefix (a : ApprovalManager) (currentPrefix : Text) : Bool :=
  match cutColon currentPrefix with
  | none => false
  | some (currentCmd, currentPath) =>
    a.prefixes.keys.any fun storedPrefix =>
      match cutColon storedPrefix with
      | none => false
      | some (storedCmd, storedPath) =>
        decide (currentCmd = storedCmd) && storedPath.isPrefixOf currentPath

def IsAllowed (a : ApprovalManager) (toolName : Text) (command : Option Text) : Bool :=
  if (a.allowlist.lookup (AllowlistKey toolName command)).getD false then true
  else if toolName = bash then
    match command with
    | some cmd =>
      let key := extractBashPrefix cmd
      key != [] && ((a.prefixes.lookup key).getD false || a.matchesHierarchicalPrefix key)
    | none => false
  else (a.allowlist.lookup toolName).getD false

def AddToAllowlist (a : ApprovalManager) (toolName : Text) (command : Option Text) :
    ApprovalManager :=
  if toolName = bash then
    match command with
    | some cmd =>
      let key := extractBashPrefix cmd
      if key ≠ [] then { a with prefixes := a.prefixes.insert key true }
      else { a with allowlist := a.allowlist.insert ("bash:".toList ++ cmd) true }
    | none => { a with allowlist := a.allowlist.insert toolName true }
  else { a with allowlist := a.allowlist.insert toolName true }

def Reset (_ : ApprovalManager) : ApprovalManager := ⟨∅, ∅⟩

end ApprovalManager

/-! ## Sessions -/

inductive Op where
  | add (toolName : Text) (command : Option Text)
  | reset

def ApprovalManager.step (a : ApprovalManager) : Op → ApprovalManager
  | .add toolName command => a.AddToAllowlist toolName command
  | .reset => a.Reset

def ApprovalManager.run (a : ApprovalManager) (ops : List Op) : ApprovalManager := ops.foldl step a

/-- The calls since the last `Reset`, with one more step. -/
def recordCall (calls : List (Text × Option Text)) : Op → List (Text × Option Text)
  | .add toolName command => calls ++ [(toolName, command)]
  | .reset => []

/-- The calls since the last `Reset`. -/
def sinceReset (ops : List Op) : List (Text × Option Text) := ops.foldl recordCall []

/-- Where the first path among the arguments leads; `none` when it may lead outside the current
directory, or when there is no argument at all. -/
def directory (args : List Text) : Option (List Text) :=
  match args.find? isPathLike with
  | some arg =>
    if ['/'].isPrefixOf (slashes arg) then none
    else
      (resolve (slashes arg)).map fun path =>
        if ['/'].isSuffixOf (slashes arg) then path else path.dropLast
  | none => if args.any isArgument then some [] else none

/-- The first stage of `command` reads in the directory in which that of `added` reads, or below
it: the same safe command, with a first path that leads there. -/
def Within (command added : Text) : Prop :=
  ∃ word args args' dir dir', word ∈ safeCommands ∧ firstStage command = word :: args ∧
    firstStage added = word :: args' ∧ directory args = some dir ∧ directory args' = some dir' ∧
    dir' <+: dir ∧ (dir' = [] → dir = [])

/-! ## Keys -/

/-- A directory in a key. -/
def dirText (dir : List Text) : Text := if dir = [] then "./".toList else terminated '/' dir

theorem prefix_of_dirText {dir dir' : List Text} (hdir : ∀ c ∈ dir, Plain c)
    (hdir' : ∀ c ∈ dir', Plain c) (h : dirText dir' <+: dirText dir) :
    dir' <+: dir ∧ (dir' = [] → dir = []) := by
  have hslash : ∀ c ∈ dir, '/' ∉ c := fun c hc => (hdir c hc).2.2.2
  have hslash' : ∀ c ∈ dir', '/' ∉ c := fun c hc => (hdir' c hc).2.2.2
  have hdot : ∀ c ∈ [dot], '/' ∉ c := by decide
  unfold dirText at h
  by_cases hnil' : dir' = []
  · subst hnil'
    refine ⟨List.nil_prefix, fun _ => ?_⟩
    by_contra hnil
    rw [if_pos rfl, if_neg hnil] at h
    have hpre : [dot] <+: dir := prefix_of_terminated hdot hslash h
    exact (hdir dot (hpre.subset List.mem_cons_self)).2.1 rfl
  · rw [if_neg hnil'] at h
    refine ⟨?_, fun hnil => absurd hnil hnil'⟩
    by_cases hnil : dir = []
    · rw [if_pos hnil] at h
      have hpre : dir' <+: [dot] := prefix_of_terminated hslash' hdot h
      obtain ⟨c, hc⟩ := List.exists_mem_of_ne_nil dir' hnil'
      exact absurd (List.mem_singleton.mp (hpre.subset hc)) (hdir' c hc).2.1
    · rw [if_neg hnil] at h
      exact prefix_of_terminated hslash' hslash h

/-- A key as the source writes it. -/
theorem key_eq_dirText (baseCmd : Text) {dir : List Text} (h : ∀ c ∈ dir, Plain c) :
    (if pathText dir = dot then baseCmd ++ ":./".toList
      else baseCmd ++ ":".toList ++ pathText dir ++ "/".toList) =
      baseCmd ++ ':' :: dirText dir := by
  by_cases hnil : dir = []
  · subst hnil
    rfl
  · have hjoin := joinSlash_append_slash hnil
    have hne : pathText dir ≠ dot := by
      intro hdot
      rw [pathText, if_neg hnil] at hdot
      rw [hdot] at hjoin
      have hpre : [dot] <+: dir := prefix_of_terminated (by decide)
        (fun c hc => (h c hc).2.2.2) (hjoin ▸ List.prefix_refl _)
      exact (h dot (hpre.subset List.mem_cons_self)).2.1 rfl
    rw [if_neg hne, pathText, if_neg hnil, dirText, if_neg hnil, ← hjoin]
    simp

/-- The key of a path has the directory to which the path leads. -/
theorem prefixOfPath_spec {baseCmd arg : Text} (h : prefixOfPath baseCmd arg ≠ []) :
    ['/'].isPrefixOf (slashes arg) = false ∧ ∃ path, resolve (slashes arg) = some path ∧
      (∀ c ∈ path, Plain c) ∧ prefixOfPath baseCmd arg = baseCmd ++ ':' :: dirText
        (if ['/'].isSuffixOf (slashes arg) then path else path.dropLast) := by
  unfold prefixOfPath at h ⊢
  dsimp only at h ⊢
  split at h
  · exact absurd rfl h
  · rename_i habs
    rw [if_neg habs]
    refine ⟨Bool.eq_false_iff.mpr habs, ?_⟩
    split at h
    · exact absurd rfl h
    · rename_i hup
      rw [if_neg hup]
      obtain ⟨hresolve, hplain⟩ := resolve_of_clean (Bool.eq_false_iff.mpr hup)
      split at h
      · exact absurd rfl h
      · rename_i hbase
        rw [if_neg hbase]
        refine ⟨cleanComponents (slashes arg), hresolve, hplain, ?_⟩
        -- the directory as text
        have hdir : (if ['/'].isSuffixOf (slashes arg) = true then clean (slashes arg)
            else pathDir (clean (slashes arg))) = pathText
              (if ['/'].isSuffixOf (slashes arg) = true then cleanComponents (slashes arg)
                else (cleanComponents (slashes arg)).dropLast) := by
          split
          · rfl
          · exact pathDir_pathText hplain
        rw [hdir]
        have hplain' : ∀ c ∈ (if ['/'].isSuffixOf (slashes arg) = true then
            cleanComponents (slashes arg) else (cleanComponents (slashes arg)).dropLast),
            Plain c := by
          intro c hc
          split at hc
          · exact hplain c hc
          · exact hplain c (List.mem_of_mem_dropLast hc)
        generalize (if ['/'].isSuffixOf (slashes arg) = true then cleanComponents (slashes arg)
          else (cleanComponents (slashes arg)).dropLast) = dir at hplain'
        exact key_eq_dirText baseCmd hplain'

/-- The key of a command: its first word, one of the safe commands, and a directory. -/
theorem extractBashPrefix_spec {command : Text} (h : extractBashPrefix command ≠ []) :
    ∃ word args dir, word ∈ safeCommands ∧ firstStage command = word :: args ∧
      directory args = some dir ∧ (∀ c ∈ dir, Plain c) ∧
      extractBashPrefix command = word ++ ':' :: dirText dir := by
  unfold extractBashPrefix at h ⊢
  cases hstage : firstStage command with
  | nil =>
    rw [hstage] at h
    exact absurd rfl h
  | cons word args =>
    cases args with
    | nil =>
      rw [hstage] at h
      exact absurd rfl h
    | cons arg rest =>
      rw [hstage] at h
      dsimp only at h ⊢
      split at h
      · rename_i hsafe
        rw [if_pos hsafe]
        obtain ⟨safe, hmem, hsafe⟩ := List.any_eq_true.mp hsafe
        have hword : word ∈ safeCommands := of_decide_eq_true hsafe ▸ hmem
        cases hfind : (arg :: rest).find? isPathLike with
        | some path =>
          rw [hfind] at h
          obtain ⟨habs, resolved, hresolve, hplain, hkey⟩ := prefixOfPath_spec h
          refine ⟨word, arg :: rest, _, hword, rfl, ?_, ?_, hkey⟩
          · unfold directory
            rw [hfind]
            dsimp only
            rw [if_neg (by rw [habs]; exact Bool.false_ne_true), hresolve]
            rfl
          · intro c hc
            split at hc
            · exact hplain c hc
            · exact hplain c (List.mem_of_mem_dropLast hc)
        | none =>
          rw [hfind] at h
          dsimp only at h ⊢
          split at h
          · rename_i hany
            rw [if_pos hany]
            refine ⟨word, arg :: rest, [], hword, rfl, ?_, fun c hc => absurd hc List.not_mem_nil,
              rfl⟩
            unfold directory
            rw [hfind]
            exact if_pos hany
          · exact absurd rfl h
      · exact absurd rfl h

theorem cutColon_append {word : Text} (h : ':' ∉ word) (rest : Text) :
    cutColon (word ++ ':' :: rest) = some (word, rest) := by
  induction word with
  | nil => rfl
  | cons c word ih =>
    have hc : c ≠ ':' := fun heq => h (heq ▸ List.mem_cons_self)
    rw [List.cons_append, cutColon, if_neg hc, ih fun hmem => h (List.mem_cons_of_mem c hmem)]
    rfl

theorem colon_not_mem : ∀ word ∈ safeCommands, ':' ∉ word := by decide

/-- A key below another one. -/
theorem within_of_keys {command added : Text} (h : extractBashPrefix command ≠ [])
    (h' : extractBashPrefix added ≠ [])
    (hkeys : extractBashPrefix command = extractBashPrefix added ∨
      ∃ cmd path path', cutColon (extractBashPrefix command) = some (cmd, path) ∧
        cutColon (extractBashPrefix added) = some (cmd, path') ∧ path' <+: path) :
    Within command added := by
  obtain ⟨word, args, dir, hword, hstage, hdir, hplain, hkey⟩ := extractBashPrefix_spec h
  obtain ⟨word', args', dir', hword', hstage', hdir', hplain', hkey'⟩ := extractBashPrefix_spec h'
  have hcut := cutColon_append (colon_not_mem word hword) (dirText dir)
  have hcut' := cutColon_append (colon_not_mem word' hword') (dirText dir')
  rw [hkey, hkey', hcut, hcut'] at hkeys
  have hbelow : word = word' ∧ dirText dir' <+: dirText dir := by
    rcases hkeys with heq | ⟨cmd, path, path', hc, hc', hpath⟩
    · rw [heq, hcut'] at hcut
      obtain ⟨hword, hdir⟩ := Prod.mk.inj (Option.some.inj hcut)
      exact ⟨hword.symm, hdir ▸ List.prefix_refl _⟩
    · cases hc
      cases hc'
      exact ⟨rfl, hpath⟩
  obtain ⟨rfl, hpath⟩ := hbelow
  obtain ⟨hpre, hnil⟩ := prefix_of_dirText hplain hplain' hpath
  exact ⟨word, args, args', dir, dir', hword, hstage, hstage', hdir, hdir', hpre, hnil⟩

/-! ## What the manager knows -/

/-- The exact key that a call adds. -/
def exactKey (call : Text × Option Text) : Option Text :=
  if call.1 = bash then
    match call.2 with
    | some cmd => if extractBashPrefix cmd ≠ [] then none else some ("bash:".toList ++ cmd)
    | none => some call.1
  else some call.1

/-- Every key of the manager is from a call. -/
structure Records (a : ApprovalManager) (calls : List (Text × Option Text)) : Prop where
  allowlist : ∀ key v, a.allowlist.lookup key = some v → ∃ call ∈ calls, exactKey call = some key
  prefixes : ∀ key v, a.prefixes.lookup key = some v →
    ∃ cmd, (bash, some cmd) ∈ calls ∧ extractBashPrefix cmd = key ∧ key ≠ []

theorem Records.empty : Records NewApprovalManager [] :=
  ⟨fun _ _ h => (by cases h), fun _ _ h => (by cases h)⟩

theorem Records.mono {a : ApprovalManager} {calls : List (Text × Option Text)}
    (h : Records a calls) (call : Text × Option Text) : Records a (calls ++ [call]) := by
  refine ⟨fun key v hkey => ?_, fun key v hkey => ?_⟩
  · obtain ⟨old, hold, hexact⟩ := h.allowlist key v hkey
    exact ⟨old, List.mem_append_left _ hold, hexact⟩
  · obtain ⟨cmd, hcmd, hrest⟩ := h.prefixes key v hkey
    exact ⟨cmd, List.mem_append_left _ hcmd, hrest⟩

theorem Records.insert_allowlist {a : ApprovalManager} {calls : List (Text × Option Text)}
    (h : Records a calls) {call : Text × Option Text} {key : Text}
    (hkey : exactKey call = some key) :
    Records { a with allowlist := a.allowlist.insert key true } (calls ++ [call]) := by
  refine ⟨fun key' v hkey' => ?_, (h.mono call).prefixes⟩
  rw [GoMap.lookup_insert_ite] at hkey'
  split at hkey'
  · rename_i heq
    exact ⟨call, List.mem_append_right _ List.mem_cons_self, by rw [heq, hkey]⟩
  · exact (h.mono call).allowlist key' v hkey'

/-- One call. -/
theorem Records.add {a : ApprovalManager} {calls : List (Text × Option Text)} (h : Records a calls)
    (toolName : Text) (command : Option Text) :
    Records (a.AddToAllowlist toolName command) (calls ++ [(toolName, command)]) := by
  unfold ApprovalManager.AddToAllowlist
  by_cases hbash : toolName = bash
  · rw [if_pos hbash]
    cases command with
    | none =>
      refine h.insert_allowlist ?_
      unfold exactKey
      rw [if_pos hbash]
    | some cmd =>
      dsimp only
      split
      · rename_i hkey
        refine ⟨(h.mono _).allowlist, fun key v hlookup => ?_⟩
        rw [GoMap.lookup_insert_ite] at hlookup
        split at hlookup
        · rename_i heq
          refine ⟨cmd, List.mem_append_right _ ?_, heq.symm, heq ▸ hkey⟩
          rw [hbash]
          exact List.mem_cons_self
        · exact (h.mono _).prefixes key v hlookup
      · rename_i hkey
        refine h.insert_allowlist ?_
        unfold exactKey
        rw [if_pos hbash]
        exact if_neg hkey
  · rw [if_neg hbash]
    refine h.insert_allowlist ?_
    unfold exactKey
    rw [if_neg hbash]

/-- Every session. -/
theorem run_records (ops : List Op) :
    Records (NewApprovalManager.run ops) (sinceReset ops) := by
  have hloop : ∀ (a : ApprovalManager) (calls : List (Text × Option Text)), Records a calls →
      Records (a.run ops) (ops.foldl recordCall calls) := by
    induction ops with
    | nil => exact fun a calls h => h
    | cons op ops ih =>
      intro a calls h
      cases op with
      | add toolName command => exact ih _ _ (h.add toolName command)
      | reset => exact ih _ _ Records.empty
  exact hloop _ _ Records.empty

/-- A bash command that is allowed was added with the same text, or reads with the same safe
command as an added one in its directory or below. -/
theorem IsAllowed_within (ops : List Op) {command : Text}
    (h : (NewApprovalManager.run ops).IsAllowed bash (some command) = true) :
    (∃ call ∈ sinceReset ops, call = (bash, some command) ∨
      call.1 = "bash:".toList ++ command) ∨
    ∃ added, (bash, some added) ∈ sinceReset ops ∧ Within command added := by
  have hrec := run_records ops
  generalize NewApprovalManager.run ops = a at h hrec
  unfold ApprovalManager.IsAllowed at h
  split at h
  · -- the exact text
    rename_i hexact
    refine .inl ?_
    have hkey : AllowlistKey bash (some command) = "bash:".toList ++ command := if_pos rfl
    rw [hkey] at hexact
    cases hlookup : a.allowlist.lookup ("bash:".toList ++ command) with
    | none =>
      rw [hlookup] at hexact
      cases hexact
    | some v =>
      obtain ⟨call, hcall, hexact⟩ := hrec.allowlist _ v hlookup
      refine ⟨call, hcall, ?_⟩
      obtain ⟨toolName, cmd⟩ := call
      unfold exactKey at hexact
      by_cases hbash : toolName = bash
      · subst hbash
        rw [if_pos rfl] at hexact
        cases cmd with
        | none => cases Option.some.inj hexact
        | some cmd =>
          dsimp only at hexact
          split at hexact
          · cases hexact
          · left
            rw [List.append_cancel_left (Option.some.inj hexact)]
      · rw [if_neg hbash] at hexact
        exact .inr (Option.some.inj hexact)
  · rw [if_pos rfl] at h
    refine .inr ?_
    dsimp only at h
    rw [Bool.and_eq_true, Bool.or_eq_true, bne_iff_ne] at h
    obtain ⟨hne, hkey | hkey⟩ := h
    · -- the same key
      cases hlookup : a.prefixes.lookup (extractBashPrefix command) with
      | none =>
        rw [hlookup] at hkey
        cases hkey
      | some v =>
        obtain ⟨added, hadded, heq, -⟩ := hrec.prefixes _ v hlookup
        exact ⟨added, hadded, within_of_keys hne (heq ▸ hne) (.inl heq.symm)⟩
    · -- a key above it
      unfold ApprovalManager.matchesHierarchicalPrefix at hkey
      cases hcut : cutColon (extractBashPrefix command) with
      | none =>
        rw [hcut] at hkey
        cases hkey
      | some p =>
        rw [hcut] at hkey
        dsimp only at hkey
        obtain ⟨stored, hstored, hkey⟩ := List.any_eq_true.mp hkey
        obtain ⟨v, hlookup⟩ := (GoMap.mem_keys_iff a.prefixes stored).mp hstored
        obtain ⟨added, hadded, rfl, hne'⟩ := hrec.prefixes stored v hlookup
        cases hcut' : cutColon (extractBashPrefix added) with
        | none =>
          rw [hcut'] at hkey
          cases hkey
        | some p' =>
          rw [hcut'] at hkey
          dsimp only at hkey
          rw [Bool.and_eq_true, decide_eq_true_eq, List.isPrefixOf_iff_prefix] at hkey
          refine ⟨added, hadded, within_of_keys hne hne' (.inr ⟨p.1, p.2, p'.2, hcut, ?_, hkey.2⟩)⟩
          rw [hcut', hkey.1]

/-- `cat tools/sub/b.go | head -3` after `cat tools/a.go`. -/
theorem IsAllowed_within_below :
    (∃ call ∈ sinceReset [.add bash (some "rm x".toList), .reset,
        .add bash (some "cat tools/a.go".toList)],
      call = (bash, some "cat tools/sub/b.go | head -3".toList) ∨
        call.1 = "bash:".toList ++ "cat tools/sub/b.go | head -3".toList) ∨
    ∃ added, (bash, some added) ∈ sinceReset [.add bash (some "rm x".toList), .reset,
        .add bash (some "cat tools/a.go".toList)] ∧
      Within "cat tools/sub/b.go | head -3".toList added :=
  IsAllowed_within [.add bash (some "rm x".toList), .reset,
    .add bash (some "cat tools/a.go".toList)] (by decide)

/-- A command line that runs another command or writes a file. -/
def FurtherCommand (command : Text) : Bool :=
  (command.any fun c => [';', '&', '|', '\n', '`', '>'].contains c) || contains "$(".toList command

/-- What comes after the first path is allowed with it: another command, a file to write, a
path elsewhere. -/
theorem IsAllowed_exceeds :
    (∀ command ∈ ["cat tools/b | sh", "cat tools/b; sh x", "cat tools/b > c",
        "cat tools/b $(sh x)"].map String.toList,
      (NewApprovalManager.run [.add bash (some "cat tools/a".toList)]).IsAllowed bash
          (some command) = true ∧
        (bash, some command) ∉ sinceReset [.add bash (some "cat tools/a".toList)] ∧
        FurtherCommand command = true) ∧
    (NewApprovalManager.run [.add bash (some "cat tools/a".toList)]).IsAllowed bash
      (some "cat tools/b src/c".toList) = true ∧
    (bash, some "cat tools/b src/c".toList) ∉ sinceReset [.add bash (some "cat tools/a".toList)] ∧
    "src/c".toList ∈ firstStage "cat tools/b src/c".toList ∧
    resolve "src/c".toList = some ["src".toList, "c".toList] := by
  decide

end Prismalama.Agent
