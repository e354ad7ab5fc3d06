import Prismalama.Lib.TagStream

/-!
# Modelfiles (`parser/parser.go`)

`ParseFile` reads a Modelfile rune by rune, `String` prints one. A value ends at the first
newline at which what was read is not an open quotation (`readValue`). The printer quotes by
its own rule (`quote`). A list of runes is what the decoder makes of the file.
-/

namespace Prismalama.Modelfile

open Prismalama.Lib

/-- `strconv.IsPrint`, of which only the ASCII part is known. -/
structure PrintTable where
  isPrint : Char → Bool
  ascii : ∀ c : Char, c.toNat < 128 → isPrint c = (32 ≤ c.toNat && c.toNat < 127)

structure Command where
  name : List Char
  args : List Char
  deriving DecidableEq

inductive State
  | nil
  | name
  | value
  | parameter
  | message
  | comment
  deriving DecidableEq

/-- The messages of a `ParserError`. -/
inductive Msg
  | invalidCommand
  | invalidMessageRole
  deriving DecidableEq

inductive Error
  | parserError (lineNumber : Nat) (msg : Msg)
  | unexpectedEOF
  | unexpectedEOFIn (buffer : List Char)
  | missingFrom
  deriving DecidableEq

/-! ## Runes -/

def isAlpha (r : Char) : Bool := ('a' ≤ r && r ≤ 'z') || ('A' ≤ r && r ≤ 'Z')

def isNumber (r : Char) : Bool := '0' ≤ r && r ≤ '9'

def isBlank (r : Char) : Bool := r == ' ' || r == '\t'

def isNewline (r : Char) : Bool := r == '\r' || r == '\n'

/-- `strings.ToLower`, of letters -/
def toLower (s : List Char) : List Char := s.map Char.toLower

/-- `strings.ToUpper`, of letters -/
def toUpper (s : List Char) : List Char := s.map Char.toUpper

def roles : List (List Char) := ["system".toList, "user".toList, "assistant".toList]

def isValidMessageRole (role : List Char) : Bool := role ∈ roles

/-- The commands that are printed with their name and a quoted value. -/
def plainCommands : List (List Char) :=
  ["license".toList, "template".toList, "system".toList, "adapter".toList, "renderer".toList,
    "parser".toList, "requires".toList, "draft".toList]

def isValidCommand (cmd : List Char) : Bool :=
  toLower cmd ∈ plainCommands ++ ["from".toList, "parameter".toList, "message".toList]

/-! ## Quotation -/

def quote (s : List Char) : List Char :=
  if '\n' ∈ s ∨ s.head? = some ' ' ∨ s.getLast? = some ' ' then
    if '"' ∈ s then "\"\"\"".toList ++ s ++ "\"\"\"".toList
    else '"' :: s ++ ['"']
  else s

def unquote (s : List Char) : Option (List Char) :=
  if s.take 3 = "\"\"\"".toList then
    if 6 ≤ s.length ∧ s.drop (s.length - 3) = "\"\"\"".toList then
      some ((s.take (s.length - 3)).drop 3)
    else none
  else if s.take 1 = ['"'] then
    if 2 ≤ s.length ∧ s.drop (s.length - 1) = ['"'] then some ((s.take (s.length - 1)).drop 1)
    else none
  else some s

/-! ## Printing -/

def Command.print (c : Command) : List Char :=
  if c.name = "model".toList then "FROM ".toList ++ c.args
  else if c.name ∈ plainCommands then toUpper c.name ++ ' ' :: quote c.args
  else if c.name = "message".toList then
    let (role, message) := (cut ": ".toList c.args).getD (c.args, [])
    "MESSAGE ".toList ++ role ++ ' ' :: quote message
  else "PARAMETER ".toList ++ c.name ++ ' ' :: quote c.args

/-- `String` -/
def print (commands : List Command) : List Char :=
  (commands.map fun c => c.print ++ ['\n']).flatten

/-! ## Parsing -/

/-- The variables of `ParseFile`. -/
structure Parse where
  cmd : Command
  curr : State
  currLine : Nat
  b : List Char
  role : List Char
  commands : List Command

def Parse.init : Parse := ⟨⟨[], []⟩, .nil, 1, [], [], []⟩

inductive RuneError
  | unexpectedEOF
  | invalidCommand

/-- The next state, and the rune to write; rune 0 is not printable. -/
def parseRuneForState (r : Char) : State → Except RuneError (State × Char)
  | .nil =>
    if r = '#' then .ok (.comment, '\x00')
    else if isBlank r || isNewline r then .ok (.nil, '\x00')
    else .ok (.name, r)
  | .name =>
    if isAlpha r then .ok (.name, r)
    else if isBlank r then .ok (.value, '\x00')
    else .error .invalidCommand
  | .value =>
    if isNewline r then .ok (.nil, r)
    else if isBlank r then .ok (.nil, r)
    else .ok (.value, r)
  | .parameter =>
    if isAlpha r || isNumber r || r == '_' then .ok (.parameter, r)
    else if isBlank r then .ok (.value, '\x00')
    else .error .unexpectedEOF
  | .message =>
    if isAlpha r then .ok (.message, r)
    else if isBlank r then .ok (.value, '\x00')
    else .error .unexpectedEOF
  | .comment => if isNewline r then .ok (.nil, '\x00') else .ok (.comment, '\x00')

variable (table : PrintTable)

/-- The last lines of the loop. -/
def Parse.write (s : Parse) (r : Char) : Parse :=
  if table.isPrint r then { s with b := s.b ++ [r] } else s

/-- `b.Reset()`, the new state, and the last lines of the loop. -/
def Parse.enter (s : Parse) (next : State) (r : Char) : Parse :=
  { s with curr := next, b := [] }.write table r

/-- The command with its value, and the role in front if there is one. -/
def Parse.finish (s : Parse) (value : List Char) : Parse :=
  let args := if s.role ≠ [] then s.role ++ ": ".toList ++ value else value
  let cmd := { s.cmd with args := args }
  { s with cmd := cmd, role := [], commands := s.commands ++ [cmd] }

/-- One rune. -/
def step (s : Parse) (r : Char) : Except Error Parse :=
  let s := { s with currLine := if isNewline r then s.currLine + 1 else s.currLine }
  match parseRuneForState r s.curr with
  | .error .unexpectedEOF => .error (.unexpectedEOFIn s.b)
  | .error .invalidCommand => .error (.parserError s.currLine .invalidCommand)
  | .ok (next, r) =>
    if next = s.curr then .ok (s.write table r)
    else
      match s.curr with
      | .name =>
        if isValidCommand s.b then
          let name := toLower s.b
          if name = "from".toList then
            .ok ({ s with cmd := { s.cmd with name := "model".toList } }.enter table next r)
          else if name = "parameter".toList then .ok (s.enter table .parameter r)
          else if name = "message".toList then
            .ok ({ s with cmd := { s.cmd with name := name } }.enter table .message r)
          else .ok ({ s with cmd := { s.cmd with name := name } }.enter table next r)
        else .error (.parserError s.currLine .invalidCommand)
      | .parameter => .ok ({ s with cmd := { s.cmd with name := s.b } }.enter table next r)
      | .message =>
        if isValidMessageRole s.b then .ok ({ s with role := s.b }.enter table next r)
        else .error (.parserError s.currLine .invalidMessageRole)
      | .value =>
        match unquote (trimSpace s.b) with
        | some value =>
          if isBlank r then .ok { s with b := s.b ++ [r] }
          else .ok ((s.finish value).enter table next r)
        | none => .ok { s with b := s.b ++ [r] }
      | _ => .ok (s.enter table next r)

def run : Parse → List Char → Except Error Parse
  | s, [] => .ok s
  | s, r :: rs => (step table s r).bind fun s' => run s' rs

/-- What is left at the end of the file. -/
def flush (s : Parse) : Except Error (List Command) :=
  match s.curr with
  | .comment => .ok s.commands
  | .nil => .ok s.commands
  | .value =>
    match unquote (trimSpace s.b) with
    | some value => .ok (s.finish value).commands
    | none => .error .unexpectedEOF
  | _ => .error .unexpectedEOF

def parseFile (file : List Char) : Except Error (List Command) := do
  let s ← run table .init file
  let commands ← flush s
  if commands.any (·.name = "model".toList) then .ok commands else .error .missingFrom

/-! ## Quotation, taken apart -/

theorem unquote_eq {t v : List Char} (h : unquote t = some v) :
    (v = t ∧ t.head? ≠ some '"') ∨ (t = '"' :: v ++ ['"'] ∧ t.take 3 ≠ "\"\"\"".toList) ∨
      t = "\"\"\"".toList ++ v ++ "\"\"\"".toList := by
  rw [unquote] at h
  split at h
  · rename_i hthree
    split at h
    · rename_i hlong
      obtain ⟨hlong, hlast⟩ := hlong
      right
      right
      have hv : (t.take (t.length - 3)).drop 3 = v := Option.some.inj h
      have hfront : (t.take (t.length - 3)).take 3 = "\"\"\"".toList := by
        rw [List.take_take, min_eq_left (by omega), hthree]
      have hsplit := List.take_append_drop (t.length - 3) t
      have hsplit' := List.take_append_drop 3 (t.take (t.length - 3))
      rw [hfront, hv] at hsplit'
      rw [← hsplit', hlast] at hsplit
      exact hsplit.symm
    · cases h
  · rename_i hthree
    split at h
    · rename_i hone
      split at h
      · rename_i hlong
        obtain ⟨hlong, hlast⟩ := hlong
        right
        left
        have hv : (t.take (t.length - 1)).drop 1 = v := Option.some.inj h
        have hfront : (t.take (t.length - 1)).take 1 = ['"'] := by
          rw [List.take_take, min_eq_left (by omega), hone]
        have hsplit := List.take_append_drop (t.length - 1) t
        have hsplit' := List.take_append_drop 1 (t.take (t.length - 1))
        rw [hfront, hv] at hsplit'
        rw [← hsplit', hlast] at hsplit
        exact ⟨hsplit.symm, hthree⟩
      · cases h
    · rename_i hone
      left
      refine ⟨(Option.some.inj h).symm, fun hhead => hone ?_⟩
      cases t with
      | nil => cases hhead
      | cons c t =>
        obtain rfl := Option.some.inj hhead
        rfl

/-- Without a quote in front there is no quotation. -/
theorem unquote_plain {t : List Char} (h : t.head? ≠ some '"') : unquote t = some t := by
  cases t with
  | nil => rfl
  | cons c t =>
    have hc : c ≠ '"' := fun hc => h (congrArg some hc)
    rw [unquote, if_neg, if_neg]
    · intro hone
      exact hc (List.cons.inj hone).1
    · intro hthree
      exact hc (List.cons.inj hthree).1

theorem unquote_three (v : List Char) :
    unquote ("\"\"\"".toList ++ v ++ "\"\"\"".toList) = some v := by
  have hlen : ("\"\"\"".toList ++ v ++ "\"\"\"".toList).length = v.length + 6 := by
    simp only [List.length_append]
    show 3 + v.length + 3 = v.length + 6
    omega
  have htake : ("\"\"\"".toList ++ v ++ "\"\"\"".toList).take (v.length + 3) = "\"\"\"".toList ++ v :=
    List.take_left' (by rw [List.length_append]; exact Nat.add_comm _ _)
  have hdrop : ("\"\"\"".toList ++ v ++ "\"\"\"".toList).drop (v.length + 3) = "\"\"\"".toList :=
    List.drop_left' (by rw [List.length_append]; exact Nat.add_comm _ _)
  rw [unquote, if_pos (by rfl), hlen, if_pos ⟨by omega, hdrop⟩]
  show some ((("\"\"\"".toList ++ v ++ "\"\"\"".toList).take (v.length + 3)).drop 3) = some v
  rw [htake]
  rfl

theorem unquote_one {v : List Char} (hthree : ('"' :: v ++ ['"']).take 3 ≠ "\"\"\"".toList) :
    unquote ('"' :: v ++ ['"']) = some v := by
  have hlen : ('"' :: v ++ ['"']).length = v.length + 2 := by simp
  have htake : ('"' :: v ++ ['"']).take (v.length + 1) = '"' :: v := List.take_left' rfl
  have hdrop : ('"' :: v ++ ['"']).drop (v.length + 1) = ['"'] := List.drop_left' rfl
  rw [unquote, if_neg hthree, if_pos (by rfl), hlen, if_pos ⟨by omega, hdrop⟩]
  show some ((('"' :: v ++ ['"']).take (v.length + 1)).drop 1) = some v
  rw [htake]
  rfl

theorem take_three {v : List Char} (h : '"' ∉ v) :
    ('"' :: v ++ ['"']).take 3 ≠ "\"\"\"".toList := by
  cases v with
  | nil => decide
  | cons c v =>
    intro hthree
    exact h ((List.cons.inj (List.cons.inj hthree).2).1 ▸ List.mem_cons_self ..)

/-! ## Values -/

/-- The runes that a value keeps. -/
def keeps (r : Char) : Bool := table.isPrint r || isBlank r || isNewline r

/-- At no newline of the text, behind what was read, does the value end. -/
def Open (b text : List Char) : Prop :=
  ∀ q c r, text = q ++ c :: r → isNewline c = true → unquote (trimSpace (b ++ q)) = none

variable {table}

theorem isNewline_ne {r : Char} (h : isNewline r = true) : isBlank r = false := by
  simp only [isNewline, Bool.or_eq_true, beq_iff_eq] at h
  rcases h with rfl | rfl <;> rfl

theorem isNewline_print {r : Char} (h : isNewline r = true) : table.isPrint r = false := by
  simp only [isNewline, Bool.or_eq_true, beq_iff_eq] at h
  rcases h with rfl | rfl
  · exact (table.ascii '\r' (by decide)).trans (by decide)
  · exact (table.ascii '\n' (by decide)).trans (by decide)

/-- A rune of a value that does not end it. -/
theorem step_value {s : Parse} (hs : s.curr = .value) {r : Char} (hr : keeps table r = true)
    (hopen : isNewline r = true → unquote (trimSpace s.b) = none) :
    ∃ line, step table s r = .ok { s with currLine := line, b := s.b ++ [r] } := by
  refine ⟨if isNewline r then s.currLine + 1 else s.currLine, ?_⟩
  by_cases hnewline : isNewline r = true
  · simp [step, parseRuneForState, hs, hnewline, hopen hnewline]
  · by_cases hblank : isBlank r = true
    · cases hvalue : unquote (trimSpace s.b) <;>
        simp [step, parseRuneForState, hs, hnewline, hblank, hvalue]
    · have hprint : table.isPrint r = true := by simpa [keeps, hnewline, hblank] using hr
      simp [step, parseRuneForState, hs, hnewline, hblank, hprint, Parse.write]

/-- A newline that ends a value. -/
theorem step_value_end {s : Parse} (hs : s.curr = .value) {r : Char} (hr : isNewline r = true)
    {value : List Char} (hvalue : unquote (trimSpace s.b) = some value) :
    step table s r =
      .ok { s.finish value with curr := .nil, currLine := s.currLine + 1, b := [] } := by
  simp [step, parseRuneForState, hs, hr, hvalue, isNewline_ne hr, Parse.enter, Parse.write,
    isNewline_print hr, Parse.finish]

/-- A text that the value keeps and that does not end it. -/
theorem run_value {s : Parse} (hs : s.curr = .value) {text : List Char}
    (hkeeps : ∀ r ∈ text, keeps table r = true) (hopen : Open s.b text) (tail : List Char) :
    ∃ line, run table s (text ++ tail) =
      run table { s with currLine := line, b := s.b ++ text } tail := by
  induction text generalizing s with
  | nil => exact ⟨s.currLine, by rw [List.append_nil]; rfl⟩
  | cons r text ih =>
    have hfirst : isNewline r = true → unquote (trimSpace s.b) = none := fun hr => by
      have h := hopen [] r text rfl hr
      rwa [List.append_nil] at h
    obtain ⟨line, hstep⟩ := step_value hs (hkeeps r (List.mem_cons_self ..)) hfirst
    have hrest : Open (s.b ++ [r]) text := fun q c r' htext hc => by
      have h := hopen (r :: q) c r' (congrArg (r :: ·) htext) hc
      rwa [List.append_assoc]
    obtain ⟨line', hrun⟩ := @ih { s with currLine := line, b := s.b ++ [r] } hs
      (fun r' hr' => hkeeps r' (List.mem_cons_of_mem r hr')) hrest
    refine ⟨line', ?_⟩
    rw [List.cons_append, run, hstep, Except.bind, hrun, List.append_assoc]
    rfl

/-- A value that ends at a newline. -/
theorem run_value_end {s : Parse} (hs : s.curr = .value) (hb : s.b = []) {text value : List Char}
    (hkeeps : ∀ r ∈ text, keeps table r = true) (hopen : Open [] text) {c : Char}
    (hc : isNewline c = true) (hvalue : unquote (trimSpace text) = some value)
    (tail : List Char) : ∃ line, run table s (text ++ c :: tail) =
      run table { s.finish value with curr := .nil, currLine := line, b := [] } tail := by
  obtain ⟨line, hrun⟩ := run_value hs hkeeps (hb ▸ hopen) (c :: tail)
  refine ⟨line + 1, ?_⟩
  rw [hrun, run, @step_value_end table { s with currLine := line, b := s.b ++ text } hs c hc value
    (by rw [hb]; exact hvalue)]
  rfl

/-- A value ends at its first newline behind which it is not open, or goes on. -/
theorem exists_end (b text : List Char) : Open b text ∨ ∃ q c r, text = q ++ c :: r ∧
    isNewline c = true ∧ Open b q ∧ unquote (trimSpace (b ++ q)) ≠ none := by
  induction text generalizing b with
  | nil =>
    left
    intro q c r htext
    simp at htext
  | cons c text ih =>
    by_cases hend : isNewline c = true ∧ unquote (trimSpace b) ≠ none
    · right
      refine ⟨[], c, text, rfl, hend.1, ?_, by rw [List.append_nil]; exact hend.2⟩
      intro q c r htext
      simp at htext
    · have hfirst : isNewline c = true → unquote (trimSpace b) = none := fun hc => by
        by_contra hne
        exact hend ⟨hc, hne⟩
      have hcons : ∀ q, Open (b ++ [c]) q → Open b (c :: q) := by
        intro q hq q' c' r htext hc'
        cases q' with
        | nil =>
          obtain ⟨rfl, -⟩ := List.cons.inj htext
          rw [List.append_nil]
          exact hfirst hc'
        | cons d q' =>
          obtain ⟨rfl, hrest⟩ := List.cons.inj htext
          have h := hq q' c' r hrest hc'
          rwa [List.append_assoc] at h
      rcases ih (b ++ [c]) with hopen | ⟨q, c', r, rfl, hc', hopen, hend'⟩
      · exact Or.inl (hcons text hopen)
      · refine Or.inr ⟨c :: q, c', r, rfl, hc', hcons q hopen, ?_⟩
        rwa [List.append_assoc] at hend'

/-! ## What is in front of a value -/

/-- Letters, digits and underscores. -/
def isWord (r : Char) : Bool := isAlpha r || isNumber r || r == '_'

theorem isWord_print {r : Char} (h : isWord r = true) : table.isPrint r = true := by
  have hrange : 32 ≤ r.toNat ∧ r.toNat < 127 := by
    simp only [isWord, isAlpha, isNumber, Bool.or_eq_true, Bool.and_eq_true, decide_eq_true_eq,
      beq_iff_eq] at h
    have hle : ∀ {a b : Char}, a ≤ b → a.toNat ≤ b.toNat := fun h => h
    rcases h with ((⟨h, h'⟩ | ⟨h, h'⟩) | ⟨h, h'⟩) | rfl
    · have := hle h
      have := hle h'
      simp at *
      omega
    · have := hle h
      have := hle h'
      simp at *
      omega
    · have := hle h
      have := hle h'
      simp at *
      omega
    · decide
  rw [table.ascii r (by omega)]
  simp [hrange]

theorem isAlpha_word {r : Char} (h : isAlpha r = true) : isWord r = true := by
  simp [isWord, h]

/-- Blanks, newlines and the comment sign are not letters. -/
theorem isAlpha_ne {r : Char} (h : isAlpha r = true) :
    r ≠ '#' ∧ isBlank r = false ∧ isNewline r = false := by
  refine ⟨?_, ?_, ?_⟩
  · rintro rfl
    revert h
    decide
  · by_contra hblank
    simp only [isBlank, Bool.not_eq_false, Bool.or_eq_true, beq_iff_eq] at hblank
    rcases hblank with rfl | rfl <;> revert h <;> decide
  · by_contra hnewline
    simp only [isNewline, Bool.not_eq_false, Bool.or_eq_true, beq_iff_eq] at hnewline
    rcases hnewline with rfl | rfl <;> revert h <;> decide

theorem isWord_ne {r : Char} (h : isWord r = true) : isBlank r = false ∧ isNewline r = false := by
  constructor
  · by_contra hblank
    simp only [isBlank, Bool.not_eq_false, Bool.or_eq_true, beq_iff_eq] at hblank
    rcases hblank with rfl | rfl <;> revert h <;> decide
  · by_contra hnewline
    simp only [isNewline, Bool.not_eq_false, Bool.or_eq_true, beq_iff_eq] at hnewline
    rcases hnewline with rfl | rfl <;> revert h <;> decide

/-- The states that read a word, and the runes of their words. -/
def State.reads : State → Char → Bool
  | .name, r => isAlpha r
  | .parameter, r => isWord r
  | .message, r => isAlpha r
  | _, _ => false

theorem State.reads_word {state : State} {r : Char} (h : state.reads r = true) :
    isWord r = true := by
  cases state with
  | name => exact isAlpha_word h
  | parameter => exact h
  | message => exact isAlpha_word h
  | nil => cases h
  | value => cases h
  | comment => cases h

theorem step_word {s : Parse} {r : Char} (hr : s.curr.reads r = true) :
    step table s r = .ok { s with b := s.b ++ [r] } := by
  have hword := State.reads_word hr
  obtain ⟨cmd, curr, line, b, role, commands⟩ := s
  have hprint := @isWord_print table r hword
  have hnot := (isWord_ne hword).2
  cases curr with
  | name =>
    have ha : isAlpha r = true := hr
    simp [step, parseRuneForState, ha, hnot, Parse.write, hprint]
  | parameter =>
    have ha : (isAlpha r || isNumber r || r == '_') = true := hr
    simp only [step, parseRuneForState, ha, hnot, Parse.write, hprint, if_true]
    rfl
  | message =>
    have ha : isAlpha r = true := hr
    simp [step, parseRuneForState, ha, hnot, Parse.write, hprint]
  | nil => cases hr
  | value => cases hr
  | comment => cases hr

theorem run_word {s : Parse} {w : List Char} (hw : ∀ r ∈ w, s.curr.reads r = true)
    (tail : List Char) : run table s (w ++ tail) = run table { s with b := s.b ++ w } tail := by
  induction w generalizing s with
  | nil => rw [List.append_nil, List.nil_append]
  | cons r w ih =>
    have hstep := @step_word table s r (hw r (List.mem_cons_self ..))
    have hrest := @ih { s with b := s.b ++ [r] } fun r' hr' => hw r' (List.mem_cons_of_mem r hr')
    rw [List.cons_append, run, hstep, Except.bind, hrest, List.append_assoc]
    rfl

/-- Between two commands. -/
structure Clean (s : Parse) : Prop where
  curr : s.curr = .nil
  b : s.b = []
  role : s.role = []

/-- At the first rune of a value. -/
structure Reading (s : Parse) (name role : List Char) (commands : List Command) : Prop where
  curr : s.curr = .value
  b : s.b = []
  name : s.cmd.name = name
  role : s.role = role
  commands : s.commands = commands

/-- The rune 0 is not written. -/
theorem enter_zero (s : Parse) (next : State) :
    s.enter table next '\x00' = { s with curr := next, b := [] } := by
  have hprint : table.isPrint '\x00' = false := (table.ascii _ (by decide)).trans (by decide)
  simp [Parse.enter, Parse.write, hprint]

/-- The name of a command, up to the blank behind it. -/
theorem run_name {s : Parse} (hs : Clean s) {w : List Char} (hne : w ≠ [])
    (hw : ∀ r ∈ w, isAlpha r = true) (hvalid : isValidCommand w = true) (tail : List Char) :
    ∃ s', run table s (w ++ ' ' :: tail) = run table s' tail ∧ s'.b = [] ∧ s'.role = [] ∧
      s'.commands = s.commands ∧
      (toLower w = "from".toList → s'.curr = .value ∧ s'.cmd.name = "model".toList) ∧
      (toLower w = "parameter".toList → s'.curr = .parameter) ∧
      (toLower w = "message".toList → s'.curr = .message ∧ s'.cmd.name = "message".toList) ∧
      (toLower w ∈ plainCommands → s'.curr = .value ∧ s'.cmd.name = toLower w) := by
  obtain ⟨r, w', rfl⟩ := List.exists_cons_of_ne_nil hne
  obtain ⟨hhash, hblank, hnewline⟩ := isAlpha_ne (hw r (List.mem_cons_self ..))
  have hprint := @isWord_print table r (isAlpha_word (hw r (List.mem_cons_self ..)))
  obtain ⟨cmd, curr, line, b, role, commands⟩ := s
  obtain ⟨rfl, rfl, rfl⟩ : curr = .nil ∧ b = [] ∧ role = [] := ⟨hs.curr, hs.b, hs.role⟩
  have hfirst : step table ⟨cmd, .nil, line, [], [], commands⟩ r =
      .ok ⟨cmd, .name, line, [r], [], commands⟩ := by
    simp [step, parseRuneForState, hhash, hblank, hnewline, Parse.enter, Parse.write, hprint]
  have hword := @run_word table ⟨cmd, .name, line, [r], [], commands⟩ w'
    (fun r' hr' => hw r' (List.mem_cons_of_mem r hr')) (' ' :: tail)
  rw [List.cons_append, run, hfirst, Except.bind, hword]
  show ∃ s', run table ⟨cmd, .name, line, r :: w', [], commands⟩ (' ' :: tail) = _ ∧ _
  have hzero := @enter_zero table
  have hnotAlpha : isAlpha ' ' = false := by decide
  have hisBlank : isBlank ' ' = true := by decide
  have hnotNewline : isNewline ' ' = false := by decide
  -- the blank behind the name
  have hstep : ∀ s', step table ⟨cmd, .name, line, r :: w', [], commands⟩ ' ' = .ok s' →
      run table ⟨cmd, .name, line, r :: w', [], commands⟩ (' ' :: tail) = run table s' tail :=
    fun s' h => by rw [run, h]; rfl
  generalize r :: w' = w at *
  by_cases hfrom : toLower w = "from".toList
  · refine ⟨⟨{ cmd with name := "model".toList }, .value, line, [], [], commands⟩, hstep _ ?_, rfl,
      rfl, rfl, fun _ => ⟨rfl, rfl⟩, ?_, ?_, ?_⟩
    · simp [step, parseRuneForState, hnotAlpha, hisBlank, hnotNewline, hvalid, hfrom, hzero]
    · rw [hfrom]
      exact fun h => absurd h (by decide)
    · rw [hfrom]
      exact fun h => absurd h (by decide)
    · rw [hfrom]
      exact fun h => absurd h (by decide)
  · by_cases hparameter : toLower w = "parameter".toList
    · refine ⟨⟨cmd, .parameter, line, [], [], commands⟩, hstep _ ?_, rfl, rfl, rfl,
        fun h => absurd h hfrom, fun _ => rfl, ?_, ?_⟩
      · simp [step, parseRuneForState, hnotAlpha, hisBlank, hnotNewline, hvalid, hparameter, hzero]
      · rw [hparameter]
        exact fun h => absurd h (by decide)
      · rw [hparameter]
        exact fun h => absurd h (by decide)
    · by_cases hmessage : toLower w = "message".toList
      · refine ⟨⟨{ cmd with name := "message".toList }, .message, line, [], [], commands⟩,
          hstep _ ?_, rfl, rfl, rfl, fun h => absurd h hfrom, fun h => absurd h hparameter,
          fun _ => ⟨rfl, rfl⟩, ?_⟩
        · simp [step, parseRuneForState, hnotAlpha, hisBlank, hnotNewline, hvalid, hmessage, hzero]
        · rw [hmessage]
          exact fun h => absurd h (by decide)
      · refine ⟨⟨{ cmd with name := toLower w }, .value, line, [], [], commands⟩, hstep _ ?_, rfl,
          rfl, rfl, fun h => absurd h hfrom, fun h => absurd h hparameter,
          fun h => absurd h hmessage, fun _ => ⟨rfl, rfl⟩⟩
        simp only [step, parseRuneForState, hnotAlpha, hisBlank, hnotNewline, hvalid, hfrom,
          hparameter, hmessage, hzero, reduceCtorEq, Bool.false_eq_true, if_true, if_false]

/-- A parameter's name, up to the blank behind it. -/
theorem run_parameter {s : Parse} (hs : s.curr = .parameter) (hb : s.b = []) (hrole : s.role = [])
    {w : List Char} (hw : ∀ r ∈ w, isWord r = true) (tail : List Char) :
    ∃ s', run table s (w ++ ' ' :: tail) = run table s' tail ∧ Reading s' w [] s.commands := by
  obtain ⟨cmd, curr, line, b, role, commands⟩ := s
  obtain ⟨rfl, rfl, rfl⟩ : curr = .parameter ∧ b = [] ∧ role = [] := ⟨hs, hb, hrole⟩
  have hword := @run_word table ⟨cmd, .parameter, line, [], [], commands⟩ w hw (' ' :: tail)
  refine ⟨⟨{ cmd with name := w }, .value, line, [], [], commands⟩, ?_, ⟨rfl, rfl, rfl, rfl, rfl⟩⟩
  have hstep : step table ⟨cmd, .parameter, line, w, [], commands⟩ ' ' =
      .ok ⟨{ cmd with name := w }, .value, line, [], [], commands⟩ := by
    have hzero := @enter_zero table
    have hnotAlpha : isAlpha ' ' = false := by decide
    have hnotNumber : isNumber ' ' = false := by decide
    have hisBlank : isBlank ' ' = true := by decide
    have hnotNewline : isNewline ' ' = false := by decide
    simp [step, parseRuneForState, hnotAlpha, hnotNumber, hisBlank, hnotNewline, hzero]
  rw [hword, List.nil_append, run, hstep]
  rfl

/-- A role, up to the blank behind it. -/
theorem run_message {s : Parse} (hs : s.curr = .message) (hb : s.b = [])
    {w : List Char} (hw : ∀ r ∈ w, isAlpha r = true) (tail : List Char) :
    run table s (w ++ ' ' :: tail) =
      if isValidMessageRole w then
        run table { s with curr := .value, b := [], role := w } tail
      else .error (.parserError s.currLine .invalidMessageRole) := by
  obtain ⟨cmd, curr, line, b, role, commands⟩ := s
  obtain ⟨rfl, rfl⟩ : curr = .message ∧ b = [] := ⟨hs, hb⟩
  have hword := @run_word table ⟨cmd, .message, line, [], role, commands⟩ w hw (' ' :: tail)
  have hzero := @enter_zero table
  have hnotAlpha : isAlpha ' ' = false := by decide
  have hisBlank : isBlank ' ' = true := by decide
  have hnotNewline : isNewline ' ' = false := by decide
  rw [hword, List.nil_append, run]
  split
  · rename_i hvalid
    have hstep : step table ⟨cmd, .message, line, w, role, commands⟩ ' ' =
        .ok ⟨cmd, .value, line, [], w, commands⟩ := by
      simp [step, parseRuneForState, hnotAlpha, hisBlank, hnotNewline, hvalid, hzero]
    rw [hstep]
    rfl
  · rename_i hvalid
    have hstep : step table ⟨cmd, .message, line, w, role, commands⟩ ' ' =
        .error (.parserError line .invalidMessageRole) := by
      simp [step, parseRuneForState, hnotAlpha, hisBlank, hnotNewline, hvalid]
    rw [hstep]
    rfl

/-! ## Printed values -/

/-- The printer quotes the value. -/
def Quoted (v : List Char) : Prop := '\n' ∈ v ∨ v.head? = some ' ' ∨ v.getLast? = some ' '

/-- The value may be printed as it is. -/
structure Bare (v : List Char) : Prop where
  trim : trimSpace v = v
  quote : v.head? ≠ some '"'
  newline : ∀ r ∈ v, isNewline r = false

/-- A value as the parser gives it: no line of it but the last ends with three quotes. -/
structure Value (table : PrintTable) (v : List Char) : Prop where
  keeps : ∀ r ∈ v, keeps table r = true
  lines : ∀ q c r, v = q ++ c :: r → isNewline c = true → ¬"\"\"\"".toList <:+ trimRight q

theorem quote_of_quoted {v : List Char} (h : Quoted v) : quote v =
    if '"' ∈ v then "\"\"\"".toList ++ v ++ "\"\"\"".toList else '"' :: v ++ ['"'] := by
  rw [quote]
  exact if_pos h

theorem quote_of_not_quoted {v : List Char} (h : ¬Quoted v) : quote v = v := by
  rw [quote]
  exact if_neg h

theorem trimLeft_cons {r : Char} (h : isSpace r = false) (s : List Char) :
    trimLeft (r :: s) = r :: s := by
  rw [trimLeft, List.dropWhile_cons_of_neg (by rw [h]; exact Bool.false_ne_true)]

theorem trimRight_concat {r : Char} (h : isSpace r = false) (s : List Char) :
    trimRight (s ++ [r]) = s ++ [r] := List.rdropWhile_concat_neg _ _ _ (by simp [h])

theorem trimSpace_quoted (v : List Char) : trimSpace ('"' :: v ++ ['"']) = '"' :: v ++ ['"'] := by
  have hquote : isSpace '"' = false := by decide
  rw [trimSpace, List.cons_append, trimLeft_cons hquote, ← List.cons_append,
    trimRight_concat hquote]

theorem trimRight_cons {r : Char} (h : isSpace r = false) (s : List Char) :
    trimRight (r :: s) = r :: trimRight s := by
  have hboth := trimRight_append [r] s
  have hone : trimRight [r] = [r] := trimRight_concat h []
  rw [hone] at hboth
  rw [← List.singleton_append, hboth]
  split
  · rename_i hnil
    rw [hnil]
  · rfl

/-- What is before a rune of `v ++ w` that is not in `w` is before it in `v`. -/
theorem split_left {v w q r : List Char} {c : Char} (hw : c ∉ w) (h : v ++ w = q ++ c :: r) :
    ∃ r', v = q ++ c :: r' := by
  rcases List.append_eq_append_iff.mp h with ⟨a, rfl, ha⟩ | ⟨a, rfl, ha⟩
  · exact absurd (ha ▸ List.mem_append_right a (List.mem_cons_self ..)) hw
  · cases a with
    | nil =>
      rw [List.nil_append] at ha
      exact absurd (ha ▸ List.mem_cons_self ..) hw
    | cons d a =>
      obtain ⟨rfl, rfl⟩ := List.cons.inj ha
      exact ⟨a, rfl⟩

theorem isNewline_quote {c : Char} (h : isNewline c = true) : c ≠ '"' := by
  rintro rfl
  revert h
  decide

/-- A quotation in single quotes is open up to its last quote. -/
theorem open_one {v : List Char} (h : '"' ∉ v) : Open [] ('"' :: v ++ ['"']) := by
  have hquote : isSpace '"' = false := by decide
  intro q c r htext hc
  have hne := isNewline_quote hc
  cases q with
  | nil => exact absurd (List.cons.inj htext).1.symm hne
  | cons d q =>
    obtain ⟨rfl, hrest⟩ := List.cons.inj htext
    obtain ⟨r', hv⟩ := split_left (by simpa using hne) hrest
    have hq : '"' ∉ trimRight q := fun hmem =>
      h (hv ▸ List.mem_append_left _ ((trimRight_starts q).subset hmem))
    rw [List.nil_append, trimSpace, trimLeft_cons hquote, trimRight_cons hquote]
    by_contra hsome
    obtain ⟨w, hw⟩ := Option.ne_none_iff_exists'.mp hsome
    rcases unquote_eq hw with ⟨-, hhead⟩ | ⟨hone, -⟩ | hthree
    · exact hhead rfl
    · exact hq ((List.cons.inj hone).2 ▸ List.mem_append_right w (List.mem_singleton_self _))
    · exact hq ((List.cons.inj hthree).2 ▸ List.mem_cons_self ..)

theorem unquote_three_some {t w : List Char} (h : unquote ("\"\"\"".toList ++ t) = some w) :
    "\"\"\"".toList <:+ t := by
  rw [unquote, if_pos (by rfl)] at h
  split at h
  · rename_i hlong
    obtain ⟨hlong, hlast⟩ := hlong
    have hlen : ("\"\"\"".toList ++ t).length = t.length + 3 := by
      rw [List.length_append]
      exact Nat.add_comm _ _
    rw [hlen] at hlong hlast
    have hdrop : ("\"\"\"".toList ++ t).drop (t.length + 3 - 3) = t.drop (t.length - 3) := by
      rw [Nat.add_sub_cancel, List.drop_append, List.drop_eq_nil_of_le (by
        show 3 ≤ t.length
        omega)]
      rfl
    rw [← hlast, hdrop]
    exact List.drop_suffix _ t
  · cases h

/-- A quotation in triple quotes is open up to its last quotes, if no line ends with three. -/
theorem open_three {v : List Char} (h : Value table v) :
    Open [] ("\"\"\"".toList ++ v ++ "\"\"\"".toList) := by
  have hquote : isSpace '"' = false := by decide
  intro q c r htext hc
  have hne := isNewline_quote hc
  -- the newline is behind the three quotes in front
  obtain ⟨q, rfl, hrest⟩ : ∃ q', q = '"' :: '"' :: '"' :: q' ∧ v ++ "\"\"\"".toList = q' ++ c :: r := by
    have hthree : "\"\"\"".toList = ['"', '"', '"'] := rfl
    rw [List.append_assoc, hthree] at htext
    rw [hthree]
    simp only [List.cons_append, List.nil_append] at htext
    rcases q with _ | ⟨a, _ | ⟨b, _ | ⟨d, q⟩⟩⟩
    · exact absurd (List.cons.inj htext).1.symm hne
    · exact absurd (List.cons.inj (List.cons.inj htext).2).1.symm hne
    · exact absurd (List.cons.inj (List.cons.inj (List.cons.inj htext).2).2).1.symm hne
    · obtain ⟨rfl, hfirst⟩ := List.cons.inj htext
      obtain ⟨rfl, hsecond⟩ := List.cons.inj hfirst
      obtain ⟨rfl, hthird⟩ := List.cons.inj hsecond
      exact ⟨q, rfl, hthird⟩
  obtain ⟨r', hv⟩ := split_left (by
    intro hmem
    rcases List.mem_cons.mp hmem with h | hmem
    · exact hne h
    · rcases List.mem_cons.mp hmem with h | hmem
      · exact hne h
      · exact hne (List.mem_singleton.mp hmem)) hrest
  rw [List.nil_append, trimSpace, trimLeft_cons hquote, trimRight_cons hquote,
    trimRight_cons hquote, trimRight_cons hquote]
  by_contra hsome
  obtain ⟨w, hw⟩ := Option.ne_none_iff_exists'.mp hsome
  exact h.lines q c r' hv hc (unquote_three_some hw)

theorem keeps_quote : keeps table '"' = true := by
  have hprint : table.isPrint '"' = true := (table.ascii _ (by decide)).trans (by decide)
  simp [keeps, hprint]

theorem Bare.readBack {v : List Char} (h : Bare v) :
    Open [] v ∧ unquote (trimSpace v) = some v := by
  refine ⟨?_, by rw [h.trim, unquote_plain h.quote]⟩
  rintro q c r rfl hc
  rw [h.newline c (List.mem_append_right q (List.mem_cons_self ..))] at hc
  cases hc

/-- A printed value is read back, if it is quoted or may be printed as it is. -/
theorem readBack {v : List Char} (h : Value table v) (hv : Quoted v ∨ Bare v) :
    Open [] (quote v) ∧ unquote (trimSpace (quote v)) = some v ∧
      ∀ r ∈ quote v, keeps table r = true := by
  by_cases hquoted : Quoted v
  · rw [quote_of_quoted hquoted]
    split
    · have htrim : trimSpace ("\"\"\"".toList ++ v ++ "\"\"\"".toList) =
          "\"\"\"".toList ++ v ++ "\"\"\"".toList := by
        have hone := trimSpace_quoted ('"' :: '"' :: v ++ ['"', '"'])
        have hsame : '"' :: ('"' :: '"' :: v ++ ['"', '"']) ++ ['"'] =
            "\"\"\"".toList ++ v ++ "\"\"\"".toList := by
          simp
        rwa [hsame] at hone
      refine ⟨open_three h, ?_, ?_⟩
      · rw [htrim, unquote_three]
      · intro r hr
        simp only [List.mem_append] at hr
        rcases hr with (hr | hr) | hr
        · have : r = '"' := by simpa using hr
          rw [this]
          exact keeps_quote
        · exact h.keeps r hr
        · have : r = '"' := by simpa using hr
          rw [this]
          exact keeps_quote
    · rename_i hnot
      refine ⟨open_one hnot, ?_, ?_⟩
      · rw [trimSpace_quoted, unquote_one (take_three hnot)]
      · intro r hr
        rcases List.mem_append.mp hr with hr | hr
        · rcases List.mem_cons.mp hr with rfl | hr
          · exact keeps_quote
          · exact h.keeps r hr
        · rw [List.mem_singleton.mp hr]
          exact keeps_quote
  · have hbare := hv.resolve_left hquoted
    rw [quote_of_not_quoted hquoted]
    exact ⟨hbare.readBack.1, hbare.readBack.2, h.keeps⟩

/-! ## Printed commands -/

/-- A command as the parser gives it. -/
structure Good (table : PrintTable) (c : Command) : Prop where
  name : ∀ r ∈ c.name, isWord r = true
  args : Value table c.args ∨ c.name = "message".toList ∧
    ∃ role ∈ roles, ∃ m, c.args = role ++ ": ".toList ++ m ∧ Value table m

/-- The value of the command is read back when it is printed. -/
def ReadsBack (c : Command) : Prop :=
  if c.name = "model".toList then Bare c.args
  else if c.name ∈ plainCommands then Quoted c.args ∨ Bare c.args
  else if c.name = "message".toList then
    ∃ role ∈ roles, ∃ m, c.args = role ++ ": ".toList ++ m ∧ (Quoted m ∨ Bare m)
  else Quoted c.args ∨ Bare c.args

/-- A command that is printed with its name or as a parameter. -/
theorem run_front {s : Parse} (hs : Clean s) {c : Command} (hc : ∀ r ∈ c.name, isWord r = true)
    (hmessage : c.name ≠ "message".toList) (tail : List Char) :
    ∃ s', run table s (c.print ++ tail) = run table s'
        ((if c.name = "model".toList then c.args else quote c.args) ++ tail) ∧
      Reading s' c.name [] s.commands := by
  rw [Command.print]
  by_cases hmodel : c.name = "model".toList
  · obtain ⟨s', hrun, hb, hrole, hcommands, hfrom, -⟩ := @run_name table s hs "FROM".toList
      (by decide) (List.all_eq_true.mp (by decide)) (by decide) (c.args ++ tail)
    obtain ⟨hcurr, hname⟩ := hfrom (by decide)
    rw [if_pos hmodel, if_pos hmodel]
    exact ⟨s', hrun, hcurr, hb, hname.trans hmodel.symm, hrole, hcommands⟩
  · rw [if_neg hmodel, if_neg hmodel]
    by_cases hplain : c.name ∈ plainCommands
    · -- the name in capitals is a command
      have hupper : ∀ name ∈ plainCommands, toUpper name ≠ [] ∧
          (toUpper name).all isAlpha = true ∧ isValidCommand (toUpper name) = true ∧
            toLower (toUpper name) = name := by decide
      obtain ⟨hne, hall, hvalid, hlower⟩ := hupper c.name hplain
      have halpha := List.all_eq_true.mp hall
      obtain ⟨s', hrun, hb, hrole, hcommands, -, -, -, hother⟩ :=
        @run_name table s hs _ hne halpha hvalid (quote c.args ++ tail)
      rw [hlower] at hother
      obtain ⟨hcurr, hname⟩ := hother hplain
      rw [if_pos hplain]
      refine ⟨s', ?_, hcurr, hb, hname, hrole, hcommands⟩
      rw [← hrun, List.append_assoc, List.cons_append]
    · obtain ⟨s₁, hrun, hb, hrole, hcommands, -, hparameter, -⟩ :=
        @run_name table s hs "PARAMETER".toList (by decide) (List.all_eq_true.mp (by decide))
          (by decide)
          (c.name ++ ' ' :: (quote c.args ++ tail))
      obtain ⟨s', hrun', hreading⟩ :=
        run_parameter (hparameter (by decide)) hb hrole hc (quote c.args ++ tail)
      rw [if_neg hplain, if_neg hmessage]
      refine ⟨s', ?_, hcommands ▸ hreading⟩
      rw [← hrun', ← hrun]
      simp

/-- What the command was made of. -/
theorem finish_eq {s : Parse} {name role : List Char} {commands : List Command}
    (h : Reading s name role commands) (value : List Char) :
    (s.finish value).commands =
      commands ++ [⟨name, if role ≠ [] then role ++ ": ".toList ++ value else value⟩] := by
  simp only [Parse.finish, h.commands, h.role, h.name]

/-- A value that is read back up to its newline. -/
theorem run_reading {s : Parse} {name role : List Char} {commands : List Command}
    (h : Reading s name role commands) {text value : List Char} (hopen : Open [] text)
    (hvalue : unquote (trimSpace text) = some value) (hkeeps : ∀ r ∈ text, keeps table r = true)
    (tail : List Char) : ∃ s', run table s (text ++ '\n' :: tail) = run table s' tail ∧ Clean s' ∧
      s'.commands =
        commands ++ [⟨name, if role ≠ [] then role ++ ": ".toList ++ value else value⟩] := by
  obtain ⟨line, hrun⟩ := run_value_end h.curr h.b hkeeps hopen (c := '\n') (by decide) hvalue tail
  exact ⟨_, hrun, ⟨rfl, rfl, rfl⟩, finish_eq h value⟩

/-- The first of the separators behind a role. -/
theorem cut_role {role m : List Char} (h : ∀ r ∈ role, isAlpha r = true) :
    cut ": ".toList (role ++ ": ".toList ++ m) = some (role, m) := by
  induction role with
  | nil => exact cut_of_starts (List.prefix_append _ _)
  | cons r role ih =>
    have hnot : ¬": ".toList <+: r :: (role ++ ": ".toList ++ m) := by
      intro hprefix
      obtain ⟨rfl, -⟩ := List.cons_prefix_cons.mp hprefix
      have hr := h _ (List.mem_cons_self ..)
      revert hr
      decide
    rw [List.cons_append, List.cons_append, cut, if_neg hnot,
      ih fun r' hr' => h r' (List.mem_cons_of_mem r hr')]
    rfl

theorem roles_alpha : ∀ role ∈ roles, role ≠ [] ∧ (∀ r ∈ role, isAlpha r = true) ∧
    isValidMessageRole role = true := by
  have hroles : ∀ role ∈ roles, role ≠ [] ∧ role.all isAlpha = true ∧
      isValidMessageRole role = true := by decide
  intro role hrole
  obtain ⟨hne, hall, hvalid⟩ := hroles role hrole
  exact ⟨hne, List.all_eq_true.mp hall, hvalid⟩

theorem message_ne : "message".toList ≠ "model".toList ∧ "message".toList ∉ plainCommands := by
  decide

theorem print_message {c : Command} (hc : c.name = "message".toList) : c.print =
    "MESSAGE ".toList ++ ((cut ": ".toList c.args).getD (c.args, [])).1 ++
      ' ' :: quote ((cut ": ".toList c.args).getD (c.args, [])).2 := by
  have hmodel : c.name ≠ "model".toList := hc ▸ message_ne.1
  have hplain : c.name ∉ plainCommands := hc ▸ message_ne.2
  rw [Command.print, if_neg hmodel, if_neg hplain, if_pos hc]

theorem readsBack_message {c : Command} (hc : c.name = "message".toList) : ReadsBack c ↔
    ∃ role ∈ roles, ∃ m, c.args = role ++ ": ".toList ++ m ∧ (Quoted m ∨ Bare m) := by
  have hmodel : c.name ≠ "model".toList := hc ▸ message_ne.1
  have hplain : c.name ∉ plainCommands := hc ▸ message_ne.2
  rw [ReadsBack, if_neg hmodel, if_neg hplain, if_pos hc]

/-- A message, up to its text. -/
theorem run_front_message {s : Parse} (hs : Clean s) {role m : List Char} (hrole : role ∈ roles)
    (tail : List Char) :
    ∃ s', run table s ((Command.mk "message".toList (role ++ ": ".toList ++ m)).print ++ tail) =
        run table s' (quote m ++ tail) ∧ Reading s' "message".toList role s.commands := by
  obtain ⟨-, halpha, hvalid⟩ := roles_alpha role hrole
  obtain ⟨s₁, hrun, hb, -, hcommands, -, -, hmessage, -⟩ :=
    @run_name table s hs "MESSAGE".toList (by decide) (List.all_eq_true.mp (by decide)) (by decide)
      (role ++ ' ' :: (quote m ++ tail))
  obtain ⟨hcurr, hname⟩ := hmessage (by decide)
  have hnext := @run_message table s₁ hcurr hb role halpha (quote m ++ tail)
  rw [if_pos hvalid] at hnext
  have hprint : (Command.mk "message".toList (role ++ ": ".toList ++ m)).print =
      "MESSAGE ".toList ++ role ++ ' ' :: quote m := by
    rw [print_message rfl, cut_role halpha]
    rfl
  refine ⟨{ s₁ with curr := .value, b := [], role := role }, ?_, rfl, rfl, hname, rfl, hcommands⟩
  rw [← hnext, ← hrun, hprint]
  simp

/-- The end of a value is one. -/
theorem Value.suffix {a m : List Char} (h : Value table (a ++ m)) : Value table m := by
  refine ⟨fun r hr => h.keeps r (List.mem_append_right a hr), ?_⟩
  rintro q c r rfl hc hthree
  refine h.lines (a ++ q) c r (List.append_assoc a q _).symm hc ?_
  have hne : trimRight q ≠ [] := by
    intro hnil
    rw [hnil] at hthree
    exact absurd (List.suffix_nil.mp hthree) (by decide)
  rw [trimRight_append, if_neg hne]
  exact hthree.trans (List.suffix_append a _)

/-- The text of a message is a value. -/
theorem Good.message {c : Command} (hc : Good table c) {role m : List Char} (hrole : role ∈ roles)
    (hargs : c.args = role ++ ": ".toList ++ m) : Value table m := by
  rcases hc.args with hvalue | ⟨-, role', hrole', m', hargs', hvalue⟩
  · rw [hargs] at hvalue
    exact hvalue.suffix
  · have hcut := @cut_role role m (roles_alpha role hrole).2.1
    have hcut' := @cut_role role' m' (roles_alpha role' hrole').2.1
    rw [← hargs] at hcut
    rw [← hargs', hcut] at hcut'
    obtain ⟨-, rfl⟩ := Prod.mk.inj (Option.some.inj hcut')
    exact hvalue

theorem Good.value {c : Command} (hc : Good table c) (hmessage : c.name ≠ "message".toList) :
    Value table c.args := hc.args.resolve_right fun h => hmessage h.1

/-- A command that reads back is parsed as it was. -/
theorem run_print {s : Parse} (hs : Clean s) {c : Command} (hc : Good table c)
    (hback : ReadsBack c) (tail : List Char) :
    ∃ s', run table s (c.print ++ '\n' :: tail) = run table s' tail ∧ Clean s' ∧
      s'.commands = s.commands ++ [c] := by
  obtain ⟨name, args⟩ := c
  by_cases hmessage : name = "message".toList
  · subst hmessage
    obtain ⟨role, hrole, m, hargs, hm⟩ := (readsBack_message rfl).mp hback
    have hvalue := hc.message hrole hargs
    obtain rfl : args = role ++ ": ".toList ++ m := hargs
    obtain ⟨hopen, hend, hkeeps⟩ := readBack hvalue hm
    obtain ⟨s₁, hrun, hreading⟩ := run_front_message hs hrole ('\n' :: tail)
    obtain ⟨s', hrun', hclean, hcommands⟩ := run_reading hreading hopen hend hkeeps tail
    refine ⟨s', hrun.trans hrun', hclean, ?_⟩
    rw [hcommands, if_pos (roles_alpha role hrole).1]
  · have hvalue := hc.value hmessage
    obtain ⟨s₁, hrun, hreading⟩ := run_front hs hc.name hmessage ('\n' :: tail)
    have hread : Open [] (if name = "model".toList then args else quote args) ∧
        unquote (trimSpace (if name = "model".toList then args else quote args)) = some args ∧
          ∀ r ∈ (if name = "model".toList then args else quote args), keeps table r = true := by
      rw [ReadsBack] at hback
      split
      · rename_i hmodel
        rw [if_pos hmodel] at hback
        exact ⟨hback.readBack.1, hback.readBack.2, hvalue.keeps⟩
      · rename_i hmodel
        rw [if_neg hmodel, if_neg hmessage, ite_self] at hback
        exact readBack hvalue hback
    obtain ⟨hopen, hend, hkeeps⟩ := hread
    obtain ⟨s', hrun', hclean, hcommands⟩ := run_reading hreading hopen hend hkeeps tail
    exact ⟨s', hrun.trans hrun', hclean, hcommands⟩

theorem print_cons (c : Command) (cs : List Command) :
    print (c :: cs) = c.print ++ '\n' :: print cs := by
  rw [print, List.map_cons, List.flatten_cons, List.append_assoc]
  rfl

/-- Commands that read back are parsed as they were. -/
theorem run_prints {s : Parse} (hs : Clean s) {cs : List Command} (hcs : ∀ c ∈ cs, Good table c)
    (hback : ∀ c ∈ cs, ReadsBack c) :
    ∃ s', run table s (print cs) = .ok s' ∧ Clean s' ∧ s'.commands = s.commands ++ cs := by
  induction cs generalizing s with
  | nil => exact ⟨s, rfl, hs, (List.append_nil _).symm⟩
  | cons c cs ih =>
    obtain ⟨s₁, hrun, hclean, hcommands⟩ := run_print hs (hcs c (List.mem_cons_self ..))
      (hback c (List.mem_cons_self ..)) (print cs)
    obtain ⟨s', hrun', hclean', hcommands'⟩ := ih hclean
      (fun c' hc' => hcs c' (List.mem_cons_of_mem c hc'))
      fun c' hc' => hback c' (List.mem_cons_of_mem c hc')
    refine ⟨s', by rw [print_cons, hrun, hrun'], hclean', ?_⟩
    rw [hcommands', hcommands, List.append_assoc]
    rfl

/-! ## Commands that do not read back -/

/-- What a parse gives in the end. -/
def result (table : PrintTable) (s : Parse) (text : List Char) : Except Error (List Command) :=
  (run table s text).bind flush

theorem enter_commands (s : Parse) (next : State) (r : Char) :
    (s.enter table next r).commands = s.commands := by
  rw [Parse.enter, Parse.write]
  split <;> rfl

theorem write_commands (s : Parse) (r : Char) : (s.write table r).commands = s.commands := by
  rw [Parse.write]
  split <;> rfl

theorem step_commands {s s' : Parse} {r : Char} (h : step table s r = .ok s') :
    s.commands <+: s'.commands := by
  rw [step] at h
  split at h
  · cases h
  · cases h
  · simp only at h
    split at h
    · cases h
      rw [write_commands]
    · split at h
      · -- behind a name
        split at h
        · split at h
          · cases h
            rw [enter_commands]
          · split at h
            · cases h
              rw [enter_commands]
            · split at h
              · cases h
                rw [enter_commands]
              · cases h
                rw [enter_commands]
        · cases h
      · cases h
        rw [enter_commands]
      · split at h
        · cases h
          rw [enter_commands]
        · cases h
      · -- behind a value
        split at h
        · split at h
          · cases h
            exact List.prefix_rfl
          · cases h
            rw [enter_commands]
            exact List.prefix_append _ _
        · cases h
          exact List.prefix_rfl
      · cases h
        rw [enter_commands]

theorem result_commands {s : Parse} {text : List Char} {commands : List Command}
    (h : result table s text = .ok commands) : s.commands <+: commands := by
  induction text generalizing s with
  | nil =>
    have hflush : flush s = .ok commands := h
    rw [flush] at hflush
    split at hflush
    · cases hflush
      exact List.prefix_rfl
    · cases hflush
      exact List.prefix_rfl
    · split at hflush
      · cases hflush
        exact List.prefix_append _ _
      · cases hflush
    · cases hflush
  | cons r text ih =>
    rw [result, run] at h
    cases hstep : step table s r with
    | error e =>
      rw [hstep] at h
      cases h
    | ok s' =>
      rw [hstep] at h
      exact (step_commands hstep).trans (ih h)

/-- A value is unquoted where it first can be, or at the end of the file. -/
theorem result_reading {s : Parse} {name role : List Char} {before commands : List Command}
    (h : Reading s name role before) {text : List Char} (hkeeps : ∀ r ∈ text, keeps table r = true)
    (hresult : result table s text = .ok commands) :
    ∃ q value, (q = text ∨ ∃ c r, text = q ++ c :: r ∧ isNewline c = true) ∧ Open [] q ∧
      unquote (trimSpace q) = some value ∧
      before ++ [⟨name, if role ≠ [] then role ++ ": ".toList ++ value else value⟩] <+:
        commands := by
  rcases exists_end [] text with hopen | ⟨q, c, r, rfl, hc, hopen, hend⟩
  · -- up to the end of the file
    obtain ⟨line, hrun⟩ := run_value h.curr hkeeps (h.b ▸ hopen) []
    rw [List.append_nil] at hrun
    rw [result, hrun] at hresult
    have hflush : flush { s with currLine := line, b := s.b ++ text } = .ok commands := hresult
    simp only [flush, h.curr, h.b, List.nil_append] at hflush
    split at hflush
    · rename_i value hvalue
      refine ⟨text, value, Or.inl rfl, hopen, hvalue, ?_⟩
      rw [← finish_eq h value, ← Except.ok.inj hflush]
      exact List.prefix_rfl
    · cases hflush
  · obtain ⟨value, hvalue⟩ := Option.ne_none_iff_exists'.mp hend
    have hkeeps' : ∀ r ∈ q, keeps table r = true := fun r hr => hkeeps r (List.mem_append_left _ hr)
    obtain ⟨line, hrun⟩ := run_value_end h.curr h.b hkeeps' hopen hc hvalue r
    refine ⟨q, value, Or.inr ⟨c, r, rfl, hc⟩, hopen, hvalue, ?_⟩
    rw [result, hrun] at hresult
    rw [← finish_eq h value]
    exact @result_commands table { s.finish value with curr := .nil, currLine := line, b := [] } r
      commands hresult

/-- How many newlines are in a text. -/
def newlines (s : List Char) : Nat := s.countP isNewline

theorem newlines_unquote {t v : List Char} (h : unquote t = some v) : newlines v = newlines t := by
  have hquote : isNewline '"' = false := by decide
  rcases unquote_eq h with ⟨rfl, -⟩ | ⟨rfl, -⟩ | rfl
  · rfl
  · simp [newlines, hquote]
  · simp [newlines, hquote]

theorem length_unquote {t v : List Char} (h : unquote t = some v) :
    v.length < t.length ∨ v = t ∧ t.head? ≠ some '"' := by
  rcases unquote_eq h with ⟨rfl, hhead⟩ | ⟨rfl, -⟩ | rfl
  · exact Or.inr ⟨rfl, hhead⟩
  · left
    simp
  · left
    simp
    omega

theorem trimSpace_length (s : List Char) : (trimSpace s).length ≤ s.length :=
  (trimRight_starts _).length_le.trans (List.dropWhile_suffix isSpace).length_le

/-- A text that is trimmed does not start with a blank. -/
theorem head_of_trimmed {x : Char} {s : List Char} (h : trimSpace (x :: s) = x :: s) :
    isSpace x = false := by
  by_contra hspace
  have hdrop : trimLeft (x :: s) = trimLeft s :=
    List.dropWhile_cons_of_pos (by simpa using hspace)
  have hle := trimSpace_length s
  have hlen := congrArg List.length h
  rw [trimSpace, hdrop, List.length_cons] at hlen
  rw [trimSpace] at hle
  omega

/-- With a newline behind it, a value that is still open gets a newline. -/
theorem newlines_of_open {v m : List Char} (hopen : Open [] (v ++ '\n' :: m)) {value : List Char}
    (hvalue : unquote (trimSpace (v ++ '\n' :: m)) = some value) :
    newlines v < newlines value := by
  have hnewline : isNewline '\n' = true := by decide
  have hnone : unquote (trimSpace v) = none := by
    have h := hopen v '\n' m rfl hnewline
    rwa [List.nil_append] at h
  -- the blanks in front are no newlines
  have hleading : newlines (leading v) = 0 := by
    refine List.countP_eq_zero.mpr fun c hc hnew => ?_
    obtain ⟨a, b, hab⟩ := List.append_of_mem hc
    have hsplit : v ++ '\n' :: m = a ++ c :: (b ++ trimLeft v ++ '\n' :: m) := by
      conv_lhs => rw [← leading_append_trimLeft v, hab]
      simp
    have hblank : trimLeft a = [] := trimLeft_eq_nil.mpr fun x hx =>
      blank_leading v x (hab ▸ List.mem_append_left _ hx)
    have h := hopen a c _ hsplit hnew
    rw [List.nil_append, trimSpace, hblank] at h
    cases h
  have hne : trimLeft v ≠ [] := by
    intro hnil
    rw [trimSpace, hnil] at hnone
    cases hnone
  have hlast : trimRight ('\n' :: m) ≠ [] := by
    intro hnil
    rw [trimSpace, trimLeft_append_of_ne hne, trimRight_append, if_pos hnil] at hvalue
    rw [trimSpace, hvalue] at hnone
    cases hnone
  have htrim : trimSpace (v ++ '\n' :: m) = trimLeft v ++ trimRight ('\n' :: m) := by
    rw [trimSpace, trimLeft_append_of_ne hne, trimRight_append, if_neg hlast]
  have hpos : 0 < newlines (trimRight ('\n' :: m)) := by
    obtain ⟨t, ht⟩ := trimRight_starts ('\n' :: m)
    cases hm : trimRight ('\n' :: m) with
    | nil => exact absurd hm hlast
    | cons c s =>
      rw [hm] at ht
      obtain ⟨rfl, -⟩ := List.cons.inj ht
      exact List.countP_pos_iff.mpr ⟨'\n', List.mem_cons_self .., hnewline⟩
  have hv : newlines v = newlines (leading v) + newlines (trimLeft v) := by
    conv_lhs => rw [← leading_append_trimLeft v]
    exact List.countP_append
  have hvalue' := newlines_unquote hvalue
  rw [htrim] at hvalue'
  have hsum : newlines (trimLeft v ++ trimRight ('\n' :: m)) =
    newlines (trimLeft v) + newlines (trimRight ('\n' :: m)) := List.countP_append
  omega

/-- A value that is printed as it is and comes back may be printed so. -/
theorem bare_of_back {v tail q : List Char} (hq : q = v ++ '\n' :: tail ∨
      ∃ c r, v ++ '\n' :: tail = q ++ c :: r ∧ isNewline c = true)
    (hopen : Open [] q) (hvalue : unquote (trimSpace q) = some v) : Bare v := by
  have hprefix : q <+: v ++ '\n' :: tail := by
    rcases hq with rfl | ⟨c, r, hsplit, -⟩
    · exact List.prefix_rfl
    · exact ⟨c :: r, hsplit.symm⟩
  by_cases hlong : v.length < q.length
  · -- the value would have another newline
    obtain ⟨m, rfl⟩ : ∃ m, q = v ++ '\n' :: m := by
      obtain ⟨t, rfl⟩ := List.prefix_of_prefix_length_le (List.prefix_append v _) hprefix hlong.le
      cases t with
      | nil => simp at hlong
      | cons c m =>
        obtain ⟨r, hr⟩ := hprefix
        rw [List.append_assoc] at hr
        obtain ⟨rfl, -⟩ := List.cons.inj (List.append_cancel_left hr)
        exact ⟨m, rfl⟩
    exact absurd (newlines_of_open hopen hvalue) (lt_irrefl _)
  · have hv : q <+: v :=
      List.prefix_of_prefix_length_le hprefix (List.prefix_append v _) (not_lt.mp hlong)
    have htrim := trimSpace_length q
    have hle := hv.length_le
    rcases length_unquote hvalue with hshort | ⟨hsame, hhead⟩
    · omega
    · obtain rfl : q = v := hv.eq_of_length (by rw [hsame] at hle ⊢; omega)
      refine ⟨hsame.symm, hsame ▸ hhead, fun c hc => ?_⟩
      by_contra hnew
      obtain ⟨a, b, hab⟩ := List.append_of_mem hc
      have hnone := hopen a c b hab (by simpa using hnew)
      rw [List.nil_append] at hnone
      cases a with
      | nil => cases hnone
      | cons x a =>
        rw [hab, List.cons_append] at hsame hhead
        have hspace := head_of_trimmed hsame.symm
        rw [trimSpace, trimLeft_cons hspace, trimRight_cons hspace, unquote_plain] at hnone
        · cases hnone
        · rw [hsame.symm] at hhead
          exact hhead

/-- A role that is read is valid. -/
theorem result_message {s : Parse} (hs : s.curr = .message) {text : List Char}
    {commands : List Command} (h : result table s text = .ok commands) :
    ∃ w x rest, text = w ++ x :: rest ∧ (∀ r ∈ w, isAlpha r = true) ∧
      isValidMessageRole (s.b ++ w) = true ∧
      result table s text =
        result table { s with curr := .value, b := [], role := s.b ++ w } rest := by
  induction text generalizing s with
  | nil =>
    have hflush : flush s = .ok commands := h
    rw [flush, hs] at hflush
    cases hflush
  | cons r text ih =>
    have hrun : result table s (r :: text) =
        (step table s r).bind fun s' => result table s' text := by
      rw [result, run]
      cases step table s r <;> rfl
    by_cases halpha : isAlpha r = true
    · have hprint := @isWord_print table r (isAlpha_word halpha)
      have hstep : step table s r = .ok { s with b := s.b ++ [r] } := by
        simp [step, parseRuneForState, hs, halpha, (isAlpha_ne halpha).2.2, Parse.write, hprint]
      rw [hrun, hstep] at h
      obtain ⟨w, x, rest, rfl, hw, hvalid, hresult⟩ := @ih { s with b := s.b ++ [r] } hs h
      refine ⟨r :: w, x, rest, rfl, ?_, ?_, ?_⟩
      · intro r' hr'
        rcases List.mem_cons.mp hr' with rfl | hr'
        · exact halpha
        · exact hw r' hr'
      · simpa using hvalid
      · rw [hrun, hstep]
        refine hresult.trans ?_
        simp
    · by_cases hblank : isBlank r = true
      · have hnewline : isNewline r = false := by
          by_contra hnew
          rw [isNewline_ne (by simpa using hnew)] at hblank
          cases hblank
        by_cases hvalid : isValidMessageRole s.b = true
        · have hstep : step table s r = .ok { s with curr := .value, b := [], role := s.b } := by
            have hzero := @enter_zero table
            simp [step, parseRuneForState, hs, halpha, hblank, hnewline, hvalid, hzero]
          refine ⟨[], r, text, rfl, fun _ h => absurd h List.not_mem_nil, ?_, ?_⟩
          · rwa [List.append_nil]
          · rw [hrun, hstep, List.append_nil]
            rfl
        · have hstep : step table s r =
              .error (.parserError s.currLine .invalidMessageRole) := by
            simp [step, parseRuneForState, hs, halpha, hblank, hnewline, hvalid]
          rw [hrun, hstep] at h
          cases h
      · have hstep : step table s r = .error (.unexpectedEOFIn s.b) := by
          simp [step, parseRuneForState, hs, halpha, hblank]
        rw [hrun, hstep] at h
        cases h

theorem keeps_newline : keeps table '\n' = true := by
  have hnew : isNewline '\n' = true := by decide
  simp [keeps, hnew]

theorem keeps_word {r : Char} (h : isWord r = true) : keeps table r = true := by
  simp [keeps, isWord_print h]

theorem keeps_append {a b : List Char} (ha : ∀ r ∈ a, keeps table r = true)
    (hb : ∀ r ∈ b, keeps table r = true) : ∀ r ∈ a ++ b, keeps table r = true :=
  fun r hr => (List.mem_append.mp hr).elim (ha r) (hb r)

theorem keeps_ascii {s : String}
    (h : s.toList.all (fun r => 32 ≤ r.toNat && r.toNat < 127) = true) :
    ∀ r ∈ s.toList, keeps table r = true := by
  intro r hr
  obtain ⟨hlow, hhigh⟩ : 32 ≤ r.toNat ∧ r.toNat < 127 := by
    simpa using List.all_eq_true.mp h r hr
  have hprint : table.isPrint r = true := by
    rw [table.ascii r (by omega)]
    simp [hlow, hhigh]
  simp [keeps, hprint]

theorem keeps_quoted {v : List Char} (h : ∀ r ∈ v, keeps table r = true) :
    ∀ r ∈ quote v, keeps table r = true := by
  have hthree := @keeps_ascii table "\"\"\"" (by decide)
  have hone : ∀ r ∈ ['"'], keeps table r = true := by simp [keeps_quote]
  rw [quote]
  split
  · split
    · exact keeps_append (keeps_append hthree h) hthree
    · exact keeps_append (keeps_append hone h) hone
  · exact h

theorem Good.keeps {c : Command} (hc : Good table c) : ∀ r ∈ c.args, keeps table r = true := by
  rcases hc.args with hvalue | ⟨-, role, hrole, m, hargs, hvalue⟩
  · exact hvalue.keeps
  · rw [hargs]
    refine keeps_append (keeps_append (fun r hr => ?_) (keeps_ascii (by decide))) hvalue.keeps
    exact keeps_word (isAlpha_word ((roles_alpha role hrole).2.1 r hr))

/-- What is printed is kept. -/
theorem Good.keeps_print {c : Command} (hc : Good table c) :
    ∀ r ∈ c.print, Modelfile.keeps table r = true := by
  have hblank : ∀ {v : List Char}, (∀ r ∈ v, Modelfile.keeps table r = true) →
      ∀ r ∈ ' ' :: v, Modelfile.keeps table r = true := by
    intro v hv r hr
    rcases List.mem_cons.mp hr with rfl | hr
    · exact @keeps_ascii table " " (by decide) ' ' (by decide)
    · exact hv r hr
  have hname : ∀ r ∈ c.name, Modelfile.keeps table r = true :=
    fun r hr => keeps_word (hc.name r hr)
  rw [Command.print]
  split
  · exact keeps_append (keeps_ascii (by decide)) hc.keeps
  · split
    · rename_i hplain
      have hupper : ∀ name ∈ plainCommands, (toUpper name).all isWord = true := by
        decide
      exact keeps_append (fun r hr => keeps_word (List.all_eq_true.mp (hupper _ hplain) r hr))
        (hblank (keeps_quoted hc.keeps))
    · split
      · -- the role and the text are parts of the value
        have hparts : (∀ r ∈ ((cut ": ".toList c.args).getD (c.args, [])).1,
              Modelfile.keeps table r = true) ∧
            ∀ r ∈ ((cut ": ".toList c.args).getD (c.args, [])).2,
              Modelfile.keeps table r = true := by
          cases hcut : cut ": ".toList c.args with
          | none => exact ⟨hc.keeps, fun r hr => absurd hr List.not_mem_nil⟩
          | some p =>
            have hargs := eq_of_cut (a := p.1) (b := p.2) hcut
            constructor
            · exact fun r hr => hc.keeps r (by rw [hargs]; simp [show r ∈ p.1 from hr])
            · exact fun r hr => hc.keeps r (by rw [hargs]; simp [show r ∈ p.2 from hr])
        exact keeps_append (keeps_append (keeps_ascii (by decide)) hparts.1)
          (hblank (keeps_quoted hparts.2))
      · exact keeps_append (keeps_append (keeps_ascii (by decide)) hname)
          (hblank (keeps_quoted hc.keeps))

theorem keeps_prints {cs : List Command} (hcs : ∀ c ∈ cs, Good table c) :
    ∀ r ∈ print cs, keeps table r = true := by
  intro r hr
  obtain ⟨line, hline, hr⟩ := List.mem_flatten.mp hr
  obtain ⟨c, hc, rfl⟩ := List.mem_map.mp hline
  refine keeps_append (hcs c hc).keeps_print (fun r hr => ?_) r hr
  rw [List.mem_singleton.mp hr]
  exact keeps_newline

/-- A printed value that comes back was quoted, or may be printed as it is. -/
theorem quoted_or_bare {v tail q : List Char} (hq : q = quote v ++ '\n' :: tail ∨
      ∃ c r, quote v ++ '\n' :: tail = q ++ c :: r ∧ isNewline c = true)
    (hopen : Open [] q) (hvalue : unquote (trimSpace q) = some v) : Quoted v ∨ Bare v := by
  by_cases hquoted : Quoted v
  · exact Or.inl hquoted
  · rw [quote_of_not_quoted hquoted] at hq
    exact Or.inr (bare_of_back hq hopen hvalue)

theorem eq_of_last {before commands : List Command} {c c' : Command}
    (h : before ++ [c] <+: commands) (h' : before ++ [c'] <+: commands) : c = c' := by
  have heq := (List.prefix_of_prefix_length_le h h' (by simp)).eq_of_length (by simp)
  exact List.singleton_inj.mp (List.append_cancel_left heq)

/-- A command that comes back reads back. -/
theorem readsBack_of_result {s : Parse} (hs : Clean s) {c : Command} (hc : Good table c)
    {tail : List Char} (htail : ∀ r ∈ tail, keeps table r = true) {commands : List Command}
    (hresult : result table s (c.print ++ '\n' :: tail) = .ok commands)
    (hcommands : s.commands ++ [c] <+: commands) : ReadsBack c := by
  obtain ⟨name, args⟩ := c
  have hend : ∀ r ∈ '\n' :: tail, keeps table r = true :=
    fun r hr => (List.mem_cons.mp hr).elim (fun h => h ▸ keeps_newline) (htail r)
  by_cases hmessage : name = "message".toList
  · subst hmessage
    refine (readsBack_message rfl).mpr ?_
    have hkeeps := keeps_append hc.keeps_print hend
    generalize hparts : (cut ": ".toList args).getD (args, []) = parts
    have hprint : (Command.mk "message".toList args).print ++ '\n' :: tail =
        "MESSAGE".toList ++ ' ' :: (parts.1 ++ ' ' :: (quote parts.2 ++ '\n' :: tail)) := by
      rw [print_message rfl, hparts]
      simp
    rw [hprint] at hresult hkeeps
    obtain ⟨s₁, hrun, hb, -, hbefore, -, -, hcurr, -⟩ := @run_name table s hs "MESSAGE".toList
      (by decide) (List.all_eq_true.mp (by decide)) (by decide) (parts.1 ++ ' ' :: (quote parts.2 ++ '\n' :: tail))
    obtain ⟨hcurr, hname⟩ := hcurr (by decide)
    have hresult₁ : result table s₁ (parts.1 ++ ' ' :: (quote parts.2 ++ '\n' :: tail)) =
        .ok commands :=
      (congrArg (fun r => r.bind flush) hrun).symm.trans hresult
    obtain ⟨w, x, rest, htext, hw, hvalid, hnext⟩ := result_message hcurr hresult₁
    rw [hb, List.nil_append] at hvalid hnext
    have hrole : w ∈ roles := by simpa [isValidMessageRole] using hvalid
    have hrest : ∀ r ∈ rest, keeps table r = true := by
      intro r hr
      refine hkeeps r ?_
      rw [htext]
      simp [hr]
    obtain ⟨q, value, hq, hopen, hvalue, hprefix⟩ :=
      @result_reading table { s₁ with curr := .value, b := [], role := w } "message".toList w
        s.commands commands ⟨rfl, rfl, hname, rfl, hbefore⟩ rest hrest (hnext.symm.trans hresult₁)
    have hargs := congrArg Command.args (eq_of_last hprefix hcommands)
    rw [if_pos (roles_alpha w hrole).1] at hargs
    -- the role that is read is the one that is printed
    have hcut := @cut_role w value hw
    rw [show w ++ ": ".toList ++ value = args from hargs] at hcut
    rw [hcut, Option.getD_some] at hparts
    rw [← hparts] at htext
    obtain ⟨-, rfl⟩ := List.cons.inj (List.append_cancel_left htext)
    exact ⟨w, hrole, value, hargs.symm, quoted_or_bare hq hopen hvalue⟩
  · obtain ⟨s', hrun, hreading⟩ := run_front hs hc.name hmessage ('\n' :: tail)
    rw [result, hrun] at hresult
    have hkeeps : ∀ r ∈ (if name = "model".toList then args else quote args) ++ '\n' :: tail,
        keeps table r = true := by
      refine keeps_append ?_ hend
      split
      · exact hc.keeps
      · exact keeps_quoted hc.keeps
    obtain ⟨q, value, hq, hopen, hvalue, hprefix⟩ := result_reading hreading hkeeps hresult
    obtain rfl : value = args := congrArg Command.args (eq_of_last hprefix hcommands)
    rw [ReadsBack]
    by_cases hmodel : name = "model".toList
    · rw [if_pos hmodel] at hq ⊢
      exact bare_of_back (hq.imp_right id) hopen hvalue
    · rw [if_neg hmodel] at hq
      rw [if_neg hmodel, if_neg hmessage, ite_self]
      exact quoted_or_bare hq hopen hvalue

/-- Commands that come back read back. -/
theorem readsBack_of_print {s : Parse} (hs : Clean s) {cs : List Command}
    (hcs : ∀ c ∈ cs, Good table c) (hresult : result table s (print cs) = .ok (s.commands ++ cs)) :
    ∀ c ∈ cs, ReadsBack c := by
  induction cs generalizing s with
  | nil => exact fun c hc => absurd hc List.not_mem_nil
  | cons c cs ih =>
    have hc := hcs c (List.mem_cons_self ..)
    have hrest : ∀ c ∈ cs, Good table c := fun c' hc' => hcs c' (List.mem_cons_of_mem c hc')
    have happend : s.commands ++ c :: cs = s.commands ++ [c] ++ cs := by simp
    rw [print_cons] at hresult
    have hback := readsBack_of_result hs hc (keeps_prints hrest) hresult
      (happend ▸ List.prefix_append _ cs)
    obtain ⟨s', hrun, hclean, hcommands⟩ := run_print hs hc hback (print cs)
    have hnext : result table s' (print cs) = .ok (s'.commands ++ cs) := by
      rw [hcommands, ← happend, ← hresult, result, result, hrun]
    intro c' hc'
    rcases List.mem_cons.mp hc' with rfl | hc'
    · exact hback
    · exact ih hclean hrest hnext c' hc'

/-! ## What the parser gives -/

theorem trimLeft_blank {w : List Char} (hw : Blank w) (s : List Char) :
    trimLeft (w ++ s) = trimLeft s := dropWhile_append_of_eq (trimLeft_eq_nil.mpr hw) s

theorem trimSpace_trimSpace (b : List Char) : trimSpace (trimSpace b) = trimSpace b := by
  rw [trimSpace, trimSpace]
  cases hb : trimLeft b with
  | nil => rfl
  | cons x s =>
    have hspace : isSpace x = false := by
      have hne : b.dropWhile isSpace ≠ [] := by
        show trimLeft b ≠ []
        rw [hb]
        exact List.cons_ne_nil x s
      have hhead := List.head_dropWhile_not isSpace hne
      have hfirst : (b.dropWhile isSpace).head hne = x := by
        have hb' : b.dropWhile isSpace = x :: s := hb
        simp only [hb', List.head_cons]
      rwa [hfirst] at hhead
    rw [trimRight_cons hspace, trimLeft_cons hspace, ← trimRight_cons hspace, trimRight_trimRight]

theorem trimSpace_split (b : List Char) : ∃ z, b = leading b ++ trimSpace b ++ z := by
  obtain ⟨z, hz⟩ := trimRight_starts (trimLeft b)
  refine ⟨z, ?_⟩
  rw [trimSpace, List.append_assoc, hz, leading_append_trimLeft]

/-- A newline in a trimmed text is a newline of the text. -/
theorem none_of_open {b : List Char} (hopen : Open [] b) {p r : List Char} {c : Char}
    (hsplit : trimSpace b = p ++ c :: r) (hc : isNewline c = true) :
    unquote (trimRight (trimLeft p)) = none := by
  obtain ⟨z, hz⟩ := trimSpace_split b
  have hnone := hopen (leading b ++ p) c (r ++ z) (by
    conv_lhs => rw [hz, hsplit]
    simp) hc
  rwa [List.nil_append, trimSpace, trimLeft_blank (blank_leading b)] at hnone

/-- What is unquoted is a value. -/
theorem value_of_buffer {b v : List Char} (hkeeps : ∀ r ∈ b, keeps table r = true)
    (hopen : Open [] b) (hv : unquote (trimSpace b) = some v) : Value table v := by
  have hquote : isSpace '"' = false := by decide
  have htrim : ∀ r ∈ trimSpace b, r ∈ b := by
    obtain ⟨z, hz⟩ := trimSpace_split b
    intro r hr
    rw [hz]
    simp [hr]
  rcases unquote_eq hv with ⟨rfl, hhead⟩ | ⟨hone, hthree⟩ | hthree
  · refine ⟨fun r hr => hkeeps r (htrim r hr), ?_⟩
    intro q c r hsplit hc
    -- without quotes there is no newline
    have hnone := none_of_open hopen hsplit hc
    cases q with
    | nil => cases hnone
    | cons x q =>
      have hspace : isSpace x = false := by
        refine head_of_trimmed (s := q ++ c :: r) ?_
        rw [← List.cons_append, ← hsplit]
        exact trimSpace_trimSpace b
      rw [trimLeft_cons hspace, trimRight_cons hspace, unquote_plain] at hnone
      · cases hnone
      · rw [hsplit] at hhead
        exact hhead
  · refine ⟨fun r hr => hkeeps r (htrim r (by rw [hone]; simp [hr])), ?_⟩
    rintro q c r rfl hc hlast
    have hsplit : trimSpace b = '"' :: q ++ c :: (r ++ ['"']) := by
      rw [hone]
      simp
    have hnone := none_of_open hopen hsplit hc
    rw [trimLeft_cons hquote, trimRight_cons hquote] at hnone
    obtain ⟨u, hu⟩ := hlast
    have hu' : trimRight q = u ++ ['"', '"'] ++ ['"'] := by
      rw [← hu]
      simp
    have hfirst : ('"' :: (u ++ ['"', '"']) ++ ['"']).take 3 ≠ "\"\"\"".toList := by
      obtain ⟨t, ht⟩ := trimRight_starts q
      rw [hsplit, ← ht, hu'] at hthree
      rw [← List.cons_append]
      intro htake
      refine hthree ?_
      rw [← htake]
      rcases u with _ | ⟨x, _ | ⟨y, u⟩⟩ <;> rfl
    rw [hu', ← List.cons_append, unquote_one hfirst] at hnone
    cases hnone
  · refine ⟨fun r hr => hkeeps r (htrim r (by rw [hthree]; simp [hr])), ?_⟩
    rintro q c r rfl hc hlast
    have hsplit : trimSpace b = "\"\"\"".toList ++ q ++ c :: (r ++ "\"\"\"".toList) := by
      rw [hthree]
      simp
    have hnone := none_of_open hopen hsplit hc
    obtain ⟨u, hu⟩ := hlast
    have hthreeList : "\"\"\"".toList = ['"', '"', '"'] := rfl
    have htrimmed : trimRight (trimLeft ("\"\"\"".toList ++ q)) = "\"\"\"".toList ++ u ++ "\"\"\"".toList := by
      rw [List.append_assoc, hu, hthreeList]
      simp only [List.cons_append, List.nil_append]
      rw [trimLeft_cons hquote, trimRight_cons hquote, trimRight_cons hquote, trimRight_cons hquote]
    rw [htrimmed, unquote_three] at hnone
    cases hnone

theorem open_nil : Open [] [] := by
  intro q c r htext
  simp at htext

theorem open_concat {b : List Char} {r : Char} (h : Open [] b)
    (hr : isNewline r = true → unquote (trimSpace b) = none) : Open [] (b ++ [r]) := by
  intro q c t htext hc
  rcases List.eq_nil_or_concat t with rfl | ⟨t, x, rfl⟩
  · obtain ⟨rfl, hx⟩ := List.append_inj' htext rfl
    obtain rfl := List.singleton_inj.mp hx
    exact hr hc
  · rw [List.concat_eq_append, ← List.cons_append, ← List.append_assoc] at htext
    obtain ⟨rfl, -⟩ := List.append_inj' htext rfl
    exact h q c t rfl hc

/-- A value that is being read. -/
structure InValue (table : PrintTable) (s : Parse) : Prop where
  name : ∀ r ∈ s.cmd.name, isWord r = true
  role : s.role = [] ∨ s.cmd.name = "message".toList ∧ s.role ∈ roles
  keeps : ∀ r ∈ s.b, keeps table r = true
  isOpen : Open [] s.b

/-- What holds of the variables after every rune. -/
def Inv (table : PrintTable) (s : Parse) : Prop :=
  (∀ c ∈ s.commands, Good table c) ∧
    match s.curr with
    | .value => InValue table s
    | .parameter => s.role = [] ∧ ∀ r ∈ s.b, isWord r = true
    | .message => s.role = [] ∧ s.cmd.name = "message".toList
    | _ => s.role = []

/-- At the first rune of a value. -/
theorem inValue_nil {cmd : Command} {line : Nat} {role : List Char} {commands : List Command}
    (hname : ∀ r ∈ cmd.name, isWord r = true)
    (hrole : role = [] ∨ cmd.name = "message".toList ∧ role ∈ roles) :
    InValue table ⟨cmd, .value, line, [], role, commands⟩ :=
  ⟨hname, hrole, fun _ h => absurd h List.not_mem_nil, open_nil⟩

/-- A command that is finished is as the parser gives it. -/
theorem InValue.finish {s : Parse} (h : InValue table s) (hs : ∀ c ∈ s.commands, Good table c)
    {value : List Char} (hvalue : unquote (trimSpace s.b) = some value) :
    ∀ c ∈ (s.finish value).commands, Good table c := by
  have hv := value_of_buffer h.keeps h.isOpen hvalue
  intro c hc
  rcases List.mem_append.mp hc with hc | hc
  · exact hs c hc
  · obtain rfl := List.mem_singleton.mp hc
    refine ⟨h.name, ?_⟩
    rcases h.role with hrole | ⟨hname, hrole⟩
    · left
      simpa [hrole] using hv
    · refine Or.inr ⟨hname, s.role, hrole, value, ?_, hv⟩
      simp [(roles_alpha s.role hrole).1]

theorem isWord_of_valid {b : List Char} (h : isValidCommand b = true) :
    ∀ r ∈ toLower b, isWord r = true := by
  have hall : ∀ name ∈ plainCommands ++ ["from".toList, "parameter".toList, "message".toList],
      name.all isWord = true := by decide
  exact List.all_eq_true.mp (hall _ (by simpa [isValidCommand] using h))

theorem inv_step_value {s s' : Parse} {r : Char} (hs : s.curr = .value)
    (hcommands : ∀ c ∈ s.commands, Good table c) (h : InValue table s)
    (hstep : step table s r = .ok s') : Inv table s' := by
  by_cases hkeeps : keeps table r = true
  · by_cases hend : isNewline r = true ∧ unquote (trimSpace s.b) ≠ none
    · obtain ⟨hr, hne⟩ := hend
      obtain ⟨value, hvalue⟩ := Option.ne_none_iff_exists'.mp hne
      rw [step_value_end hs hr hvalue] at hstep
      cases hstep
      exact ⟨h.finish hcommands hvalue, rfl⟩
    · have hnone : isNewline r = true → unquote (trimSpace s.b) = none := fun hr => by
        by_contra hne
        exact hend ⟨hr, hne⟩
      obtain ⟨line, hline⟩ := step_value hs hkeeps hnone
      obtain ⟨cmd, curr, _, b, role, commands⟩ := s
      obtain rfl : curr = .value := hs
      rw [hline] at hstep
      cases hstep
      refine ⟨hcommands, h.name, h.role, ?_, open_concat h.isOpen hnone⟩
      exact keeps_append h.keeps fun x hx => List.mem_singleton.mp hx ▸ hkeeps
  · -- a rune that is not printed is left out
    simp only [keeps, Bool.or_eq_true, not_or, Bool.not_eq_true] at hkeeps
    obtain ⟨⟨hprint, hblank⟩, hnewline⟩ := hkeeps
    obtain ⟨cmd, curr, line, b, role, commands⟩ := s
    obtain rfl : curr = .value := hs
    simp only [step, parseRuneForState, hnewline, hblank, Parse.write, hprint, Bool.false_eq_true,
      if_false, if_true] at hstep
    cases hstep
    exact ⟨hcommands, h⟩

/-- The states that read a word. -/
theorem inv_step_word {s s' : Parse} {r : Char} (h : Inv table s)
    (hs : s.curr = .name ∨ s.curr = .parameter ∨ s.curr = .message)
    (hstep : step table s r = .ok s') : Inv table s' := by
  obtain ⟨cmd, curr, line, b, role, commands⟩ := s
  have hzero := @enter_zero table
  obtain ⟨hcommands, hinv⟩ := h
  by_cases hreads : curr.reads r = true
  · -- the word goes on
    rw [step_word hreads] at hstep
    cases hstep
    rcases hs with rfl | rfl | rfl
    · exact ⟨hcommands, hinv⟩
    · refine ⟨hcommands, hinv.1, fun x hx => ?_⟩
      rcases List.mem_append.mp hx with hx | hx
      · exact hinv.2 x hx
      · exact List.mem_singleton.mp hx ▸ hreads
    · exact ⟨hcommands, hinv⟩
  · by_cases hblank : isBlank r = true
    · rcases hs with rfl | rfl | rfl
      · have halpha : isAlpha r = false := by simpa [State.reads] using hreads
        obtain rfl : role = [] := hinv
        simp only [step, parseRuneForState, halpha, hblank, hzero, reduceCtorEq, if_true,
          if_false, Bool.false_eq_true] at hstep
        split at hstep
        · rename_i hvalid
          have hword := isWord_of_valid hvalid
          split at hstep
          · cases hstep
            have hmodel : ∀ r ∈ "model".toList, isWord r = true :=
              List.all_eq_true.mp (by decide)
            exact ⟨hcommands, inValue_nil hmodel (Or.inl rfl)⟩
          · split at hstep
            · cases hstep
              exact ⟨hcommands, rfl, fun _ h => absurd h List.not_mem_nil⟩
            · split at hstep
              · rename_i hmessage
                cases hstep
                exact ⟨hcommands, rfl, hmessage⟩
              · cases hstep
                exact ⟨hcommands, inValue_nil hword (Or.inl rfl)⟩
        · cases hstep
      · have hword : (isAlpha r || isNumber r || r == '_') = false := by
          simpa [State.reads, isWord] using hreads
        obtain ⟨rfl, hb⟩ : role = [] ∧ ∀ r ∈ b, isWord r = true := hinv
        simp only [step, parseRuneForState, hword, hblank, hzero, reduceCtorEq, if_true,
          if_false, Bool.false_eq_true] at hstep
        cases hstep
        exact ⟨hcommands, inValue_nil hb (Or.inl rfl)⟩
      · have halpha : isAlpha r = false := by simpa [State.reads] using hreads
        obtain ⟨rfl, hname⟩ : role = [] ∧ cmd.name = "message".toList := hinv
        simp only [step, parseRuneForState, halpha, hblank, hzero, reduceCtorEq, if_true,
          if_false, Bool.false_eq_true] at hstep
        split at hstep
        · rename_i hvalid
          cases hstep
          refine ⟨hcommands, inValue_nil ?_ (Or.inr ⟨hname, by simpa [isValidMessageRole] using hvalid⟩)⟩
          rw [hname]
          exact List.all_eq_true.mp (by decide)
        · cases hstep
    · -- any other rune is an error
      rcases hs with rfl | rfl | rfl
      · have halpha : isAlpha r = false := by simpa [State.reads] using hreads
        simp [step, parseRuneForState, halpha, hblank] at hstep
      · have hword : (isAlpha r || isNumber r || r == '_') = false := by
          simpa [State.reads, isWord] using hreads
        simp [step, parseRuneForState, hword, hblank] at hstep
      · have halpha : isAlpha r = false := by simpa [State.reads] using hreads
        simp [step, parseRuneForState, halpha, hblank] at hstep

theorem inv_step {s s' : Parse} {r : Char} (h : Inv table s) (hstep : step table s r = .ok s') :
    Inv table s' := by
  have hzero := @enter_zero table
  cases hs : s.curr with
  | name => exact inv_step_word h (Or.inl hs) hstep
  | parameter => exact inv_step_word h (Or.inr (Or.inl hs)) hstep
  | message => exact inv_step_word h (Or.inr (Or.inr hs)) hstep
  | value =>
    obtain ⟨cmd, curr, line, b, role, commands⟩ := s
    obtain rfl : curr = .value := hs
    exact inv_step_value rfl h.1 h.2 hstep
  | nil =>
    obtain ⟨cmd, curr, line, b, role, commands⟩ := s
    obtain rfl : curr = .nil := hs
    simp only [step, parseRuneForState] at hstep
    by_cases hhash : r = '#'
    · simp only [hhash, if_true, if_false, hzero, reduceCtorEq] at hstep
      cases hstep
      exact h
    · by_cases hblank : (isBlank r || isNewline r) = true
      · simp only [hhash, hblank, if_true, if_false] at hstep
        rw [Parse.write] at hstep
        split at hstep <;> cases hstep <;> exact h
      · simp only [hhash, hblank, if_false, reduceCtorEq, Bool.false_eq_true] at hstep
        rw [Parse.enter, Parse.write] at hstep
        split at hstep <;> cases hstep <;> exact h
  | comment =>
    obtain ⟨cmd, curr, line, b, role, commands⟩ := s
    obtain rfl : curr = .comment := hs
    simp only [step, parseRuneForState] at hstep
    by_cases hnewline : isNewline r = true
    · simp only [hnewline, if_true, if_false, hzero, reduceCtorEq] at hstep
      cases hstep
      exact h
    · simp only [hnewline, if_true, if_false, Bool.false_eq_true] at hstep
      rw [Parse.write] at hstep
      split at hstep <;> cases hstep <;> exact h

theorem inv_run {s s' : Parse} {text : List Char} (h : Inv table s)
    (hrun : run table s text = .ok s') : Inv table s' := by
  induction text generalizing s with
  | nil =>
    cases hrun
    exact h
  | cons r text ih =>
    rw [run] at hrun
    cases hstep : step table s r with
    | error e =>
      rw [hstep] at hrun
      cases hrun
    | ok s₁ =>
      rw [hstep] at hrun
      exact ih (inv_step h hstep) hrun

theorem good_flush {s : Parse} (h : Inv table s) {cs : List Command} (hflush : flush s = .ok cs) :
    ∀ c ∈ cs, Good table c := by
  obtain ⟨cmd, curr, line, b, role, commands⟩ := s
  cases curr with
  | value =>
    rw [flush] at hflush
    simp only at hflush
    split at hflush
    · rename_i value hvalue
      cases hflush
      exact h.2.finish h.1 hvalue
    · cases hflush
  | nil =>
    cases hflush
    exact h.1
  | comment =>
    cases hflush
    exact h.1
  | name => cases hflush
  | parameter => cases hflush
  | message => cases hflush

theorem parseFile_eq {file : List Char} {cs : List Command} :
    parseFile table file = .ok cs ↔ result table .init file = .ok cs ∧
      cs.any (·.name = "model".toList) = true := by
  have heq : parseFile table file = (result table .init file).bind fun cs =>
      if cs.any (·.name = "model".toList) then .ok cs else .error .missingFrom := by
    rw [parseFile, result]
    cases run table .init file <;> rfl
  rw [heq]
  cases hresult : result table .init file with
  | error e =>
    constructor
    · intro h
      cases h
    · rintro ⟨h, -⟩
      cases h
  | ok cs' =>
    constructor
    · intro h
      have h' : (if cs'.any (·.name = "model".toList) then .ok cs' else .error .missingFrom) =
        (.ok cs : Except Error (List Command)) := h
      split at h'
      · rename_i hany
        cases h'
        exact ⟨rfl, hany⟩
      · cases h'
    · rintro ⟨h, hany⟩
      cases h
      exact if_pos hany

/-- The commands of a Modelfile are as the parser gives them. -/
theorem good_of_parse {file : List Char} {cs : List Command} (h : parseFile table file = .ok cs) :
    ∀ c ∈ cs, Good table c := by
  have hresult := (parseFile_eq.mp h).1
  rw [result] at hresult
  cases hrun : run table .init file with
  | error e =>
    rw [hrun] at hresult
    cases hresult
  | ok s =>
    rw [hrun] at hresult
    have hinit : Inv table .init := ⟨fun _ h => absurd h List.not_mem_nil, rfl⟩
    exact good_flush (inv_run hinit hrun) hresult

/-- A Modelfile that was parsed and is printed is parsed as it was just when all its values read
back. -/
theorem parseFile_print_iff (table : PrintTable) (file : List Char) (cs : List Command)
    (h : parseFile table file = .ok cs) :
    parseFile table (print cs) = .ok cs ↔ ∀ c ∈ cs, ReadsBack c := by
  have hgood := good_of_parse h
  have hclean : Clean .init := ⟨rfl, rfl, rfl⟩
  constructor
  · intro hback
    exact readsBack_of_print hclean hgood (parseFile_eq.mp hback).1
  · intro hback
    obtain ⟨s, hrun, hs, hcommands⟩ := run_prints hclean hgood hback
    refine parseFile_eq.mpr ⟨?_, (parseFile_eq.mp h).2⟩
    have hflush : flush s = .ok s.commands := by rw [flush, hs.curr]
    rw [result, hrun]
    exact hflush.trans (congrArg Except.ok hcommands)

/-- The ASCII part of `strconv.IsPrint`. -/
def asciiTable : PrintTable := ⟨fun c => 32 ≤ c.toNat && c.toNat < 127, fun _ _ => rfl⟩

/-- A value of several lines with quotes in it is printed between three quotes. -/
theorem parseFile_print_lines :
    parseFile asciiTable "FROM x\nSYSTEM \"\"\"You are\n\"Mario\".\n\"\"\"\n".toList =
      .ok [⟨"model".toList, "x".toList⟩, ⟨"system".toList, "You are\n\"Mario\".\n".toList⟩] ∧
    parseFile asciiTable (print
      [⟨"model".toList, "x".toList⟩, ⟨"system".toList, "You are\n\"Mario\".\n".toList⟩]) =
      .ok [⟨"model".toList, "x".toList⟩, ⟨"system".toList, "You are\n\"Mario\".\n".toList⟩] := by
  have hread : parseFile asciiTable "FROM x\nSYSTEM \"\"\"You are\n\"Mario\".\n\"\"\"\n".toList =
      .ok [⟨"model".toList, "x".toList⟩, ⟨"system".toList, "You are\n\"Mario\".\n".toList⟩] := by
    decide
  refine ⟨hread, (parseFile_print_iff asciiTable _ _ hread).mpr fun c hc => ?_⟩
  rcases List.mem_pair.mp hc with rfl | rfl
  · show Bare "x".toList
    exact ⟨rfl, by simp, by simp [isNewline]⟩
  · exact .inl (.inl (by simp))

/-- A value that starts with a quote is printed without quotes around it. -/
theorem print_not_parsed : ¬∀ (table : PrintTable) (file : List Char) (cs : List Command),
    parseFile table file = .ok cs → parseFile table (print cs) = .ok cs := by
  intro h
  have hback := h asciiTable "FROM x\nSYSTEM \"\"\"\"Hi\", he said.\"\"\"\n".toList
    [⟨"model".toList, "x".toList⟩, ⟨"system".toList, "\"Hi\", he said.".toList⟩]
    (by decide)
  exact absurd hback (by decide)

end Prismalama.Modelfile
