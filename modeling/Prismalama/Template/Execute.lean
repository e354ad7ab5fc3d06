import Mathlib.Data.List.SplitBy
import Mathlib.Tactic

/-!
# Rendering messages with a template (`template/template.go`)

`Template.Execute` for templates without `.Messages`: messages are collated, then rendered in rounds
of a system, a prompt and a response. A template is the flat list of its texts and printed
variables. What is written keeps its origin (`Piece`).
-/

namespace Prismalama.Template

abbrev Text := List Char

inductive Role where
  | system
  | user
  | assistant
  | tool
deriving DecidableEq

structure Message where
  Role : Role
  Content : Text
deriving DecidableEq

/-- A node of a parsed template: text, or an action that prints a field -/
inductive Node where
  | text (t : Text)
  | action (ident : Text)
deriving DecidableEq

namespace Node

def ident? : Node → Option Text
  | text _ => none
  | action ident => some ident

end Node

/-- What is written: text of the template, or the value of a field -/
inductive Piece where
  | text (t : Text)
  | value (ident v : Text)
deriving DecidableEq

namespace Piece

def value? : Piece → Option Text
  | text _ => none
  | value _ v => some v

def bytes : Piece → Text
  | text t => t
  | value _ v => v

end Piece

abbrev Tmpl := List Node

/-- `Vars`, unsorted -/
def vars (t : Tmpl) : List Text := (t.filterMap Node.ident?).map (List.map Char.toLower)

/-- The variables of a round -/
structure Round where
  system : Text
  prompt : Text
  response : Text

namespace Round

def empty : Round := ⟨[], [], []⟩

/-- The three values about thinking, which are the same in every round, are left out: their
fields read as ones that are not set. -/
def field (r : Round) (ident : Text) : Text :=
  if ident = "System".toList then r.system
  else if ident = "Prompt".toList then r.prompt
  else if ident = "Response".toList then r.response
  else "<no value>".toList

/-- What a round still has to write -/
def pending (r : Round) : List Text := [r.system, r.prompt, r.response].filter (· ≠ [])

end Round

/-- `text/template` on a flat template -/
def render (t : Tmpl) (r : Round) : List Piece :=
  t.map fun
    | .text s => .text s
    | .action ident => .value ident (r.field ident)

/-- `deleteNode` with the predicate of `Execute`: all that follows the first `.Response` goes. -/
def deleteNode : Tmpl → Tmpl
  | [] => []
  | .text s :: rest => .text s :: deleteNode rest
  | .action ident :: rest =>
    if ident = "Response".toList then [.action ident] else .action ident :: deleteNode rest

def blankLine : Text := "\n\n".toList

/-- The system messages of `collate` are left out: rounds do not use them. -/
def collate (msgs : List Message) : List Message :=
  msgs.foldl (fun collated m =>
    match collated.getLast? with
    | some last =>
      if last.Role = m.Role ∧ m.Role ≠ .tool then
        collated.dropLast ++ [⟨last.Role, last.Content ++ blankLine ++ m.Content⟩]
      else collated ++ [m]
    | none => collated ++ [m]) []

/-- A message in the loop of `Execute`, with the round and the buffer `b` -/
def step (t : Tmpl) (s : Round × List Piece) (m : Message) : Round × List Piece :=
  match m.Role with
  | .system =>
    if s.1.prompt ≠ [] ∨ s.1.response ≠ [] then
      ({ Round.empty with system := m.Content }, s.2 ++ render t s.1)
    else ({ s.1 with system := m.Content }, s.2)
  | .user =>
    if s.1.response ≠ [] then ({ Round.empty with prompt := m.Content }, s.2 ++ render t s.1)
    else ({ s.1 with prompt := m.Content }, s.2)
  | .assistant => ({ s.1 with response := m.Content }, s.2)
  | .tool => s

structure Values where
  Messages : List Message
  Prompt : Text
  Suffix : Text
  forceLegacy : Bool

/-- `withSuffix` and `withMessages` render a prompt with a suffix and templates over `.Messages`. -/
def Execute (withSuffix withMessages : Tmpl → Values → List Piece) (t : Tmpl) (v : Values) :
    List Piece :=
  if v.Prompt ≠ [] ∧ v.Suffix ≠ [] then withSuffix t v
  else if v.forceLegacy = false ∧ (vars t).contains "messages".toList then withMessages t v
  else
    let s := (collate v.Messages).foldl (step t) (Round.empty, [])
    s.2 ++ render (deleteNode t) s.1

/-- The values written, less the empty ones -/
def printed (ps : List Piece) : List Text := (ps.filterMap Piece.value?).filter (· ≠ [])

/-- Adjacent messages of one role -/
def groups (msgs : List Message) : List (List Message) :=
  msgs.splitBy fun a b => a.Role = b.Role

def isTool (m : Message) : Bool := m.Role = .tool

/-- The template prints each of the three variables once, in order. -/
def Plain (t : Tmpl) : Prop :=
  t.filterMap Node.ident? = ["System".toList, "Prompt".toList, "Response".toList]

/-! ## Adjacent messages -/

/-- The collated messages that are rendered -/
def rendered (msgs : List Message) : List Message := (collate msgs).filter fun m => !isTool m

/-- What the loop has written or will write -/
def written (s : Round × List Piece) : List Text := printed s.2 ++ s.1.pending

/-- A value that is not empty -/
def keep (v : Text) : List Text := if v = [] then [] else [v]

end Prismalama.Template
