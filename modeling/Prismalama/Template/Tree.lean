import Mathlib.Data.List.Basic
import Mathlib.Tactic.Basic

/-!
# Parse trees of templates (`template/template.go`)

The nodes of `text/template/parse` that a template is made of. A pipeline has at least one command
and a command at least one argument. `upTo` cuts a tree behind its first `.Response`.
-/

namespace Prismalama.Template.Tree

abbrev Text := List Char

/-- An argument without fields. -/
inductive Operand where
  | identifier (Ident : Text)
  | dot
  | nil
  | bool (True : Bool)
  | number (text : Text)
  | string (text : Text)

mutual

/-- An argument of a command; `pipe` is a pipeline in parentheses. -/
inductive Arg where
  | operand (o : Operand)
  | field (Ident : List Text)
  | var (Ident : List Text)
  | chain (node : Arg) (Field : List Text)
  | pipe (Decl : List (List Text)) (Cmds : Cmds)

/-- The arguments of a command. -/
inductive Args where
  | one (arg : Arg)
  | cons (arg : Arg) (args : Args)

/-- The commands of a pipeline. -/
inductive Cmds where
  | one (args : Args)
  | cons (args : Args) (cmds : Cmds)

end

/-- A pipeline; its declarations are variable nodes. -/
structure Pipe where
  Decl : List (List Text)
  Cmds : Cmds

inductive BranchKind where
  | ifNode
  | withNode
  | rangeNode

/-- A node of a list. -/
inductive Node where
  | text (t : Text)
  | breakNode
  | continueNode
  | action (pipe : Pipe)
  | branch (kind : BranchKind) (pipe : Pipe) (list : List Node) (elseList : Option (List Node))
  | template (Name : Text) (pipe : Option Pipe)

def responseName : Text := "Response".toList

/-! ## Up to the first `.Response` -/

mutual

def Arg.hasResponse : Arg → Bool
  | .operand _ => false
  | .field Ident => Ident.contains responseName
  | .var _ => false
  | .chain node _ => node.hasResponse
  | .pipe _ cmds => cmds.hasResponse

def Args.hasResponse : Args → Bool
  | .one arg => arg.hasResponse
  | .cons arg args => arg.hasResponse || args.hasResponse

def Cmds.hasResponse : Cmds → Bool
  | .one args => args.hasResponse
  | .cons args cmds => args.hasResponse || cmds.hasResponse

end

mutual

def Node.hasResponse : Node → Bool
  | .text _ => false
  | .breakNode => false
  | .continueNode => false
  | .action pipe => pipe.Cmds.hasResponse
  | .branch _ pipe list elseList =>
    pipe.Cmds.hasResponse || listHasResponse list || elseHasResponse elseList
  | .template _ pipe => pipe.any fun pipe => pipe.Cmds.hasResponse

def listHasResponse : List Node → Bool
  | [] => false
  | n :: nodes => n.hasResponse || listHasResponse nodes

def elseHasResponse : Option (List Node) → Bool
  | none => false
  | some list => listHasResponse list

end

mutual

def Arg.upTo : Arg → Arg
  | .operand o => .operand o
  | .field Ident => .field Ident
  | .var Ident => .var Ident
  | .chain node Field => .chain node.upTo Field
  | .pipe Decl cmds => .pipe Decl cmds.upTo

def Args.upTo : Args → Args
  | .one arg => .one arg.upTo
  | .cons arg args => if arg.hasResponse then .one arg.upTo else .cons arg args.upTo

def Cmds.upTo : Cmds → Cmds
  | .one args => .one args.upTo
  | .cons args cmds => if args.hasResponse then .one args.upTo else .cons args cmds.upTo

end

def Pipe.upTo (pipe : Pipe) : Pipe := { pipe with Cmds := pipe.Cmds.upTo }

mutual

def Node.upTo : Node → Node
  | .text t => .text t
  | .breakNode => .breakNode
  | .continueNode => .continueNode
  | .action pipe => .action pipe.upTo
  | .branch kind pipe list elseList =>
    if pipe.Cmds.hasResponse then .branch kind pipe.upTo [] none
    else if listHasResponse list then .branch kind pipe (listUpTo list) none
    else .branch kind pipe list (elseUpTo elseList)
  | .template Name pipe => .template Name (pipe.map Pipe.upTo)

/-- The nodes up to and including the first `.Response`, in the branches that enclose it. -/
def listUpTo : List Node → List Node
  | [] => []
  | n :: nodes => if n.hasResponse then [n.upTo] else n :: listUpTo nodes

def elseUpTo : Option (List Node) → Option (List Node)
  | none => none
  | some list => some (listUpTo list)

end

/-! ## A tree without `.Response` -/

mutual

theorem Arg.upTo_eq (a : Arg) (h : a.hasResponse = false) : a.upTo = a := by
  cases a with
  | operand o => rw [Arg.upTo]
  | field Ident => rw [Arg.upTo]
  | var Ident => rw [Arg.upTo]
  | chain node Field => rw [Arg.upTo, node.upTo_eq (by rwa [Arg.hasResponse] at h)]
  | pipe Decl cmds => rw [Arg.upTo, cmds.upTo_eq (by rwa [Arg.hasResponse] at h)]

theorem Args.upTo_eq (args : Args) (h : args.hasResponse = false) : args.upTo = args := by
  cases args with
  | one arg => rw [Args.upTo, arg.upTo_eq (by rwa [Args.hasResponse] at h)]
  | cons arg args =>
    rw [Args.hasResponse, Bool.or_eq_false_iff] at h
    rw [Args.upTo, h.1, if_neg Bool.false_ne_true, args.upTo_eq h.2]

theorem Cmds.upTo_eq (cmds : Cmds) (h : cmds.hasResponse = false) : cmds.upTo = cmds := by
  cases cmds with
  | one args => rw [Cmds.upTo, args.upTo_eq (by rwa [Cmds.hasResponse] at h)]
  | cons args cmds =>
    rw [Cmds.hasResponse, Bool.or_eq_false_iff] at h
    rw [Cmds.upTo, h.1, if_neg Bool.false_ne_true, cmds.upTo_eq h.2]

end

theorem Pipe.upTo_eq (pipe : Pipe) (h : pipe.Cmds.hasResponse = false) : pipe.upTo = pipe := by
  rw [Pipe.upTo, Cmds.upTo_eq _ h]

mutual

theorem Node.upTo_eq (n : Node) (h : n.hasResponse = false) : n.upTo = n := by
  cases n with
  | text t => rw [Node.upTo]
  | breakNode => rw [Node.upTo]
  | continueNode => rw [Node.upTo]
  | action pipe => rw [Node.upTo, pipe.upTo_eq (by rwa [Node.hasResponse] at h)]
  | branch kind pipe list elseList =>
    rw [Node.hasResponse, Bool.or_eq_false_iff, Bool.or_eq_false_iff] at h
    rw [Node.upTo, h.1.1, h.1.2, if_neg Bool.false_ne_true, if_neg Bool.false_ne_true,
      elseUpTo_eq elseList h.2]
  | template Name pipe =>
    rw [Node.hasResponse] at h
    cases pipe with
    | none => rw [Node.upTo, Option.map_none]
    | some pipe => rw [Node.upTo, Option.map_some, pipe.upTo_eq h]

/-- A tree without `.Response` is kept. -/
theorem listUpTo_eq (nodes : List Node) (h : listHasResponse nodes = false) :
    listUpTo nodes = nodes := by
  cases nodes with
  | nil => rw [listUpTo]
  | cons n nodes =>
    rw [listHasResponse, Bool.or_eq_false_iff] at h
    rw [listUpTo, h.1, if_neg Bool.false_ne_true, listUpTo_eq nodes h.2]

theorem elseUpTo_eq (elseList : Option (List Node)) (h : elseHasResponse elseList = false) :
    elseUpTo elseList = elseList := by
  cases elseList with
  | none => rw [elseUpTo]
  | some list => rw [elseUpTo, listUpTo_eq list (by rwa [elseHasResponse] at h)]

end

end Prismalama.Template.Tree
