import Prismalama.Template.Execute
import Prismalama.Template.Tree

/-!
# Cutting a template at `.Response` (`template/template.go`)

`Execute` renders its last round with what `deleteNode` leaves of the template. The walk goes through
lists, branches and the commands of actions, but not through the pipelines of branches and template
invocations. Once it has met `.Response`, it deletes every node but further `.Response` arguments,
and an else list that is deleted makes it panic (`CutRight`).
-/

namespace Prismalama.Template.Tree

/-! ## The walk -/

/-- A dropped or kept argument before the others. -/
def consArg : Option Arg → Option Args → Option Args
  | none, args => args
  | some arg, none => some (.one arg)
  | some arg, some args => some (.cons arg args)

mutual

/-- `cut` is the variable of the predicate. The result is `none` for a deleted node, with the value
of `cut` after the walk. -/
def walkArg (cut : Bool) : Arg → Option Arg × Bool
  | .field Ident =>
    if Ident.contains responseName then (some (.field Ident), true)
    else if cut then (none, cut) else (some (.field Ident), cut)
  | .pipe Decl cmds =>
    if cut then (none, cut)
    else ((walkCmds cut cmds).1.map (.pipe Decl), (walkCmds cut cmds).2)
  | .operand o => if cut then (none, cut) else (some (.operand o), cut)
  | .var Ident => if cut then (none, cut) else (some (.var Ident), cut)
  | .chain node Field => if cut then (none, cut) else (some (.chain node Field), cut)

def walkArgs (cut : Bool) : Args → Option Args × Bool
  | .one arg => ((walkArg cut arg).1.map .one, (walkArg cut arg).2)
  | .cons arg args =>
    (consArg (walkArg cut arg).1 (walkArgs (walkArg cut arg).2 args).1,
      (walkArgs (walkArg cut arg).2 args).2)

/-- A command without arguments ends the loop, and the pipeline is deleted. -/
def walkCmds (cut : Bool) : Cmds → Option Cmds × Bool
  | .one args => ((walkArgs cut args).1.map .one, (walkArgs cut args).2)
  | .cons args cmds =>
    match walkArgs cut args with
    | (none, cut) => (none, cut)
    | (some args, cut) => ((walkCmds cut cmds).1.map (.cons args), (walkCmds cut cmds).2)

end

mutual

/-- The outer `none` is a panic. -/
def walkNode (cut : Bool) : Node → Option (Option Node × Bool)
  | .text t => some (if cut then none else some (.text t), cut)
  | .breakNode => some (if cut then none else some .breakNode, cut)
  | .continueNode => some (if cut then none else some .continueNode, cut)
  | .action pipe =>
    if cut then some (none, cut)
    else
      some ((walkCmds cut pipe.Cmds).1.map fun cmds => .action { pipe with Cmds := cmds },
        (walkCmds cut pipe.Cmds).2)
  | .branch kind pipe list elseList =>
    if cut then some (none, cut)
    else
      (walkList cut list).bind fun r =>
        (walkElse r.2 elseList).map fun s => (some (.branch kind pipe r.1 s.1), s.2)
  | .template Name pipe => some (if cut then none else some (.template Name pipe), cut)

def walkList (cut : Bool) : List Node → Option (List Node × Bool)
  | [] => some ([], cut)
  | n :: nodes =>
    (walkNode cut n).bind fun r =>
      (walkList r.2 nodes).map fun s => (r.1.toList ++ s.1, s.2)

/-- A deleted list does not convert to a `*parse.ListNode`. -/
def walkElse (cut : Bool) : Option (List Node) → Option (Option (List Node) × Bool)
  | none => some (none, cut)
  | some list => if cut then none else (walkList cut list).map fun r => (some r.1, r.2)

end

/-- `deleteNode` with the predicate of `Execute`; `none` is a panic. -/
def deleteNode (root : List Node) : Option (List Node) := (walkList false root).map Prod.fst

/-! ## Where the walk cuts right -/

mutual

/-- The walk meets `.Response` in it. -/
def Arg.reached : Arg → Bool
  | .operand _ => false
  | .field Ident => Ident.contains responseName
  | .var _ => false
  | .chain _ _ => false
  | .pipe _ cmds => cmds.reached

def Args.reached : Args → Bool
  | .one arg => arg.reached
  | .cons arg args => arg.reached || args.reached

def Cmds.reached : Cmds → Bool
  | .one args => args.reached
  | .cons args cmds => args.reached || cmds.reached

end

mutual

def Node.reached : Node → Bool
  | .text _ => false
  | .breakNode => false
  | .continueNode => false
  | .action pipe => pipe.Cmds.reached
  | .branch _ _ list elseList => listReached list || elseReached elseList
  | .template _ _ => false

def listReached : List Node → Bool
  | [] => false
  | n :: nodes => n.reached || listReached nodes

def elseReached : Option (List Node) → Bool
  | none => false
  | some list => listReached list

end

def Arg.isResponse : Arg → Bool
  | .field Ident => Ident.contains responseName
  | _ => false

/-- One of the arguments is `.Response`. -/
def Args.anyResponse : Args → Bool
  | .one arg => arg.isResponse
  | .cons arg args => arg.isResponse || args.anyResponse

/-- Every command has `.Response` for an argument. -/
def Cmds.allResponse : Cmds → Bool
  | .one args => args.anyResponse
  | .cons args cmds => args.anyResponse && cmds.allResponse

mutual

/-- Nothing is left, although there is a `.Response`: it is in a command of a pipeline, and another
command of the pipeline has no argument of its own left. -/
def Arg.lost : Arg → Bool
  | .operand _ => false
  | .field _ => false
  | .var _ => false
  | .chain _ _ => false
  | .pipe _ cmds => cmds.lost

def Args.lost : Args → Bool
  | .one arg => arg.lost
  | .cons arg args => arg.lost && !args.anyResponse

def Cmds.lost : Cmds → Bool
  | .one args => args.lost
  | .cons args cmds =>
    if args.reached then args.lost || !cmds.allResponse else cmds.lost

end

/-- The list starts with an action that is lost. -/
def lostList : List Node → Bool
  | .action pipe :: _ => pipe.Cmds.lost
  | _ => false

mutual

/-- What the walk leaves ends with the first `.Response`. -/
def Arg.CutRight : Arg → Prop
  | .operand _ => True
  | .field _ => True
  | .var _ => True
  | .chain node _ => node.upTo = node
  | .pipe _ cmds => cmds.CutRight

def Args.CutRight : Args → Prop
  | .one arg => arg.CutRight
  | .cons arg args =>
    if arg.hasResponse then
      arg.CutRight ∧ (if arg.reached then args.anyResponse = false else args.lost = true)
    else args.CutRight

def Cmds.CutRight : Cmds → Prop
  | .one args => args.CutRight
  | .cons args cmds => if args.hasResponse then False else cmds.CutRight

end

mutual

def Node.CutRight : Node → Prop
  | .text _ => True
  | .breakNode => True
  | .continueNode => True
  | .action pipe => pipe.Cmds.CutRight
  | .branch _ pipe list elseList =>
    if pipe.Cmds.hasResponse then
      pipe.upTo = pipe ∧ (list = [] ∨ lostList list = true) ∧ elseList = none
    else if listHasResponse list then listCutRight list ∧ elseList = none
    else elseCutRight elseList
  | .template _ pipe => pipe.map Pipe.upTo = pipe

def listCutRight : List Node → Prop
  | [] => True
  | n :: nodes =>
    if n.hasResponse then n.CutRight ∧ (n.reached = true ∨ nodes = [] ∨ lostList nodes = true)
    else listCutRight nodes

def elseCutRight : Option (List Node) → Prop
  | none => True
  | some list => listCutRight list

end

/-! ## Behind the cut -/

theorem walkArg_true (arg : Arg) :
    walkArg true arg = (if arg.isResponse then some arg else none, true) := by
  cases arg with
  | operand o => rfl
  | field Ident =>
    rw [walkArg, Arg.isResponse]
    split <;> rfl
  | var Ident => rfl
  | chain node Field => rfl
  | pipe Decl cmds => rfl

theorem walkArgs_true_cut : ∀ args : Args, (walkArgs true args).2 = true
  | .one arg => by rw [walkArgs, walkArg_true]
  | .cons arg args => by
    rw [walkArgs, walkArg_true]
    exact walkArgs_true_cut args

theorem consArg_eq_none {arg : Option Arg} {args : Option Args} :
    consArg arg args = none ↔ arg = none ∧ args = none := by
  cases arg <;> cases args <;> simp [consArg]

theorem walkArgs_true_eq_none : ∀ args : Args,
    (walkArgs true args).1 = none ↔ args.anyResponse = false
  | .one arg => by
    rw [walkArgs, walkArg_true, Args.anyResponse, Option.map_eq_none_iff]
    cases arg.isResponse <;> simp
  | .cons arg args => by
    rw [walkArgs, walkArg_true, consArg_eq_none, walkArgs_true_eq_none args, Args.anyResponse,
      Bool.or_eq_false_iff]
    cases arg.isResponse <;> simp

/-- Only `.Response` itself stays behind the cut. -/
theorem walkArgs_true_one : ∀ {args : Args} {a : Arg}, (walkArgs true args).1 = some (.one a) →
    a.isResponse = true
  | .one arg, a, h => by
    rw [walkArgs, walkArg_true] at h
    cases harg : arg.isResponse with
    | false =>
      rw [harg] at h
      cases h
    | true =>
      rw [harg] at h
      cases h
      exact harg
  | .cons arg args, a, h => by
    rw [walkArgs, walkArg_true] at h
    cases harg : arg.isResponse with
    | false =>
      rw [harg] at h
      exact walkArgs_true_one h
    | true =>
      rw [harg] at h
      cases hargs : (walkArgs true args).1 with
      | none =>
        rw [hargs] at h
        cases h
        exact harg
      | some rest =>
        rw [hargs] at h
        cases h

theorem walkCmds_true_cut : ∀ cmds : Cmds, (walkCmds true cmds).2 = true
  | .one args => by
    rw [walkCmds]
    exact walkArgs_true_cut args
  | .cons args cmds => by
    have hcut := walkArgs_true_cut args
    rw [walkCmds]
    split
    · next heq => rwa [heq] at hcut
    · next kept cut heq =>
      rw [heq] at hcut
      obtain rfl : cut = true := hcut
      exact walkCmds_true_cut cmds

theorem walkCmds_true_eq_none : ∀ cmds : Cmds,
    (walkCmds true cmds).1 = none ↔ cmds.allResponse = false
  | .one args => by
    rw [walkCmds, Cmds.allResponse, Option.map_eq_none_iff, walkArgs_true_eq_none]
  | .cons args cmds => by
    have hcut := walkArgs_true_cut args
    have hnone := walkArgs_true_eq_none args
    rw [walkCmds, Cmds.allResponse, Bool.and_eq_false_iff]
    split
    · next heq =>
      rw [heq] at hnone
      exact iff_of_true rfl (.inl (hnone.mp rfl))
    · next kept cut heq =>
      rw [heq] at hcut hnone
      obtain rfl : cut = true := hcut
      rw [Option.map_eq_none_iff, walkCmds_true_eq_none cmds]
      exact (or_iff_right fun h => nomatch hnone.mpr h).symm

/-! ## One walk -/

/-- What the walk does with an argument, a command or a pipeline before the cut. -/
structure Walked {α : Type} (r : Option α × Bool) (a upTo : α) (reached lost : Bool)
    (right : Prop) : Prop where
  cut : r.2 = reached
  same : reached = false → r.1 = some a
  none_iff : r.1 = none ↔ lost = true
  right_iff : r.1 = some upTo ↔ right

theorem Walked.map {α β : Type} {r : Option α × Bool} {a upTo : α} {reached lost : Bool}
    {right : Prop} (h : Walked r a upTo reached lost right) {f : α → β}
    (hf : Function.Injective f) :
    Walked (r.1.map f, r.2) (f a) (f upTo) reached lost right where
  cut := h.cut
  same hr := by rw [h.same hr, Option.map_some]
  none_iff := by rw [Option.map_eq_none_iff, h.none_iff]
  right_iff := by rw [← Option.map_some, (Option.map_injective hf).eq_iff, h.right_iff]

/-- What the walk does not reach stays. -/
theorem Walked.lost_eq {α : Type} {r : Option α × Bool} {a upTo : α} {reached lost : Bool}
    {right : Prop} (h : Walked r a upTo reached lost right) (hr : reached = false) :
    lost = false := by
  rw [Bool.eq_false_iff]
  intro hlost
  have hnone := h.none_iff.mpr hlost
  rw [h.same hr] at hnone
  cases hnone

theorem Walked.kept {α : Type} (a : α) (right : Prop) (upTo : α) (h : upTo = a ↔ right) :
    Walked (some a, false) a upTo false false right where
  cut := rfl
  same _ := rfl
  none_iff := by simp
  right_iff := by rw [Option.some_inj, eq_comm, h]

theorem args_one_injective : Function.Injective Args.one := fun _ _ h => by injection h

theorem cmds_one_injective : Function.Injective Cmds.one := fun _ _ h => by injection h

theorem pipe_injective (Decl : List (List Text)) : Function.Injective (Arg.pipe Decl) :=
  fun _ _ h => by injection h

mutual

theorem Arg.hasResponse_of_reached (arg : Arg) (h : arg.reached = true) :
    arg.hasResponse = true := by
  cases arg with
  | operand o => cases h
  | field Ident => exact h
  | var Ident => cases h
  | chain node Field => cases h
  | pipe Decl cmds => exact cmds.hasResponse_of_reached h

theorem Args.hasResponse_of_reached (args : Args) (h : args.reached = true) :
    args.hasResponse = true := by
  cases args with
  | one arg => exact arg.hasResponse_of_reached h
  | cons arg args =>
    rw [Args.reached, Bool.or_eq_true] at h
    rw [Args.hasResponse, Bool.or_eq_true]
    exact h.imp arg.hasResponse_of_reached args.hasResponse_of_reached

theorem Cmds.hasResponse_of_reached (cmds : Cmds) (h : cmds.reached = true) :
    cmds.hasResponse = true := by
  cases cmds with
  | one args => exact args.hasResponse_of_reached h
  | cons args cmds =>
    rw [Cmds.reached, Bool.or_eq_true] at h
    rw [Cmds.hasResponse, Bool.or_eq_true]
    exact h.imp args.hasResponse_of_reached cmds.hasResponse_of_reached

end

/-- A pipeline that is lost does not come back as one of the `.Response` arguments behind it. -/
theorem Arg.upTo_of_lost {arg : Arg} (h : arg.lost = true) : arg.upTo.isResponse = false := by
  cases arg with
  | pipe Decl cmds => rfl
  | _ => cases h

theorem consArg_eq_one {arg : Option Arg} {args : Option Args} {a : Arg} :
    consArg arg args = some (.one a) ↔
      arg = some a ∧ args = none ∨ arg = none ∧ args = some (.one a) := by
  cases arg <;> cases args <;> simp [consArg]

theorem consArg_eq_cons {arg a : Arg} {args : Option Args} {as : Args} :
    consArg (some arg) args = some (.cons a as) ↔ arg = a ∧ args = some as := by
  cases args <;> simp [consArg]

theorem walked_cons {arg : Arg} {args : Args}
    (harg : Walked (walkArg false arg) arg arg.upTo arg.reached arg.lost arg.CutRight)
    (hargs : Walked (walkArgs false args) args args.upTo args.reached args.lost args.CutRight) :
    Walked (walkArgs false (.cons arg args)) (.cons arg args) (Args.cons arg args).upTo
      (Args.cons arg args).reached (Args.cons arg args).lost (Args.cons arg args).CutRight := by
  rw [walkArgs, harg.cut, Args.upTo, Args.reached, Args.lost, Args.CutRight]
  cases hr : arg.reached with
  | false =>
    have hsame := harg.same hr
    have hright := harg.right_iff
    rw [hsame, Option.some_inj] at hright
    rw [hsame, harg.lost_eq hr, Bool.false_or, Bool.false_and, if_neg Bool.false_ne_true]
    refine ⟨hargs.cut, fun h => ?_, ?_, ?_⟩
    · rw [hargs.same h]
      rfl
    · rw [consArg_eq_none]
      exact iff_of_false (fun h => nomatch h.1) Bool.false_ne_true
    · cases arg.hasResponse with
      | true =>
        rw [if_pos rfl, if_pos rfl, consArg_eq_one, hargs.none_iff, Option.some_inj, hright]
        exact or_iff_left fun h => nomatch h.1
      | false =>
        rw [if_neg Bool.false_ne_true, if_neg Bool.false_ne_true, consArg_eq_cons,
          hargs.right_iff]
        exact and_iff_right rfl
  | true =>
    rw [arg.hasResponse_of_reached hr, Bool.true_or, if_pos rfl, if_pos rfl, if_pos rfl]
    refine ⟨walkArgs_true_cut args, fun h => (nomatch h), ?_, ?_⟩
    · rw [consArg_eq_none, harg.none_iff, walkArgs_true_eq_none, Bool.and_eq_true,
        Bool.not_eq_true']
    · rw [consArg_eq_one, harg.right_iff, harg.none_iff, walkArgs_true_eq_none]
      refine or_iff_left fun ⟨hlost, hone⟩ => ?_
      have hresponse := walkArgs_true_one hone
      rw [Arg.upTo_of_lost hlost] at hresponse
      cases hresponse

theorem walked_cons_cmds {args : Args} {cmds : Cmds}
    (hargs : Walked (walkArgs false args) args args.upTo args.reached args.lost args.CutRight)
    (hcmds : Walked (walkCmds false cmds) cmds cmds.upTo cmds.reached cmds.lost cmds.CutRight) :
    Walked (walkCmds false (.cons args cmds)) (.cons args cmds) (Cmds.cons args cmds).upTo
      (Cmds.cons args cmds).reached (Cmds.cons args cmds).lost
      (Cmds.cons args cmds).CutRight := by
  have hone : ∀ (as as' : Args) (cs : Option Cmds), cs.map (Cmds.cons as) ≠ some (Cmds.one as') := by
    intro as as' cs h
    cases cs <;> cases h
  rw [walkCmds, Cmds.upTo, Cmds.reached, Cmds.lost, Cmds.CutRight]
  cases hr : args.reached with
  | false =>
    have hpair : walkArgs false args = (some args, false) :=
      Prod.ext (hargs.same hr) (hargs.cut.trans hr)
    rw [hpair, Bool.false_or, if_neg Bool.false_ne_true]
    dsimp only
    refine ⟨hcmds.cut, fun h => ?_, ?_, ?_⟩
    · rw [hcmds.same h]
      rfl
    · rw [Option.map_eq_none_iff, hcmds.none_iff]
    · cases args.hasResponse with
      | true => exact iff_of_false (hone _ _ _) id
      | false =>
        have hinj : Function.Injective (Cmds.cons args) := fun _ _ h => by injection h
        rw [if_neg Bool.false_ne_true, if_neg Bool.false_ne_true, ← Option.map_some,
          (Option.map_injective hinj).eq_iff, hcmds.right_iff]
  | true =>
    have hcut := hargs.cut.trans hr
    have hnone := hargs.none_iff
    rw [args.hasResponse_of_reached hr, Bool.true_or, if_pos rfl, if_pos rfl, if_pos rfl]
    split
    · next cut heq =>
      rw [heq] at hcut hnone
      refine ⟨hcut, fun h => (nomatch h), iff_of_true rfl ?_, iff_of_false (fun h => nomatch h) id⟩
      rw [hnone.mp rfl, Bool.true_or]
    · next kept cut heq =>
      rw [heq] at hcut hnone
      obtain rfl : cut = true := hcut
      refine ⟨walkCmds_true_cut cmds, fun h => (nomatch h), ?_, iff_of_false (hone _ _ _) id⟩
      have hkept : args.lost = false := by
        rw [Bool.eq_false_iff]
        exact fun h => nomatch hnone.mpr h
      rw [Option.map_eq_none_iff, walkCmds_true_eq_none, hkept, Bool.false_or, Bool.not_eq_true']

mutual

/-- What the walk makes of an argument, of a command and of a pipeline. -/
theorem walkArg_walked (arg : Arg) :
    Walked (walkArg false arg) arg arg.upTo arg.reached arg.lost arg.CutRight := by
  cases arg with
  | operand o => exact .kept _ _ _ (iff_of_true rfl trivial)
  | field Ident =>
    rw [walkArg, Arg.reached]
    split
    · next h => exact ⟨h.symm, fun hr => absurd h (hr ▸ Bool.false_ne_true), by simp [Arg.lost],
        iff_of_true rfl trivial⟩
    · next h =>
      rw [Bool.not_eq_true] at h
      rw [h]
      exact .kept _ _ _ (iff_of_true rfl trivial)
  | var Ident => exact .kept _ _ _ (iff_of_true rfl trivial)
  | chain node Field =>
    refine .kept _ _ _ ?_
    rw [Arg.upTo, Arg.CutRight, Arg.chain.injEq, and_iff_left rfl]
  | pipe Decl cmds => exact (walkCmds_walked cmds).map (pipe_injective Decl)

theorem walkArgs_walked (args : Args) :
    Walked (walkArgs false args) args args.upTo args.reached args.lost args.CutRight := by
  cases args with
  | one arg => exact (walkArg_walked arg).map args_one_injective
  | cons arg args => exact walked_cons (walkArg_walked arg) (walkArgs_walked args)

theorem walkCmds_walked (cmds : Cmds) :
    Walked (walkCmds false cmds) cmds cmds.upTo cmds.reached cmds.lost cmds.CutRight := by
  cases cmds with
  | one args => exact (walkArgs_walked args).map cmds_one_injective
  | cons args cmds => exact walked_cons_cmds (walkArgs_walked args) (walkCmds_walked cmds)

end

/-! ## The walk through lists and branches -/

theorem walkNode_true (n : Node) : walkNode true n = some (none, true) := by
  cases n with
  | text t => rfl
  | breakNode => rfl
  | continueNode => rfl
  | action pipe => rfl
  | branch kind pipe list elseList => rfl
  | template Name pipe => rfl

theorem walkList_true : ∀ nodes : List Node, walkList true nodes = some ([], true)
  | [] => rfl
  | n :: nodes => by
    rw [walkList, walkNode_true, Option.bind_some, walkList_true nodes]
    rfl

theorem walkElse_eq_none {cut : Bool} {elseList : Option (List Node)} :
    (walkElse cut elseList).map Prod.fst = some none ↔ elseList = none := by
  cases elseList with
  | none => exact iff_of_true rfl rfl
  | some list =>
    refine iff_of_false (fun h => ?_) (fun h => nomatch h)
    rw [walkElse] at h
    cases cut with
    | true => cases h
    | false => cases hlist : walkList false list <;> simp [hlist] at h

/-- What the walk does with a node, a list or an else list before the cut. -/
structure WalkedTree {β : Type} (r : Option (β × Bool)) (b upTo gone : β) (reached : Bool)
    (lost right : Prop) : Prop where
  cut : ∀ s ∈ r, s.2 = reached
  same : reached = false → r = some (b, false)
  gone_iff : r.map Prod.fst = some gone ↔ lost
  right_iff : r.map Prod.fst = some upTo ↔ right

abbrev WalkedNode (n : Node) : Prop :=
  WalkedTree (walkNode false n) (some n) (some n.upTo) none n.reached (lostList [n] = true)
    n.CutRight

abbrev WalkedList (nodes : List Node) : Prop :=
  WalkedTree (walkList false nodes) nodes (listUpTo nodes) [] (listReached nodes)
    (nodes = [] ∨ lostList nodes = true) (listCutRight nodes)

abbrev WalkedElse (elseList : Option (List Node)) : Prop :=
  WalkedTree (walkElse false elseList) elseList (elseUpTo elseList) none (elseReached elseList)
    (elseList = none) (elseCutRight elseList)

mutual

theorem Node.hasResponse_of_reached (n : Node) (h : n.reached = true) : n.hasResponse = true := by
  cases n with
  | text t => cases h
  | breakNode => cases h
  | continueNode => cases h
  | action pipe => exact pipe.Cmds.hasResponse_of_reached h
  | branch kind pipe list elseList =>
    rw [Node.reached, Bool.or_eq_true] at h
    rw [Node.hasResponse, Bool.or_assoc, Bool.or_eq_true, Bool.or_eq_true]
    exact .inr (h.imp (listHasResponse_of_reached list) (elseHasResponse_of_reached elseList))
  | template Name pipe => cases h

theorem listHasResponse_of_reached (nodes : List Node) (h : listReached nodes = true) :
    listHasResponse nodes = true := by
  cases nodes with
  | nil => cases h
  | cons n nodes =>
    rw [listReached, Bool.or_eq_true] at h
    rw [listHasResponse, Bool.or_eq_true]
    exact h.imp n.hasResponse_of_reached (listHasResponse_of_reached nodes)

theorem elseHasResponse_of_reached (elseList : Option (List Node))
    (h : elseReached elseList = true) : elseHasResponse elseList = true := by
  cases elseList with
  | none => cases h
  | some list => exact listHasResponse_of_reached list h

end

/-- A node that the walk only keeps. -/
theorem WalkedTree.kept {n : Node} {right : Prop} {upTo : Node} (h : upTo = n ↔ right) :
    WalkedTree (some (some n, false)) (some n) (some upTo) none false (false = true) right where
  cut s hs := by
    cases hs
    rfl
  same _ := rfl
  gone_iff := by simp
  right_iff := by rw [Option.map_some, Option.some_inj, Option.some_inj, eq_comm, h]

theorem walkedNode_action (pipe : Pipe) : WalkedNode (.action pipe) := by
  have h := walkCmds_walked pipe.Cmds
  have hinj : Function.Injective fun cmds => Node.action { pipe with Cmds := cmds } := by
    intro cmds cmds' heq
    injection heq with heq
    injection heq
  have hmap := h.map hinj
  refine ⟨fun s hs => ?_, fun hr => ?_, ?_, ?_⟩
  · cases hs
    exact hmap.cut
  · exact congrArg some (Prod.ext (hmap.same hr) (hmap.cut.trans hr))
  · exact (Option.some_inj).trans hmap.none_iff
  · exact (Option.some_inj).trans hmap.right_iff

theorem lostList_cons (n : Node) (nodes : List Node) : lostList (n :: nodes) = lostList [n] := by
  cases n <;> rfl

theorem walked_cons_list {n : Node} {nodes : List Node} (hn : WalkedNode n)
    (hnodes : WalkedList nodes) : WalkedList (n :: nodes) := by
  have hgone := hn.gone_iff
  have hright := hn.right_iff
  rw [WalkedList, walkList, listUpTo, listReached, lostList_cons, listCutRight]
  cases hr : n.reached with
  | false =>
    rw [hn.same hr, Option.map_some, Option.some_inj] at hgone hright
    rw [hn.same hr, Option.bind_some, ← hgone, Bool.false_or]
    have hfst : ∀ r : Option (List Node × Bool),
        (r.map fun s => ((some n).toList ++ s.1, s.2)).map Prod.fst =
          (r.map Prod.fst).map (n :: ·) := fun r => by cases r <;> rfl
    refine ⟨fun s hs => ?_, fun h => ?_, ?_, ?_⟩
    · obtain ⟨s', hs', rfl⟩ := Option.map_eq_some_iff.mp hs
      exact hnodes.cut s' hs'
    · rw [hnodes.same h]
      rfl
    · rw [hfst]
      simp
    · rw [hfst]
      cases n.hasResponse with
      | true =>
        have hone : ∀ r : Option (List Node),
            r.map (n :: ·) = some [n.upTo] ↔ n = n.upTo ∧ r = some [] := by
          intro r
          cases r <;> simp
        rw [if_pos rfl, if_pos rfl, hone, hnodes.gone_iff, ← hright, Option.some_inj]
        simp
      | false =>
        have hcons : ∀ r : Option (List Node),
            r.map (n :: ·) = some (n :: listUpTo nodes) ↔ r = some (listUpTo nodes) := by
          intro r
          cases r <;> simp
        rw [if_neg Bool.false_ne_true, if_neg Bool.false_ne_true, hcons, hnodes.right_iff]
  | true =>
    rw [n.hasResponse_of_reached hr, if_pos rfl, if_pos rfl, ← hright, ← hgone, Bool.true_or]
    cases hwalk : walkNode false n with
    | none =>
      refine ⟨fun s hs => (nomatch hs), fun h => (nomatch h), ?_, ?_⟩
      · exact iff_of_false (fun h => nomatch h) (by simp)
      · exact iff_of_false (fun h => nomatch h) (fun h => nomatch h.1)
    | some s =>
      obtain ⟨kept, cut⟩ := s
      obtain rfl : cut = true := (hn.cut _ hwalk).trans hr
      rw [Option.bind_some, walkList_true]
      refine ⟨fun s hs => ?_, fun h => (nomatch h), ?_, ?_⟩
      · cases hs
        rfl
      · cases kept <;> simp
      · cases kept <;> simp

theorem walkBranch_eq {kind : BranchKind} {pipe pipe' : Pipe} {list list' : List Node}
    {elseList elseList' : Option (List Node)} (hlist : WalkedList list) :
    (walkNode false (.branch kind pipe list elseList)).map Prod.fst =
        some (some (.branch kind pipe' list' elseList')) ↔
      pipe = pipe' ∧ (walkList false list).map Prod.fst = some list' ∧
        (walkElse (listReached list) elseList).map Prod.fst = some elseList' := by
  rw [walkNode, if_neg Bool.false_ne_true]
  cases hwalk : walkList false list with
  | none => simp
  | some s =>
    obtain ⟨kept, cut⟩ := s
    obtain rfl : cut = listReached list := hlist.cut _ hwalk
    rw [Option.bind_some]
    dsimp only
    cases walkElse (listReached list) elseList with
    | none => simp
    | some t => simp

theorem walked_branch {kind : BranchKind} {pipe : Pipe} {list : List Node}
    {elseList : Option (List Node)} (hlist : WalkedList list) (helse : WalkedElse elseList) :
    WalkedNode (.branch kind pipe list elseList) := by
  refine ⟨fun s hs => ?_, fun hr => ?_, ?_, ?_⟩
  · rw [walkNode, if_neg Bool.false_ne_true] at hs
    obtain ⟨r, hr, hmap⟩ := Option.bind_eq_some_iff.mp hs
    obtain ⟨t, ht, rfl⟩ := Option.map_eq_some_iff.mp hmap
    rw [Node.reached, ← hlist.cut r hr]
    cases hcut : r.2 with
    | false =>
      rw [hcut] at ht
      exact helse.cut t ht
    | true =>
      rw [hcut] at ht
      cases elseList with
      | none =>
        cases ht
        rfl
      | some list => cases ht
  · rw [Node.reached, Bool.or_eq_false_iff] at hr
    rw [walkNode, if_neg Bool.false_ne_true, hlist.same hr.1, Option.bind_some, helse.same hr.2]
    rfl
  · refine iff_of_false (fun h => ?_) (fun h => nomatch h)
    rw [walkNode, if_neg Bool.false_ne_true] at h
    cases hwalk : walkList false list with
    | none => simp [hwalk] at h
    | some s => cases helse : walkElse s.2 elseList <;> simp [hwalk, helse] at h
  · rw [Node.upTo, Node.CutRight]
    cases pipe.Cmds.hasResponse with
    | true =>
      -- the first one is in the pipeline, where the walk does not go
      rw [if_pos rfl, if_pos rfl, walkBranch_eq hlist, hlist.gone_iff, walkElse_eq_none, eq_comm]
    | false =>
      rw [if_neg Bool.false_ne_true, if_neg Bool.false_ne_true]
      cases hhas : listHasResponse list with
      | true =>
        rw [if_pos rfl, if_pos rfl, walkBranch_eq hlist, hlist.right_iff, walkElse_eq_none]
        exact and_iff_right rfl
      | false =>
        have hr : listReached list = false := by
          rw [Bool.eq_false_iff]
          intro h
          rw [listHasResponse_of_reached list h] at hhas
          cases hhas
        rw [if_neg Bool.false_ne_true, if_neg Bool.false_ne_true, walkBranch_eq hlist,
          hlist.same hr, hr, helse.right_iff]
        exact ⟨fun h => h.2.2, fun h => ⟨rfl, rfl, h⟩⟩

mutual

theorem walkNode_walked (n : Node) : WalkedNode n := by
  cases n with
  | text t => exact .kept (iff_of_true rfl trivial)
  | breakNode => exact .kept (iff_of_true rfl trivial)
  | continueNode => exact .kept (iff_of_true rfl trivial)
  | action pipe => exact walkedNode_action pipe
  | branch kind pipe list elseList =>
    exact walked_branch (walkList_walked list) (walkElse_walked elseList)
  | template Name pipe =>
    refine .kept ?_
    rw [Node.upTo, Node.CutRight, Node.template.injEq, and_iff_right rfl]

theorem walkList_walked (nodes : List Node) : WalkedList nodes := by
  cases nodes with
  | nil =>
    refine ⟨fun s hs => ?_, fun _ => rfl, iff_of_true rfl (.inl rfl), iff_of_true rfl trivial⟩
    cases hs
    rfl
  | cons n nodes => exact walked_cons_list (walkNode_walked n) (walkList_walked nodes)

theorem walkElse_walked (elseList : Option (List Node)) : WalkedElse elseList := by
  cases elseList with
  | none =>
    refine ⟨fun s hs => ?_, fun _ => rfl, iff_of_true rfl rfl, iff_of_true rfl trivial⟩
    cases hs
    rfl
  | some list =>
    have h := walkList_walked list
    rw [WalkedElse, walkElse, if_neg Bool.false_ne_true, elseUpTo, elseReached, elseCutRight]
    refine ⟨fun s hs => ?_, fun hr => ?_, ?_, ?_⟩
    · obtain ⟨s', hs', rfl⟩ := Option.map_eq_some_iff.mp hs
      exact h.cut s' hs'
    · rw [h.same hr]
      rfl
    · cases walkList false list <;> simp
    · rw [← h.right_iff]
      cases walkList false list <;> simp

end

/-- `deleteNode` returns the nodes up to the first `.Response` exactly where it cuts right, and it
leaves a tree without `.Response` as it is. -/
theorem deleteNode_cuts_iff (root : List Node) :
    (deleteNode root = some (listUpTo root) ↔ listCutRight root) ∧
    (listHasResponse root = false → deleteNode root = some root) := by
  refine ⟨(walkList_walked root).right_iff, fun h => ?_⟩
  have hr : listReached root = false := by
    rw [Bool.eq_false_iff]
    intro hr
    rw [listHasResponse_of_reached root hr] at h
    cases h
  rw [deleteNode, (walkList_walked root).same hr]
  rfl

/-- An action that prints a field. -/
def printed (ident : String) : Node := .action ⟨[], .one (.one (.field [ident.toList]))⟩

/-- A `.Response` with an else list behind it, and one that is piped into a function. -/
theorem deleteNode_panics :
    deleteNode [.branch .ifNode ⟨[], .one (.one (.field ["System".toList]))⟩ [printed "Response"]
      (some [printed "Prompt"])] = none ∧
    deleteNode [printed "Prompt", .action ⟨[], .cons (.one (.field ["Response".toList]))
      (.one (.one (.operand (.identifier "print".toList))))⟩] = some [printed "Prompt"] ∧
    listHasResponse [printed "Prompt"] = false :=
  ⟨rfl, rfl, rfl⟩

/-! ## Flat templates -/

/-- A node of a flat template as a node of a tree. -/
def flatNode : Template.Node → Node
  | .text t => .text t
  | .action ident => .action ⟨[], .one (.one (.field [ident]))⟩

theorem hasResponse_flat (ident : Text) :
    (flatNode (.action ident)).hasResponse = decide (ident = responseName) := by
  show [ident].contains responseName = _
  rw [Bool.eq_iff_iff, List.contains_iff_mem, List.mem_singleton, decide_eq_true_eq, eq_comm]

/-- Without branches and pipelines the walk cuts right, and it leaves what the flat template keeps. -/
theorem deleteNode_flat (t : Tmpl) :
    deleteNode (t.map flatNode) = some ((Template.deleteNode t).map flatNode) := by
  have hkept : listCutRight (t.map flatNode) ∧
      listUpTo (t.map flatNode) = (Template.deleteNode t).map flatNode := by
    induction t with
    | nil => exact ⟨trivial, rfl⟩
    | cons n t ih =>
      rw [List.map_cons, listCutRight, listUpTo]
      cases n with
      | text t' =>
        rw [show (flatNode (.text t')).hasResponse = false from rfl, if_neg Bool.false_ne_true,
          if_neg Bool.false_ne_true, ih.2]
        exact ⟨ih.1, rfl⟩
      | action ident =>
        have hname : "Response".toList = responseName := rfl
        rw [hasResponse_flat, Template.deleteNode, hname]
        by_cases hident : ident = responseName
        · rw [decide_eq_true hident, if_pos rfl, if_pos rfl, if_pos hident]
          refine ⟨⟨trivial, .inl ?_⟩, rfl⟩
          exact (hasResponse_flat ident).trans (decide_eq_true hident)
        · rw [decide_eq_false hident, if_neg Bool.false_ne_true, if_neg Bool.false_ne_true,
            if_neg hident, ih.2]
          exact ⟨ih.1, rfl⟩
  rw [← hkept.2]
  exact (walkList_walked _).right_iff.mpr hkept.1

end Prismalama.Template.Tree
