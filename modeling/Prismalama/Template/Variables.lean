import Mathlib.Data.Char
import Mathlib.Data.List.Dedup
import Mathlib.Data.List.Lex
import Mathlib.Data.List.Sort
import Prismalama.Template.Tree

/-!
# The variables of a template (`template/template.go`)

`Parse` looks for `.Messages` and `.Response` among the identifiers of a template, and adds
`{{ .Response }}` where it finds neither. A template invocation needs a pipeline.
-/

namespace Prismalama.Template.Tree

/-! ## Identifiers -/

mutual

/-- The other kinds of nodes fall in the default case, chains too. -/
def Arg.Identifiers : Arg → List Text
  | .operand _ => []
  | .field Ident => Ident
  | .var Ident => Ident
  | .chain _ _ => []
  | .pipe _ cmds => cmds.Identifiers

def Args.Identifiers : Args → List Text
  | .one arg => arg.Identifiers
  | .cons arg args => arg.Identifiers ++ args.Identifiers

def Cmds.Identifiers : Cmds → List Text
  | .one args => args.Identifiers
  | .cons args cmds => args.Identifiers ++ cmds.Identifiers

end

def undefinedTemplate : String := "undefined template specified"

mutual

/-- An error comes alone: the names that `Identifiers` returns with one are left out. -/
def Node.Identifiers : Node → Except String (List Text)
  | .text _ => .ok []
  | .breakNode => .ok []
  | .continueNode => .ok []
  | .action pipe => .ok pipe.Cmds.Identifiers
  | .branch _ pipe list elseList => do
    let i ← listIdentifiers list
    let j ← elseIdentifiers elseList
    return pipe.Cmds.Identifiers ++ i ++ j
  | .template _ none => .error undefinedTemplate
  | .template _ (some pipe) => .ok pipe.Cmds.Identifiers

def listIdentifiers : List Node → Except String (List Text)
  | [] => .ok []
  | n :: nodes => do
    let i ← n.Identifiers
    let names ← listIdentifiers nodes
    return i ++ names

def elseIdentifiers : Option (List Node) → Except String (List Text)
  | none => .ok []
  | some list => listIdentifiers list

end

/-! ## Vars and Parse -/

/-- A parsed template with the other templates that it defines. -/
structure Templates where
  Root : List Node
  defined : List (List Node)

/-- `Templates`, in any order -/
def Templates.all (t : Templates) : List (List Node) := t.Root :: t.defined

/-- `strings.ToLower` with `unicode.ToLower` -/
def lower (toLower : Char → Char) (s : Text) : Text := s.map toLower

/-- The identifiers of all templates. -/
def identifiers : List (List Node) → Except String (List Text)
  | [] => .ok []
  | tt :: tts => do
    let v ← listIdentifiers tt
    let vars ← identifiers tts
    return v ++ vars

def Vars (toLower : Char → Char) (t : Templates) : Except String (List Text) := do
  let vars ← identifiers t.all
  return ((vars.map (lower toLower)).dedup).insertionSort fun a b => a ≤ b

def messagesVar : Text := "messages".toList

def responseVar : Text := "response".toList

/-- `{{ .Response }}` -/
def response : Node := .action ⟨[], .one (.one (.field [responseName]))⟩

/-- The template with `{{ .Response }}` appended. -/
def Templates.touchedUp (t : Templates) : Templates := { t with Root := t.Root ++ [response] }

/-- `parsed` is what `text/template` makes of the text. -/
def Parse (toLower : Char → Char) (parsed : Except String Templates) : Except String Templates := do
  let t ← parsed
  let vars ← Vars toLower t
  if !vars.contains messagesVar && !vars.contains responseVar then return t.touchedUp
  else return t

/-! ## Nodes -/

mutual

/-- An argument with the arguments in it; `inner` is for those in chains and declarations. -/
def Arg.nodes (inner : Bool) : Arg → List Arg
  | .operand o => [.operand o]
  | .field Ident => [.field Ident]
  | .var Ident => [.var Ident]
  | .chain node Field => .chain node Field :: (if inner then node.nodes inner else [])
  | .pipe Decl cmds =>
    .pipe Decl cmds :: ((if inner then Decl.map .var else []) ++ cmds.nodes inner)

def Args.nodes (inner : Bool) : Args → List Arg
  | .one arg => arg.nodes inner
  | .cons arg args => arg.nodes inner ++ args.nodes inner

def Cmds.nodes (inner : Bool) : Cmds → List Arg
  | .one args => args.nodes inner
  | .cons args cmds => args.nodes inner ++ cmds.nodes inner

end

def Pipe.nodes (inner : Bool) (pipe : Pipe) : List Arg :=
  (if inner then pipe.Decl.map .var else []) ++ pipe.Cmds.nodes inner

mutual

def Node.nodes (inner : Bool) : Node → List Arg
  | .text _ => []
  | .breakNode => []
  | .continueNode => []
  | .action pipe => pipe.nodes inner
  | .branch _ pipe list elseList =>
    pipe.nodes inner ++ listNodes inner list ++ elseNodes inner elseList
  | .template _ none => []
  | .template _ (some pipe) => pipe.nodes inner

/-- All arguments in a tree. -/
def listNodes (inner : Bool) : List Node → List Arg
  | [] => []
  | n :: nodes => n.nodes inner ++ listNodes inner nodes

def elseNodes (inner : Bool) : Option (List Node) → List Arg
  | none => []
  | some list => listNodes inner list

end

def Arg.isChain : Arg → Bool
  | .chain _ _ => true
  | _ => false

/-- The identifiers of a field or a variable, and the fields of a chain. -/
def Arg.names : Arg → List Text
  | .field Ident => Ident
  | .var Ident => Ident
  | .chain _ Field => Field
  | _ => []

mutual

def Node.bare : Node → Bool
  | .branch _ _ list elseList => listBare list || elseBare elseList
  | .template _ pipe => pipe.isNone
  | _ => false

/-- A template is invoked without a pipeline. -/
def listBare : List Node → Bool
  | [] => false
  | n :: nodes => n.bare || listBare nodes

def elseBare : Option (List Node) → Bool
  | none => false
  | some list => listBare list

end

/-! ## What is found -/

/-- Of what the nodes mention, only chains are left out. -/
def Found (nodes : List Arg) (names : List Text) : Prop :=
  ∀ a ∈ nodes, a.isChain = false → a.names ⊆ names

theorem Found.append {nodes nodes' : List Arg} {names names' : List Text} (h : Found nodes names)
    (h' : Found nodes' names') : Found (nodes ++ nodes') (names ++ names') := by
  intro a ha hchain
  rcases List.mem_append.mp ha with ha | ha
  · exact List.Subset.trans (h a ha hchain) (List.subset_append_left _ _)
  · exact List.Subset.trans (h' a ha hchain) (List.subset_append_right _ _)

theorem found_single {a : Arg} {names : List Text} (h : a.isChain = false → a.names ⊆ names) :
    Found [a] names := by
  intro b hb
  rwa [List.mem_singleton.mp hb]

mutual

theorem Arg.found (a : Arg) : Found (a.nodes false) a.Identifiers := by
  cases a with
  | operand o => exact found_single fun _ => List.nil_subset _
  | field Ident => exact found_single fun _ => List.Subset.refl _
  | var Ident => exact found_single fun _ => List.Subset.refl _
  | chain node Field => exact found_single fun h => nomatch h
  | pipe Decl cmds =>
    have hpipe : Found [Arg.pipe Decl cmds] [] := found_single fun _ => List.nil_subset _
    exact hpipe.append cmds.found

theorem Args.found (args : Args) : Found (args.nodes false) args.Identifiers := by
  cases args with
  | one arg => exact arg.found
  | cons arg args => exact arg.found.append args.found

theorem Cmds.found (cmds : Cmds) : Found (cmds.nodes false) cmds.Identifiers := by
  cases cmds with
  | one args => exact args.found
  | cons args cmds => exact args.found.append cmds.found

end

theorem Pipe.found (pipe : Pipe) : Found (pipe.nodes false) pipe.Cmds.Identifiers := pipe.Cmds.found

/-- The error for a bare invocation, else names where everything is found. -/
structure Collected (r : Except String (List Text)) (bare : Bool) (nodes : List Arg) : Prop where
  error : bare = true → r = .error undefinedTemplate
  ok : bare = false → ∃ names, r = .ok names ∧ Found nodes names

theorem collected_ok {names : List Text} {nodes : List Arg} (h : Found nodes names) :
    Collected (.ok names) false nodes :=
  ⟨fun hbare => (nomatch hbare), fun _ => ⟨names, rfl, h⟩⟩

/-- One walk after another. -/
theorem Collected.seq {r r' : Except String (List Text)} {bare bare' : Bool}
    {nodes nodes' : List Arg} (h : Collected r bare nodes) (h' : Collected r' bare' nodes') :
    Collected (do let i ← r; let j ← r'; return i ++ j) (bare || bare') (nodes ++ nodes') := by
  cases bare with
  | true =>
    rw [h.error rfl]
    exact ⟨fun _ => rfl, fun h => nomatch h⟩
  | false =>
    obtain ⟨names, rfl, hfound⟩ := h.ok rfl
    cases bare' with
    | true =>
      rw [h'.error rfl]
      exact ⟨fun _ => rfl, fun h => nomatch h⟩
    | false =>
      obtain ⟨names', rfl, hfound'⟩ := h'.ok rfl
      exact collected_ok (hfound.append hfound')

mutual

theorem Node.collected (n : Node) : Collected n.Identifiers n.bare (n.nodes false) := by
  cases n with
  | text t => exact collected_ok fun _ h => absurd h List.not_mem_nil
  | breakNode => exact collected_ok fun _ h => absurd h List.not_mem_nil
  | continueNode => exact collected_ok fun _ h => absurd h List.not_mem_nil
  | action pipe => exact collected_ok pipe.found
  | branch kind pipe list elseList =>
    have hpipe := collected_ok pipe.found
    have hall := (hpipe.seq (listCollected list)).seq (elseCollected elseList)
    rw [Node.Identifiers]
    generalize listIdentifiers list = r at hall ⊢
    generalize elseIdentifiers elseList = r' at hall ⊢
    cases r <;> cases r' <;> exact hall
  | template Name pipe =>
    cases pipe with
    | none => exact ⟨fun _ => rfl, fun h => nomatch h⟩
    | some pipe => exact collected_ok pipe.found

theorem listCollected (nodes : List Node) :
    Collected (listIdentifiers nodes) (listBare nodes) (listNodes false nodes) := by
  cases nodes with
  | nil => exact collected_ok fun _ h => absurd h List.not_mem_nil
  | cons n nodes => exact n.collected.seq (listCollected nodes)

theorem elseCollected (elseList : Option (List Node)) :
    Collected (elseIdentifiers elseList) (elseBare elseList) (elseNodes false elseList) := by
  cases elseList with
  | none => exact collected_ok fun _ h => absurd h List.not_mem_nil
  | some list => exact listCollected list

end

theorem identifiers_collected (tts : List (List Node)) :
    Collected (identifiers tts) (tts.any listBare) (tts.flatMap (listNodes false)) := by
  induction tts with
  | nil => exact collected_ok fun _ h => absurd h List.not_mem_nil
  | cons tt tts ih => exact (listCollected tt).seq ih

theorem Vars_eq (toLower : Char → Char) (t : Templates) :
    Vars toLower t = (identifiers t.all).bind fun vars =>
      .ok (((vars.map (lower toLower)).dedup).insertionSort fun a b => a ≤ b) := rfl

theorem Parse_ok (toLower : Char → Char) (t : Templates) :
    Parse toLower (.ok t) = (Vars toLower t).bind fun vars =>
      if !vars.contains messagesVar && !vars.contains responseVar then .ok t.touchedUp
      else .ok t := rfl

theorem Vars_found (toLower : Char → Char) {t : Templates} (h : t.all.any listBare = false) :
    ∃ vars, Vars toLower t = .ok vars ∧ ∀ a ∈ t.all.flatMap (listNodes false),
      a.isChain = false → ∀ id ∈ a.names, lower toLower id ∈ vars := by
  obtain ⟨names, hnames, hfound⟩ := (identifiers_collected t.all).ok h
  refine ⟨_, by rw [Vars_eq, hnames, Except.bind], fun a ha hchain id hid => ?_⟩
  rw [List.mem_insertionSort, List.mem_dedup]
  exact List.mem_map_of_mem (hfound a ha hchain hid)

/-- `Identifiers` finds all fields and variables outside of chains, and `Vars` those of all
templates, unless a template is invoked without a pipeline. `Parse` then fails; it touches up
only templates without `.Messages` and `.Response` there. -/
theorem Parse_touches_up (toLower : Char → Char) :
    (∀ root : List Node,
      (listBare root = true → listIdentifiers root = .error undefinedTemplate) ∧
      (listBare root = false → ∃ names, listIdentifiers root = .ok names ∧
        ∀ a ∈ listNodes false root, a.isChain = false → a.names ⊆ names)) ∧
    (∀ t : Templates,
      (t.all.any listBare = true → Vars toLower t = .error undefinedTemplate ∧
        Parse toLower (.ok t) = .error undefinedTemplate) ∧
      (t.all.any listBare = false →
        (∃ vars, Vars toLower t = .ok vars ∧ ∀ root ∈ t.all, ∀ a ∈ listNodes false root,
          a.isChain = false → ∀ id ∈ a.names, lower toLower id ∈ vars) ∧
        (Parse toLower (.ok t) = .ok t ∨
          Parse toLower (.ok t) = .ok t.touchedUp ∧
          ∀ root ∈ t.all, ∀ a ∈ listNodes false root, a.isChain = false →
            ∀ id ∈ a.names, lower toLower id ≠ messagesVar ∧ lower toLower id ≠ responseVar))) := by
  refine ⟨fun root => ⟨(listCollected root).error, (listCollected root).ok⟩, fun t => ⟨?_, ?_⟩⟩
  · intro h
    have herror : Vars toLower t = .error undefinedTemplate := by
      rw [Vars_eq, (identifiers_collected t.all).error h]
      rfl
    refine ⟨herror, ?_⟩
    rw [Parse_ok, herror]
    rfl
  · intro h
    obtain ⟨vars, hvars, hfound⟩ := Vars_found toLower h
    have hall : ∀ root ∈ t.all, ∀ a ∈ listNodes false root, a.isChain = false →
        ∀ id ∈ a.names, lower toLower id ∈ vars :=
      fun root hroot a ha => hfound a (List.mem_flatMap.mpr ⟨root, hroot, ha⟩)
    refine ⟨⟨vars, hvars, hall⟩, ?_⟩
    rw [Parse_ok, hvars, Except.bind]
    split
    · next hnone =>
      rw [Bool.and_eq_true, Bool.not_eq_true', Bool.not_eq_true', ← Bool.not_eq_true,
        ← Bool.not_eq_true, List.contains_iff_mem, List.contains_iff_mem] at hnone
      refine .inr ⟨rfl, fun root hroot a ha hchain id hid => ?_⟩
      have hmem := hall root hroot a ha hchain id hid
      exact ⟨fun heq => hnone.1 (heq ▸ hmem), fun heq => hnone.2 (heq ▸ hmem)⟩
    · exact .inl rfl

/-- `{{ (index .Messages 0).Content }}` mentions `.Messages` in a chain. -/
def firstContent : Node :=
  .action ⟨[], .one (.one (.chain (.pipe [] (.one (.cons (.operand (.identifier "index".toList))
    (.cons (.field ["Messages".toList]) (.one (.operand (.number "0".toList)))))))
    ["Content".toList]))⟩

theorem Parse_not_complete :
    listIdentifiers [response, .template "x".toList none] = .error undefinedTemplate ∧
    listIdentifiers [firstContent] = .ok [] ∧
    Arg.field ["Messages".toList] ∈ listNodes true [firstContent] ∧
    Parse Char.toLower (.ok ⟨[firstContent], []⟩) = .ok ⟨[firstContent, response], []⟩ := by
  refine ⟨rfl, rfl, ?_, ?_⟩
  · exact .tail _ (.tail _ (.tail _ (.head _)))
  · rfl

end Prismalama.Template.Tree
