import Mathlib.Data.List.DropRight
import Prismalama.Lib.Chase
import Prismalama.Lib.GoMap
import Prismalama.Lib.TSys
import Prismalama.Types.RoundTrip

/-!
# Model aliases (`server/aliases.go`, `server/routes_aliases.go`)

An alias leads to a target, which may be an alias again. The keys of the store are printed names in
lower case and its targets are printed names, which `ParseName` reads again (`keyString_display`),
so that the targets are the edges of a graph of keys. A request that would close a cycle is
refused; a file that is loaded may hold one.
-/

namespace Prismalama.Server.Aliases

open Prismalama.Lib Prismalama.Lib.Chase Prismalama.Types

structure AliasEntry where
  alias_ : GoString
  target : GoString
  prefixMatching : Bool
  deriving DecidableEq

structure ServerConfig where
  version : Int
  aliases : List AliasEntry
  deriving DecidableEq

def serverConfigVersion : Int := 1

/-- What rests on the tables of Unicode and on the order that `sort.Slice` gives to entries of one
length. -/
structure Text where
  toLower : GoString → GoString
  equalFold : GoString → GoString → Bool
  trimSpace : GoString → GoString
  sortPrefixEntries : List AliasEntry → List AliasEntry
  equalFold_self : ∀ s, equalFold s s = true
  sort_perm : ∀ es, (sortPrefixEntries es).Perm es
  sort_pairwise : ∀ es, (sortPrefixEntries es).Pairwise fun e f =>
    f.alias_.length ≤ e.alias_.length

structure Store where
  /-- by normalized alias -/
  entries : GoMap GoString AliasEntry
  prefixEntries : List AliasEntry

variable (T : Text)

/-! ## Names and keys -/

/-- `DisplayShortest` -/
def displayShortest (n : Name) : GoString :=
  (if T.equalFold n.host defaultHost = false then n.host ++ [0x2F] ++ (n.namespace_ ++ [0x2F])
    else if T.equalFold n.namespace_ defaultNamespace = false then n.namespace_ ++ [0x2F]
    else []) ++ n.model ++ [0x3A] ++ n.tag

def displayAliasName (n : Name) : GoString :=
  let display := displayShortest T n
  if T.equalFold n.tag defaultTag = true then
    match cutLast display 0x3A with
    | (before, _, true) => before
    | _ => display
  else display

def normalizeAliasKey (n : Name) : GoString := T.toLower (displayAliasName T n)

def normalizeAliasKeyString (value : GoString) : GoString :=
  let n := Name.parseName value
  if n.isFullyQualified = false then T.toLower (T.trimSpace value) else normalizeAliasKey T n

/-! ## The store -/

namespace Store

/-- One entry of a file. -/
def loadEntry (s : Store) (entry : AliasEntry) : Store :=
  let targetName := Name.parseName entry.target
  if targetName.isFullyQualified = false then s
  else if entry.prefixMatching = true then
    let alias_ := T.trimSpace entry.alias_
    if alias_ = [] then s
    else
      { s with
        prefixEntries := s.prefixEntries ++ [⟨alias_, displayAliasName T targetName, true⟩] }
  else
    let aliasName := Name.parseName entry.alias_
    if aliasName.isFullyQualified = false then s
    else
      { s with
        entries := AList.insert (normalizeAliasKey T aliasName)
          ⟨displayAliasName T aliasName, displayAliasName T targetName, false⟩ s.entries }

/-- `load`; `none` for a version that is not supported. -/
def load : Option ServerConfig → Option Store
  | none => some ⟨∅, []⟩
  | some cfg =>
    if cfg.version ≠ 0 ∧ cfg.version ≠ serverConfigVersion then none
    else
      let s := cfg.aliases.foldl (loadEntry T) ⟨∅, []⟩
      some { s with prefixEntries := T.sortPrefixEntries s.prefixEntries }

/-- A file that `saveLocked` may write. The map is visited in any order, and entries with the same
alias are left in any order. -/
structure Saved (s : Store) (cfg : ServerConfig) : Prop where
  version : cfg.version = serverConfigVersion
  perm : cfg.aliases.Perm (s.entries.entries.map Sigma.snd ++ s.prefixEntries)
  sorted : cfg.aliases.Pairwise fun e f => ¬List.Lex (· < ·) f.alias_ e.alias_

/-- The key to which a key leads. -/
def next (s : Store) (key : GoString) : Option GoString :=
  (AList.lookup key s.entries).map fun e => normalizeAliasKeyString T e.target

/-- More rounds than there are entries. -/
def rounds (s : Store) : Nat := s.entries.keys.length + 1

/-- The prefix entry that is found for a name. -/
def prefixMatch (s : Store) (name : Name) : Option AliasEntry :=
  s.prefixEntries.find? fun e =>
    (T.toLower e.alias_).isPrefixOf (T.toLower (displayAliasName T name))

end Store

inductive ResolveError
  | manifests
  | invalidTarget (current : GoString)
  | aliasCycle
  deriving DecidableEq

/-- `localModelExists`, with the names that have a manifest; `none` for an error. -/
def localModelExists (manifests : Option (List GoString)) (name : Name) : Option Bool :=
  manifests.map fun names => names.any fun existing => T.equalFold existing name.toString

/-- The loop of `ResolveName`; the outer `none` when the fuel is used up. -/
def follow (s : Store) : Nat → List GoString → GoString → Option (Except ResolveError Name)
  | 0, _, _ => none
  | fuel + 1, visited, current =>
    let targetName := Name.parseName current
    if targetName.isFullyQualified = false then some (.error (.invalidTarget current))
    else
      let targetKey := normalizeAliasKeyString T current
      if targetKey ∈ visited then some (.error .aliasCycle)
      else
        match AList.lookup targetKey s.entries with
        | none => some (.ok targetName)
        | some e => follow s fuel (targetKey :: visited) e.target

/-- `ResolveName`, with no request between its reads. -/
def resolveName (s : Store) (manifests : Option (List GoString)) (name : Name) :
    Option (Except ResolveError (Name × Bool)) :=
  match localModelExists T manifests name with
  | none => some (.error .manifests)
  | some true => some (.ok (name, false))
  | some false =>
    let key := normalizeAliasKey T name
    match AList.lookup key s.entries with
    | some e => (follow T s (s.rounds + 1) [key] e.target).map fun r => r.map (·, true)
    | none =>
      match s.prefixMatch T name with
      | none => some (.ok (name, false))
      | some e => (follow T s (s.rounds + 1) [] e.target).map fun r => r.map (·, true)

inductive CreateError
  | required
  | invalidTarget
  | invalidAlias
  | self
  | manifests
  | conflict
  | aliasCycle
  deriving DecidableEq

namespace Store

/-- `Set`, up to `saveLocked`. -/
def set (s : Store) (alias_ target : Name) (prefixMatching : Bool) :
    Option (Except CreateError Store) :=
  let targetKey := normalizeAliasKey T target
  if prefixMatching = true then
    let aliasStr := displayAliasName T alias_
    let kept := s.prefixEntries.eraseP fun e => T.equalFold e.alias_ aliasStr
    let added := kept ++ [⟨aliasStr, displayAliasName T target, true⟩]
    some (.ok { s with prefixEntries := T.sortPrefixEntries added })
  else
    let aliasKey := normalizeAliasKey T alias_
    if aliasKey = targetKey then some (.error .self)
    else
      (chase (s.next T) s.rounds [aliasKey] targetKey).map fun stop =>
        match stop with
        | .seen => .error .aliasCycle
        | .ends _ =>
          .ok { s with
            entries := AList.insert aliasKey
              ⟨displayAliasName T alias_, displayAliasName T target, false⟩ s.entries }

/-- `Delete`, up to `saveLocked`; `none` when there is no such alias. -/
def delete (s : Store) (alias_ : Name) : Option Store :=
  let aliasKey := normalizeAliasKey T alias_
  if aliasKey ∈ s.entries then some { s with entries := AList.erase aliasKey s.entries }
  else if s.prefixEntries.any (fun e => T.equalFold e.alias_ (displayAliasName T alias_)) = true then
    some { s with
      prefixEntries := s.prefixEntries.eraseP fun e =>
        T.equalFold e.alias_ (displayAliasName T alias_) }
  else none

/-- `DeleteByString`, up to `saveLocked`; `none` when there is no such alias. -/
def deleteByString (s : Store) (alias_ : GoString) : Option Store :=
  let alias_ := T.trimSpace alias_
  let aliasLower := T.toLower alias_
  if s.prefixEntries.any (fun e => T.equalFold e.alias_ alias_) = true then
    some { s with prefixEntries := s.prefixEntries.eraseP fun e => T.equalFold e.alias_ alias_ }
  else if aliasLower ∈ s.entries then some { s with entries := AList.erase aliasLower s.entries }
  else none

end Store

/-! ## The requests -/

/-- `CreateAliasHandler` -/
def createAlias (manifests : Option (List GoString)) (req : AliasEntry) (s : Store) :
    Option (Except CreateError Store) :=
  let alias_ := T.trimSpace req.alias_
  let target := T.trimSpace req.target
  if alias_ = [] ∨ target = [] then some (.error .required)
  else
    let targetName := Name.parseName target
    let aliasName := Name.parseName alias_
    if targetName.isFullyQualified = false then some (.error .invalidTarget)
    else if req.prefixMatching = true then s.set T aliasName targetName true
    else if aliasName.isFullyQualified = false then some (.error .invalidAlias)
    else if normalizeAliasKey T aliasName = normalizeAliasKey T targetName then some (.error .self)
    else
      match localModelExists T manifests aliasName with
      | none => some (.error .manifests)
      | some true => some (.error .conflict)
      | some false => s.set T aliasName targetName false

/-- `DeleteAliasHandler`; `none` when nothing is deleted. -/
def deleteAlias (alias_ : GoString) (s : Store) : Option Store :=
  let alias_ := T.trimSpace alias_
  if alias_ = [] then none
  else
    let aliasName := Name.parseName alias_
    if aliasName.isFullyQualified = true then s.delete T aliasName else s.deleteByString T alias_

/-- A server's store and the file it is saved in. -/
structure State where
  store : Store
  file : Option ServerConfig

/-- `saved` is what `saveLocked` wrote; on an error the file is as before, and the store is not.
`List` and `ResolveName` only read. -/
inductive Action
  | create (manifests : Option (List GoString)) (req : AliasEntry) (saved : Option ServerConfig)
  | delete (alias_ : GoString) (saved : Option ServerConfig)
  | restart

/-- What `saveLocked` leaves of a file. -/
def Saves (s : Store) (saved file file' : Option ServerConfig) : Prop :=
  match saved with
  | none => file' = file
  | some cfg => s.Saved cfg ∧ file' = some cfg

/-- A server that begins with a file. Requests that are refused change nothing. -/
def sys (file : Option ServerConfig) : TSys State Action where
  init s := s.file = file ∧ Store.load T file = some s.store
  step s a s' :=
    match a with
    | .create manifests req saved =>
      createAlias T manifests req s.store = some (.ok s'.store) ∧
        Saves s'.store saved s.file s'.file
    | .delete alias_ saved =>
      deleteAlias T alias_ s.store = some s'.store ∧ Saves s'.store saved s.file s'.file
    | .restart => s'.file = s.file ∧ Store.load T s.file = some s'.store

/-! ## Names that are printed and read again -/

/-- The parts of a name that are printed. -/
def shortest (n : Name) : Ollama.Spelling where
  h := if T.equalFold n.host defaultHost = false then some n.host else none
  n := if T.equalFold n.host defaultHost = false ∨
      T.equalFold n.namespace_ defaultNamespace = false then some n.namespace_ else none
  m := n.model
  t := if T.equalFold n.tag defaultTag = true then none else some n.tag
  more := []

/-- The name with the defaults for the parts that are not printed. -/
def canonical (n : Name) : Name :=
  ⟨(shortest T n).h.getD defaultHost, (shortest T n).n.getD defaultNamespace, n.model,
    (shortest T n).t.getD defaultTag, defaultProtocolScheme⟩

variable {T} {n : Name}

theorem displayShortest_eq (n : Name) : displayShortest T n =
    (shortest T n).front ++ n.model ++ 0x3A :: n.tag := by
  unfold displayShortest Ollama.Spelling.front shortest
  cases hhost : T.equalFold n.host defaultHost <;>
    cases hspace : T.equalFold n.namespace_ defaultNamespace <;>
      simp [Ollama.Spelling.slashed]

theorem displayAliasName_eq (h : n.Valid) : displayAliasName T n = (shortest T n).text := by
  have hcolon : 0x3A ∉ n.tag := not_mem_of_valid (by decide) (by decide) h.tag
  unfold displayAliasName
  rw [Ollama.Spelling.text_of_more rfl, displayShortest_eq]
  by_cases hlatest : T.equalFold n.tag defaultTag = true
  · have ht : (shortest T n).t = none := if_pos hlatest
    rw [if_pos hlatest, cutLast, cutLast_append hcolon, ht, Ollama.Spelling.coloned,
      List.append_nil]
    rfl
  · have ht : (shortest T n).t = some n.tag := if_neg hlatest
    rw [if_neg hlatest, ht, Ollama.Spelling.coloned]
    rfl

theorem host_of_mem {p : GoString} (hp : p ∈ (shortest T n).h) : p = n.host := by
  unfold shortest at hp
  dsimp only at hp
  split at hp
  · exact (Option.some.inj hp).symm
  · cases hp

theorem namespace_of_mem {p : GoString} (hp : p ∈ (shortest T n).n) : p = n.namespace_ := by
  unfold shortest at hp
  dsimp only at hp
  split at hp
  · exact (Option.some.inj hp).symm
  · cases hp

theorem tag_of_mem {p : GoString} (hp : p ∈ (shortest T n).t) : p = n.tag := by
  unfold shortest at hp
  dsimp only at hp
  split at hp
  · cases hp
  · exact (Option.some.inj hp).symm

theorem cut_shortest (h : n.Valid) : (shortest T n).Cut where
  host hsome := by
    unfold shortest at hsome ⊢
    dsimp only at hsome ⊢
    split at hsome
    · rw [if_pos (.inl ‹_›)]
      rfl
    · cases hsome
  namespace_ p hp := namespace_of_mem hp ▸ slash_of_valid h.namespace_
  model c hc := ⟨fun heq => slash_of_valid h.model (heq ▸ hc),
    fun heq => not_mem_of_valid (by decide) (by decide) h.model (heq ▸ hc)⟩
  tag p hp c hc := ⟨fun heq => slash_of_valid h.tag (heq ▸ tag_of_mem hp ▸ hc),
    fun heq => not_mem_of_valid (by decide) (by decide) h.tag (heq ▸ tag_of_mem hp ▸ hc)⟩
  more_tag hne := absurd rfl hne
  more_colon hne := absurd rfl hne
  more_slash := List.not_mem_nil

/-- A part that is not printed is put back as its default. -/
theorem cmpOr_promised {kind : Images.PartKind} {o : Option GoString} {p default : GoString}
    (hp : Images.isValidPart kind p = true) (ho : ∀ q ∈ o, q = p) :
    Ollama.Name.cmpOr (promised o) default = o.getD default := by
  cases o with
  | none => rfl
  | some q =>
    obtain rfl := ho q rfl
    rw [promised_of_valid hp]
    exact cmpOr_of_ne (ne_nil_of_valid hp)

theorem parseName_display (h : n.Valid) :
    Name.parseName (displayAliasName T n) = canonical T n := by
  have hscheme : ∀ p ∈ (shortest T n).h, contains p (lit "://") = false := fun p hp =>
    not_contains_of_not_mem (show 0x2F ∈ lit "://" by decide)
      (host_of_mem hp ▸ slash_of_valid h.host)
  have hmodel : Name.promisedModel (shortest T n) = n.model := by
    unfold Name.promisedModel
    split
    · exact cmpOr_of_ne (ne_nil_of_valid h.model)
    · rfl
  rw [displayAliasName_eq h, Name.parseName, Name.parseNameBare_text (cut_shortest h) rfl hscheme,
    hmodel]
  show (⟨Ollama.Name.cmpOr (promised (shortest T n).h) defaultHost,
    Ollama.Name.cmpOr (promised (shortest T n).n) defaultNamespace, n.model,
    Ollama.Name.cmpOr (promised (shortest T n).t) defaultTag, defaultProtocolScheme⟩ : Name) = _
  rw [cmpOr_promised h.host fun _ => host_of_mem,
    cmpOr_promised h.namespace_ fun _ => namespace_of_mem,
    cmpOr_promised h.tag fun _ => tag_of_mem]
  rfl

theorem valid_getD {kind : Images.PartKind} {o : Option GoString} {p default : GoString}
    (hp : Images.isValidPart kind p = true) (hdefault : Images.isValidPart kind default = true)
    (ho : ∀ q ∈ o, q = p) : Images.isValidPart kind (o.getD default) = true := by
  cases o with
  | none => exact hdefault
  | some q => rw [ho q rfl]; exact hp

theorem canonical_valid (h : n.Valid) : (canonical T n).Valid where
  host := valid_getD h.host (by decide) fun _ => host_of_mem
  namespace_ := valid_getD h.namespace_ (by decide) fun _ => namespace_of_mem
  model := h.model
  tag := valid_getD h.tag (by decide) fun _ => tag_of_mem

/-- The same parts are printed of it. -/
theorem shortest_canonical (n : Name) : shortest T (canonical T n) = shortest T n := by
  unfold canonical shortest
  cases hhost : T.equalFold n.host defaultHost <;>
    cases hspace : T.equalFold n.namespace_ defaultNamespace <;>
      cases htag : T.equalFold n.tag defaultTag <;>
        simp [hhost, hspace, htag, T.equalFold_self]

theorem display_canonical (h : n.Valid) :
    displayAliasName T (canonical T n) = displayAliasName T n := by
  rw [displayAliasName_eq (canonical_valid h), displayAliasName_eq h, shortest_canonical]

/-- A target is found under the key of the name it was printed from. -/
theorem keyString_display (h : n.Valid) :
    normalizeAliasKeyString T (displayAliasName T n) = normalizeAliasKey T n := by
  have hvalid : (canonical T n).isFullyQualified = true :=
    (Name.isFullyQualified_iff _).mpr (canonical_valid h)
  rw [normalizeAliasKeyString, parseName_display h, if_neg (by rw [hvalid]; decide),
    normalizeAliasKey, display_canonical h, normalizeAliasKey]

/-! ## What the store holds -/

/-- An exact alias and its target, printed from names that are valid. -/
def Exact (T : Text) (key : GoString) (e : AliasEntry) : Prop :=
  ∃ alias_ target : Name, alias_.Valid ∧ target.Valid ∧ key = normalizeAliasKey T alias_ ∧
    e = ⟨displayAliasName T alias_, displayAliasName T target, false⟩

def Prefix (T : Text) (e : AliasEntry) : Prop :=
  e.prefixMatching = true ∧ ∃ target : Name, target.Valid ∧ e.target = displayAliasName T target

structure Wf (T : Text) (s : Store) : Prop where
  exact : ∀ key e, AList.lookup key s.entries = some e → Exact T key e
  prefixes : ∀ e ∈ s.prefixEntries, Prefix T e

theorem wf_empty : Wf T ⟨∅, []⟩ :=
  ⟨fun key e h => by simp at h, fun e h => absurd h List.not_mem_nil⟩

theorem Wf.insert {s : Store} (h : Wf T s) {key : GoString} {e : AliasEntry} (he : Exact T key e) :
    Wf T { s with entries := AList.insert key e s.entries } := by
  refine ⟨fun key' e' hlookup => ?_, h.prefixes⟩
  rw [GoMap.lookup_insert_ite] at hlookup
  split at hlookup
  · obtain rfl := Option.some.inj hlookup
    rw [‹key' = key›]
    exact he
  · exact h.exact key' e' hlookup

theorem Wf.erase {s : Store} (h : Wf T s) (key : GoString) :
    Wf T { s with entries := AList.erase key s.entries } := by
  refine ⟨fun key' e' hlookup => ?_, h.prefixes⟩
  rw [GoMap.lookup_erase_ite] at hlookup
  split at hlookup
  · cases hlookup
  · exact h.exact key' e' hlookup

theorem Wf.of_prefixes {s : Store} (h : Wf T s) {es : List AliasEntry}
    (hes : ∀ e ∈ es, Prefix T e) : Wf T { s with prefixEntries := es } := ⟨h.exact, hes⟩

theorem Wf.sort {s : Store} (h : Wf T s) {es : List AliasEntry} (hes : ∀ e ∈ es, Prefix T e) :
    Wf T { s with prefixEntries := T.sortPrefixEntries es } :=
  h.of_prefixes fun e he => hes e ((T.sort_perm es).mem_iff.mp he)

theorem valid_of_false {value : GoString}
    (h : ¬(Name.parseName value).isFullyQualified = false) : (Name.parseName value).Valid :=
  (Name.isFullyQualified_iff _).mp (Bool.of_not_eq_false h)

theorem Wf.loadEntry {s : Store} (h : Wf T s) (entry : AliasEntry) :
    Wf T (s.loadEntry T entry) := by
  unfold Store.loadEntry
  dsimp only
  split
  · exact h
  rename_i htarget
  split
  · split
    · exact h
    · refine h.of_prefixes fun e he => ?_
      rcases List.mem_append.mp he with he | he
      · exact h.prefixes e he
      · rw [List.mem_singleton.mp he]
        exact ⟨rfl, _, valid_of_false htarget, rfl⟩
  · split
    · exact h
    · exact h.insert ⟨_, _, valid_of_false ‹_›, valid_of_false htarget, rfl, rfl⟩

theorem Wf.load {file : Option ServerConfig} {s : Store} (h : Store.load T file = some s) :
    Wf T s := by
  have hfold : ∀ (es : List AliasEntry) (s : Store), Wf T s →
      Wf T (es.foldl (Store.loadEntry T) s) := by
    intro es
    induction es with
    | nil => exact fun s hs => hs
    | cons e es ih => exact fun s hs => ih _ (hs.loadEntry e)
  cases file with
  | none =>
    obtain rfl := Option.some.inj h
    exact wf_empty
  | some cfg =>
    rw [Store.load] at h
    split at h
    · cases h
    · obtain rfl := Option.some.inj h
      exact (hfold cfg.aliases _ wf_empty).sort (hfold cfg.aliases _ wf_empty).prefixes

/-! ## The graph of the aliases -/

/-- The edges lead out of the keys of the map. -/
theorem mem_keys_of_next {s : Store} {key : GoString} (h : s.next T key ≠ none) :
    key ∈ s.entries.keys := by
  rw [GoMap.mem_keys_iff]
  unfold Store.next at h
  cases hlookup : AList.lookup key s.entries with
  | none => rw [hlookup] at h; exact absurd rfl h
  | some e => exact ⟨e, rfl⟩

theorem next_insert (s : Store) (key : GoString) (e : AliasEntry) :
    Store.next T { s with entries := AList.insert key e s.entries } =
      Function.update (s.next T) key (some (normalizeAliasKeyString T e.target)) := by
  funext key'
  rw [Store.next, GoMap.lookup_insert_ite]
  split
  · rw [‹key' = key›, Function.update_self]
    rfl
  · rw [Function.update_of_ne ‹_›]
    rfl

theorem next_erase (s : Store) (key : GoString) :
    Store.next T { s with entries := AList.erase key s.entries } =
      Function.update (s.next T) key none := by
  funext key'
  rw [Store.next, GoMap.lookup_erase_ite]
  split
  · rw [‹key' = key›, Function.update_self]
    rfl
  · rw [Function.update_of_ne ‹_›]
    rfl

/-- The cycles of one store are cycles of the other. -/
def CyclesIn (T : Text) (s s₀ : Store) : Prop :=
  ∀ key, OnCycle (s.next T) key → OnCycle (s₀.next T) key

theorem CyclesIn.refl (s : Store) : CyclesIn T s s := fun _ h => h

theorem CyclesIn.trans {s₁ s₂ s₃ : Store} (h : CyclesIn T s₁ s₂) (h' : CyclesIn T s₂ s₃) :
    CyclesIn T s₁ s₃ := fun key hkey => h' key (h key hkey)

theorem CyclesIn.of_next {s s' : Store} (h : s'.next T = s.next T) : CyclesIn T s' s := by
  intro key hkey
  rw [h] at hkey
  exact hkey

/-! ## The requests -/

/-- `Set` adds an edge whose target does not lead to its source. -/
theorem set_step {s s' : Store} (hs : Wf T s) {alias_ target : Name} {prefixMatching : Bool}
    (halias : prefixMatching = false → alias_.Valid) (htarget : target.Valid)
    (h : s.set T alias_ target prefixMatching = some (.ok s')) : Wf T s' ∧ CyclesIn T s' s := by
  unfold Store.set at h
  dsimp only at h
  split at h
  · have hstore := Except.ok.inj (Option.some.inj h)
    rw [← hstore]
    refine ⟨hs.sort fun e he => ?_, CyclesIn.of_next rfl⟩
    rcases List.mem_append.mp he with he | he
    · exact hs.prefixes e (List.mem_of_mem_eraseP he)
    · rw [List.mem_singleton.mp he]
      exact ⟨rfl, target, htarget, rfl⟩
  · rename_i hpre
    have hvalid := halias (Bool.eq_false_iff.mpr hpre)
    split at h
    · cases h
    obtain ⟨stop, hstop, h⟩ := Option.map_eq_some_iff.mp h
    cases stop with
    | seen => cases h
    | ends k =>
      have hstore := Except.ok.inj h
      have hnot := (chase_ends hstop).2.2 _ List.mem_cons_self
      rw [← hstore]
      refine ⟨hs.insert ⟨alias_, target, hvalid, htarget, rfl, rfl⟩, fun key hkey => ?_⟩
      rw [next_insert, keyString_display htarget] at hkey
      exact onCycle_of_update_some hnot hkey

theorem create_step {s s' : Store} (hs : Wf T s) {manifests : Option (List GoString)}
    {req : AliasEntry} (h : createAlias T manifests req s = some (.ok s')) :
    Wf T s' ∧ CyclesIn T s' s := by
  unfold createAlias at h
  dsimp only at h
  split at h
  · cases h
  split at h
  · cases h
  rename_i htarget
  split at h
  · exact set_step hs (fun hfalse => by cases hfalse) (valid_of_false htarget) h
  split at h
  · cases h
  rename_i halias
  split at h
  · cases h
  split at h
  · cases h
  · cases h
  · exact set_step hs (fun _ => valid_of_false halias) (valid_of_false htarget) h

theorem erase_step {s : Store} (hs : Wf T s) (key : GoString) :
    Wf T { s with entries := AList.erase key s.entries } ∧
      CyclesIn T { s with entries := AList.erase key s.entries } s := by
  refine ⟨hs.erase key, fun key' hkey => ?_⟩
  rw [next_erase] at hkey
  exact onCycle_of_update_none hkey

theorem erasePrefix_step {s : Store} (hs : Wf T s) (p : AliasEntry → Bool) :
    Wf T { s with prefixEntries := s.prefixEntries.eraseP p } ∧
      CyclesIn T { s with prefixEntries := s.prefixEntries.eraseP p } s :=
  ⟨hs.of_prefixes fun e he => hs.prefixes e (List.mem_of_mem_eraseP he), CyclesIn.of_next rfl⟩

theorem delete_step {s s' : Store} (hs : Wf T s) {alias_ : GoString}
    (h : deleteAlias T alias_ s = some s') : Wf T s' ∧ CyclesIn T s' s := by
  unfold deleteAlias at h
  dsimp only at h
  split at h
  · cases h
  split at h
  · unfold Store.delete at h
    dsimp only at h
    split at h
    · rw [← Option.some.inj h]
      exact erase_step hs _
    split at h
    · rw [← Option.some.inj h]
      exact erasePrefix_step hs _
    · cases h
  · unfold Store.deleteByString at h
    dsimp only at h
    split at h
    · rw [← Option.some.inj h]
      exact erasePrefix_step hs _
    split at h
    · rw [← Option.some.inj h]
      exact erase_step hs _
    · cases h

/-! ## A file that was saved -/

/-- An entry has one key. -/
theorem Exact.key_unique {key key' : GoString} {e : AliasEntry} (h : Exact T key e)
    (h' : Exact T key' e) : key = key' := by
  obtain ⟨alias_, target, -, -, rfl, rfl⟩ := h
  obtain ⟨alias', target', -, -, rfl, he⟩ := h'
  have halias : displayAliasName T alias_ = displayAliasName T alias' :=
    congrArg AliasEntry.alias_ he
  rw [normalizeAliasKey, normalizeAliasKey, halias]

/-- An entry of a file that is found in the store. -/
def Known (T : Text) (s : Store) (e : AliasEntry) : Prop :=
  Prefix T e ∨ ∃ key, Exact T key e ∧ AList.lookup key s.entries = some e

theorem parseName_target {value : GoString} {target : Name} (htarget : target.Valid)
    (h : value = displayAliasName T target) :
    (Name.parseName value).isFullyQualified = true ∧
      displayAliasName T (Name.parseName value) = value := by
  rw [h, parseName_display htarget]
  exact ⟨(Name.isFullyQualified_iff _).mpr (canonical_valid htarget), display_canonical htarget⟩

/-- An exact alias is read as it was. -/
theorem loadEntry_exact {st : Store} {key : GoString} {e : AliasEntry} (h : Exact T key e) :
    st.loadEntry T e = { st with entries := AList.insert key e st.entries } := by
  obtain ⟨alias_, target, halias, htarget, rfl, rfl⟩ := h
  obtain ⟨hfull, hdisplay⟩ := parseName_target (T := T) htarget rfl
  obtain ⟨hfull', hdisplay'⟩ := parseName_target (T := T) halias rfl
  unfold Store.loadEntry
  dsimp only
  rw [if_neg (by rw [hfull]; decide), if_neg (by decide), if_neg (by rw [hfull']; decide),
    normalizeAliasKey, hdisplay, hdisplay', normalizeAliasKey]

theorem loadEntry_prefixes {st : Store} {e : AliasEntry} (h : Prefix T e) :
    (st.loadEntry T e).entries = st.entries := by
  unfold Store.loadEntry
  dsimp only
  split
  · rfl
  rw [if_pos h.1]
  split <;> rfl

/-- What is read is in the store, and what is in the file is read. -/
theorem loaded {s : Store} (es : List AliasEntry) (hes : ∀ e ∈ es, Known T s e) (st : Store)
    (hst : ∀ key e, AList.lookup key st.entries = some e → AList.lookup key s.entries = some e) :
    (∀ key e, AList.lookup key (es.foldl (Store.loadEntry T) st).entries = some e →
        AList.lookup key s.entries = some e) ∧
      ∀ key e, (AList.lookup key st.entries = some e ∨
          e ∈ es ∧ e.prefixMatching = false ∧ AList.lookup key s.entries = some e ∧ Exact T key e) →
        AList.lookup key (es.foldl (Store.loadEntry T) st).entries = some e := by
  induction es generalizing st with
  | nil =>
    refine ⟨hst, fun key e h => ?_⟩
    rcases h with h | ⟨h, -⟩
    · exact h
    · cases h
  | cons e es ih =>
    have hknown := hes e List.mem_cons_self
    have hrest : ∀ f ∈ es, Known T s f := fun f hf => hes f (List.mem_cons_of_mem _ hf)
    rw [List.foldl_cons]
    rcases hknown with hpre | ⟨key, hexact, hlookup⟩
    · have hentries := @loadEntry_prefixes _ st _ hpre
      obtain ⟨hin, hout⟩ := ih hrest (st.loadEntry T e) (by rw [hentries]; exact hst)
      refine ⟨hin, fun key f hf => hout key f ?_⟩
      rcases hf with hf | ⟨hmem, hfalse, hf⟩
      · exact .inl (hentries ▸ hf)
      · rcases List.mem_cons.mp hmem with rfl | hmem
        · rw [hpre.1] at hfalse
          cases hfalse
        · exact .inr ⟨hmem, hfalse, hf⟩
    · have hload := @loadEntry_exact _ st _ _ hexact
      obtain ⟨hin, hout⟩ := ih hrest (st.loadEntry T e) (by
        intro key' f hf
        rw [hload, GoMap.lookup_insert_ite] at hf
        split at hf
        · rw [← Option.some.inj hf, ‹key' = key›]
          exact hlookup
        · exact hst key' f hf)
      refine ⟨hin, fun key' f hf => hout key' f ?_⟩
      rw [hload]
      have hkeep : AList.lookup key' s.entries = some f →
          AList.lookup key' st.entries = some f ∨ e = f ∧ Exact T key' f →
          AList.lookup key' (AList.insert key e st.entries) = some f := by
        intro hs hor
        rw [GoMap.lookup_insert_ite]
        split
        · rw [← hs, ‹key' = key›, hlookup]
        · rcases hor with hst' | ⟨rfl, hexact'⟩
          · exact hst'
          · exact absurd (hexact'.key_unique hexact) ‹_›
      rcases hf with hf | ⟨hmem, hfalse, hs, hexact'⟩
      · exact .inl (hkeep (hst key' f hf) (.inl hf))
      · rcases List.mem_cons.mp hmem with rfl | hmem
        · exact .inl (hkeep hs (.inr ⟨rfl, hexact'⟩))
        · exact .inr ⟨hmem, hfalse, hs, hexact'⟩

theorem mem_values {s : Store} {key : GoString} {e : AliasEntry} :
    AList.lookup key s.entries = some e ↔ (⟨key, e⟩ : Sigma fun _ => AliasEntry) ∈
      s.entries.entries := AList.mem_lookup_iff

/-- A file that was saved is read as the exact aliases that it was written from. -/
theorem load_saved {s : Store} (hs : Wf T s) {cfg : ServerConfig} (h : s.Saved cfg) :
    ∃ st, Store.load T (some cfg) = some st ∧
      ∀ key, AList.lookup key st.entries = AList.lookup key s.entries := by
  have hversion : ¬(cfg.version ≠ 0 ∧ cfg.version ≠ serverConfigVersion) := fun hne =>
    hne.2 h.version
  have hknown : ∀ e ∈ cfg.aliases, Known T s e := by
    intro e he
    rcases List.mem_append.mp (h.perm.mem_iff.mp he) with he | he
    · obtain ⟨p, hp, rfl⟩ := List.mem_map.mp he
      have hlookup := mem_values.mpr hp
      exact .inr ⟨p.1, hs.exact _ _ hlookup, hlookup⟩
    · exact .inl (hs.prefixes e he)
  obtain ⟨hin, hout⟩ := loaded cfg.aliases hknown ⟨∅, []⟩ fun key e he => by
    simp at he
  refine ⟨_, if_neg hversion, fun key => Option.ext fun e => ⟨hin key e, fun he => ?_⟩⟩
  have hexact := hs.exact key e he
  refine hout key e (.inr ⟨h.perm.mem_iff.mpr (List.mem_append_left _ ?_), ?_, he, hexact⟩)
  · exact List.mem_map.mpr ⟨⟨key, e⟩, mem_values.mp he, rfl⟩
  · obtain ⟨alias_, target, -, -, -, rfl⟩ := hexact
    rfl

/-! ## Runs -/

/-- The store and the file, when it is read, are well formed, and their cycles were loaded. -/
structure Inv (T : Text) (s₀ : Store) (s : State) : Prop where
  wf : Wf T s.store
  cycles : CyclesIn T s.store s₀
  file : ∀ st, Store.load T s.file = some st → CyclesIn T st s₀

theorem Inv.saves {s₀ : Store} {s s' : State} {saved : Option ServerConfig} (h : Inv T s₀ s)
    (hwf : Wf T s'.store) (hcycles : CyclesIn T s'.store s.store)
    (hsaves : Saves s'.store saved s.file s'.file) : Inv T s₀ s' := by
  refine ⟨hwf, hcycles.trans h.cycles, fun st hst => ?_⟩
  cases saved with
  | none =>
    have hfile : s'.file = s.file := hsaves
    exact h.file st (hfile ▸ hst)
  | some cfg =>
    obtain ⟨hsaved, hfile⟩ := hsaves
    obtain ⟨st', hst', hlookup⟩ := load_saved hwf hsaved
    rw [hfile, hst'] at hst
    obtain rfl := Option.some.inj hst
    have hnext : st'.next T = s'.store.next T := by
      funext key
      rw [Store.next, hlookup, Store.next]
    exact (CyclesIn.of_next hnext).trans (hcycles.trans h.cycles)

theorem inv_invariant {file : Option ServerConfig} {s₀ : Store}
    (hload : Store.load T file = some s₀) : (sys T file).Invariant (Inv T s₀) := by
  refine TSys.Inductive.invariant ⟨fun s hinit => ?_, fun s a s' h hstep => ?_⟩
  · obtain ⟨hfile, hstore⟩ := hinit
    obtain rfl := Option.some.inj (hload.symm.trans hstore)
    refine ⟨Wf.load hload, CyclesIn.refl _, fun st hst => ?_⟩
    rw [hfile, hload] at hst
    rw [Option.some.inj hst]
    exact CyclesIn.refl _
  · cases a with
    | create manifests req saved =>
      obtain ⟨hcreate, hsaves⟩ := hstep
      obtain ⟨hwf, hcycles⟩ := create_step h.wf hcreate
      exact h.saves hwf hcycles hsaves
    | delete alias_ saved =>
      obtain ⟨hdelete, hsaves⟩ := hstep
      obtain ⟨hwf, hcycles⟩ := delete_step h.wf hdelete
      exact h.saves hwf hcycles hsaves
    | restart =>
      obtain ⟨hfile, hstore⟩ := hstep
      exact ⟨Wf.load hstore, h.file _ hstore, fun st hst => h.file st (hfile ▸ hst)⟩

/-- A run loads its file. -/
theorem load_of_reachable {file : Option ServerConfig} {s : State}
    (h : (sys T file).Reachable s) : ∃ s₀, Store.load T file = some s₀ := by
  induction h with
  | init hinit => exact ⟨_, hinit.2⟩
  | step _ _ ih => exact ih

theorem not_onCycle_empty (key : GoString) : ¬OnCycle (Store.next T ⟨∅, []⟩) key := by
  intro h
  obtain ⟨key', hkey', -⟩ := Relation.TransGen.head'_iff.mp h
  rw [Follows, Store.next, GoMap.lookup_empty] at hkey'
  cases hkey'

/-- In every run, with restarts and files that are not saved, the aliases on a cycle are on a cycle
of the file that the server began with. -/
theorem onCycle_loaded (T : Text) (file : Option ServerConfig) :
    (sys T file).Invariant fun s => ∀ s₀, Store.load T file = some s₀ →
      ∀ key, OnCycle (s.store.next T) key → OnCycle (s₀.next T) key :=
  fun s hreach _ hload => (inv_invariant hload s hreach).cycles

/-! ## Names that are resolved -/

/-- The loop is the walk over the keys. -/
theorem follow_spec {s : Store} (hs : Wf T s) (fuel : Nat) (visited : List GoString)
    {target : Name} (htarget : target.Valid) :
    match chase (s.next T) fuel visited (normalizeAliasKey T target) with
    | none => follow T s fuel visited (displayAliasName T target) = none
    | some .seen =>
      follow T s fuel visited (displayAliasName T target) = some (.error .aliasCycle)
    | some (.ends key) => ∃ m : Name, m.Valid ∧ normalizeAliasKey T m = key ∧
      follow T s fuel visited (displayAliasName T target) = some (.ok m) := by
  induction fuel generalizing visited target with
  | zero => rfl
  | succ fuel ih =>
    obtain ⟨hfull, hdisplay⟩ := parseName_target (T := T) htarget rfl
    have hvalid : ¬(Name.parseName (displayAliasName T target)).isFullyQualified = false := by
      rw [hfull]
      decide
    rw [chase, follow]
    dsimp only
    rw [if_neg hvalid, keyString_display htarget]
    by_cases hseen : normalizeAliasKey T target ∈ visited
    · rw [if_pos hseen, if_pos hseen]
    · rw [if_neg hseen, if_neg hseen, Store.next]
      cases hlookup : AList.lookup (normalizeAliasKey T target) s.entries with
      | none =>
        refine ⟨_, (Name.isFullyQualified_iff _).mp hfull, ?_, rfl⟩
        rw [normalizeAliasKey, hdisplay, normalizeAliasKey]
      | some e =>
        obtain ⟨alias_, next, -, hnext, -, rfl⟩ := hs.exact _ _ hlookup
        rw [Option.map_some, keyString_display hnext]
        exact ih _ hnext

/-- The target at which the walk begins: that of the alias itself, else of the first prefix. -/
def firstTarget (T : Text) (s : Store) (name : Name) : Option GoString :=
  match AList.lookup (normalizeAliasKey T name) s.entries with
  | some e => some e.target
  | none => (s.prefixMatch T name).map AliasEntry.target

/-- The chain of a target runs into a cycle. -/
def RunsIntoCycle (T : Text) (s : Store) (target : GoString) : Prop :=
  ∃ key, Leads (s.next T) (normalizeAliasKeyString T target) key ∧ OnCycle (s.next T) key

/-- A name is the end of the chain of a target. -/
structure EndsAt (T : Text) (s : Store) (target : GoString) (m : Name) : Prop where
  valid : m.Valid
  leads : Leads (s.next T) (normalizeAliasKeyString T target) (normalizeAliasKey T m)
  noAlias : normalizeAliasKey T m ∉ s.entries

/-- What `ResolveName` answers: the name itself if it is the name of a local model or has no
alias, else the end of its chain, if that has one. -/
def Resolves (T : Text) (s : Store) (manifests : Option (List GoString)) (name : Name)
    (r : Option (Except ResolveError (Name × Bool))) : Prop :=
  match localModelExists T manifests name with
  | none => r = some (.error .manifests)
  | some true => r = some (.ok (name, false))
  | some false =>
    match firstTarget T s name with
    | none => r = some (.ok (name, false))
    | some target =>
      RunsIntoCycle T s target ∧ r = some (.error .aliasCycle) ∨
        ¬RunsIntoCycle T s target ∧ ∃ m, EndsAt T s target m ∧ r = some (.ok (m, true))

/-- A chain with an end does not run into a cycle. -/
theorem EndsAt.not_runsIntoCycle {s : Store} {target : GoString} {m : Name}
    (h : EndsAt T s target m) : ¬RunsIntoCycle T s target := by
  rintro ⟨key, hleads, hcycle⟩
  refine not_onCycle_of_end h.leads ?_ hleads hcycle
  rw [Store.next, AList.lookup_eq_none.mpr h.noAlias]
  rfl

theorem walk_resolves {s : Store} (hs : Wf T s) {visited : List GoString} {target : Name}
    (htarget : target.Valid)
    (hvisited : ∀ key ∈ visited, Leads (s.next T) (normalizeAliasKey T target) key →
      OnCycle (s.next T) key) :
    let r := (follow T s (s.rounds + 1) visited (displayAliasName T target)).map
      fun r => r.map (·, true)
    RunsIntoCycle T s (displayAliasName T target) ∧ r = some (.error .aliasCycle) ∨
      ¬RunsIntoCycle T s (displayAliasName T target) ∧
        ∃ m, EndsAt T s (displayAliasName T target) m ∧ r = some (.ok (m, true)) := by
  intro r
  have hrounds : s.entries.keys.length < s.rounds + 1 := by
    unfold Store.rounds
    omega
  have hkeys : ∀ k, s.next T k ≠ none → k ∈ s.entries.keys := fun _ => mem_keys_of_next
  have hsome := chase_isSome_of_length hkeys hrounds visited (normalizeAliasKey T target)
  obtain ⟨stop, hstop⟩ := Option.isSome_iff_exists.mp hsome
  have hspec := follow_spec hs (s.rounds + 1) visited htarget
  rw [hstop] at hspec
  cases stop with
  | seen =>
    refine .inl ⟨?_, by show Option.map _ _ = _; rw [hspec]; rfl⟩
    rw [RunsIntoCycle, keyString_display htarget]
    rcases chase_seen hstop with ⟨key, hkey, hleads⟩ | hcycle
    · exact ⟨key, hleads, hvisited key hkey hleads⟩
    · exact hcycle
  | ends key =>
    obtain ⟨m, hm, rfl, hfollow⟩ := hspec
    obtain ⟨hleads, hend, -⟩ := chase_ends hstop
    have hends : EndsAt T s (displayAliasName T target) m := by
      refine ⟨hm, by rwa [keyString_display htarget], fun hmem => ?_⟩
      obtain ⟨e, he⟩ := (GoMap.mem_keys_iff _ _).mp (AList.mem_keys.mp hmem)
      rw [Store.next, he] at hend
      cases hend
    exact .inr ⟨hends.not_runsIntoCycle, m, hends, by show Option.map _ _ = _; rw [hfollow]; rfl⟩

theorem resolves {s : Store} (hs : Wf T s) (manifests : Option (List GoString)) (name : Name) :
    Resolves T s manifests name (resolveName T s manifests name) := by
  unfold Resolves resolveName
  cases hlocal : localModelExists T manifests name with
  | none => rfl
  | some exists_ =>
    cases exists_ with
    | true => rfl
    | false =>
      unfold firstTarget
      dsimp only
      cases hlookup : AList.lookup (normalizeAliasKey T name) s.entries with
      | some e =>
        obtain ⟨alias_, target, -, htarget, -, rfl⟩ := hs.exact _ _ hlookup
        dsimp only
        refine walk_resolves hs htarget fun key hkey hleads => ?_
        obtain rfl := List.mem_singleton.mp hkey
        have hedge : s.next T (normalizeAliasKey T name) = some (normalizeAliasKey T target) := by
          rw [Store.next, hlookup, Option.map_some, keyString_display htarget]
        exact Relation.TransGen.head' hedge hleads
      | none =>
        dsimp only
        cases hmatch : s.prefixMatch T name with
        | none => rfl
        | some e =>
          obtain ⟨-, target, htarget, heq⟩ := hs.prefixes e (List.mem_of_find?_eq_some hmatch)
          rw [Option.map_some]
          dsimp only
          rw [heq]
          exact walk_resolves hs htarget fun key hkey => absurd hkey List.not_mem_nil

/-- In every run `ResolveName` comes back for every name: with the name of a local model itself,
else with the end of its chain, and with a cycle exactly when the chain runs into one. -/
theorem resolveName_exact (T : Text) (file : Option ServerConfig) :
    (sys T file).Invariant fun s => ∀ manifests name,
      Resolves T s.store manifests name (resolveName T s.store manifests name) := by
  intro s hreach manifests name
  obtain ⟨s₀, hload⟩ := load_of_reachable hreach
  exact resolves (inv_invariant hload s hreach).wf manifests name

/-- A server that began without a file resolves every name. -/
theorem resolveName_ok (T : Text) : (sys T none).Invariant fun s => ∀ names name,
    ∃ m resolved, resolveName T s.store (some names) name = some (.ok (m, resolved)) ∧
      (resolved = true → m.Valid ∧ normalizeAliasKey T m ∉ s.store.entries) := by
  intro s hreach names name
  have hinv := @inv_invariant T none _ rfl s hreach
  have hresolves := resolves hinv.wf (some names) name
  unfold Resolves at hresolves
  split at hresolves
  · rename_i hlocal
    cases hlocal
  · exact ⟨name, false, hresolves, fun h => by cases h⟩
  split at hresolves
  · exact ⟨name, false, hresolves, fun h => by cases h⟩
  · rcases hresolves with ⟨⟨key, -, hcycle⟩, -⟩ | ⟨-, m, hm, hr⟩
    · exact absurd (hinv.cycles key hcycle) (not_onCycle_empty key)
    · exact ⟨m, true, hr, fun _ => ⟨hm.valid, hm.noAlias⟩⟩

/-! ## Text without Unicode -/

def blank (c : UInt8) : Bool := c = 0x20 || (0x09 ≤ c && c ≤ 0x0D)

/-- The functions for ASCII, with a stable sort. -/
def asciiText : Text where
  toLower s := s.map Ollama.DiskCache.foldByte
  equalFold := Ollama.DiskCache.equalFold
  trimSpace s := (s.dropWhile blank).rdropWhile blank
  sortPrefixEntries es := es.mergeSort fun e f => decide (f.alias_.length ≤ e.alias_.length)
  equalFold_self := Ollama.DiskCache.equalFold_self
  sort_perm es := List.mergeSort_perm es _
  sort_pairwise es := by
    have h := @List.pairwise_mergeSort _ (fun e f : AliasEntry =>
      decide (f.alias_.length ≤ e.alias_.length)) (fun e f g hef hfg => by
        simp only [decide_eq_true_eq] at hef hfg ⊢
        omega) (fun e f => by
        simp only [Bool.or_eq_true, decide_eq_true_eq]
        omega) es
    exact h.imp fun hef => of_decide_eq_true hef

/-- A cycle that is loaded, and an alias that would close another one. -/
example : (do
    let s ← Store.load asciiText (some ⟨1, [⟨lit "a", lit "b", false⟩, ⟨lit "B", lit "a:latest", false⟩,
      ⟨lit "c", lit "d", false⟩]⟩)
    let resolved ← resolveName asciiText s (some []) (Name.parseName (lit "A"))
    let created ← createAlias asciiText (some []) ⟨lit "d", lit "C", false⟩ s
    pure (resolved.toOption.isNone, created.toOption.isNone)) = some (true, true) := by
  decide

end Prismalama.Server.Aliases
