import Prismalama.Lib.GoMap
import Prismalama.Lib.TSys

/-!
# The tensor cache of the GGUF loader (`fs/gguf/stream/stream.go`)

`Loader.GetTensor` looks a tensor up, finds its file and adds what it has read to the cache, in
three critical sections; calls of it run concurrently with each other, with `Open` and with `Close`.
A step of `loaderSys` is one critical section. Reads return the bytes of the file (`disk`). Sizes
are exact integers.

`order` and `evictions` are not the loader's: they record where the cached entries are from, oldest
first, and what was evicted while which entry was the oldest.
-/

namespace Prismalama.Gguf

open Prismalama.Lib

abbrev Text := List Char

abbrev Bytes := List UInt8

/-- A tensor of a file -/
structure Tensor where
  path : Text
  name : Text
deriving DecidableEq

/-- `path + "::" + name` -/
def Tensor.key (t : Tensor) : Text := t.path ++ "::".toList ++ t.name

structure Loader where
  maxCache : Int
  tensorCache : GoMap Text Bytes
  cacheSize : Int
  files : List Text

def NewLoader (maxCache : Int) : Loader := ⟨maxCache, ∅, 0, []⟩

namespace Loader

/-- The loop of `addToCache` that makes room. `picks` are the first entries that its map iterations
come upon. -/
def evict (l : Loader) (dataSize : Int) : List Text → Option Loader
  | [] => if l.maxCache < l.cacheSize + dataSize ∧ l.tensorCache.keys ≠ [] then none else some l
  | oldestKey :: picks =>
    if l.maxCache < l.cacheSize + dataSize ∧ l.tensorCache.keys ≠ [] then
      match l.tensorCache.lookup oldestKey with
      | none => none
      | some oldest =>
        evict { l with
          tensorCache := l.tensorCache.erase oldestKey
          cacheSize := l.cacheSize - oldest.length } dataSize picks
    else none

def addToCache (l : Loader) (key : Text) (data : Bytes) (picks : List Text) : Option Loader :=
  if l.maxCache = 0 then if picks = [] then some l else none
  else
    match l.evict data.length picks with
    | none => none
    | some l =>
      if l.maxCache < data.length then some l
      else some { l with
        tensorCache := l.tensorCache.insert key data
        cacheSize := l.cacheSize + data.length }

def Close (l : Loader) : Loader := { l with tensorCache := ∅, cacheSize := 0, files := [] }

end Loader

/-- A call of `GetTensor` between its critical sections, or what it returned -/
inductive Call where
  | missed (t : Tensor)
  | opened (t : Tensor)
  | returned (t : Tensor) (data : Bytes)
  | failed (t : Tensor)
deriving DecidableEq

structure State where
  loader : Loader
  calls : List Call
  order : List Tensor
  evictions : List (Text × Option Text)

/-- One critical section. `getTensor` is the lookup of a new call, `file` and `add` go on with call
`i`, which reads its tensor in between; `fail` is a read that fails. -/
inductive Label where
  | openFile (path : Text) (ok : Bool)
  | getTensor (t : Tensor)
  | file (i : Nat)
  | fail (i : Nat)
  | add (i : Nat) (picks : List Text)
  | close
deriving DecidableEq

/-- What the record says of the evictions of `picks` -/
def recordEvictions (order : List Tensor) : List Text → List (Text × Option Text)
  | [] => []
  | k :: picks =>
    (k, order.head?.map Tensor.key) :: recordEvictions (order.filter fun o => o.key ≠ k) picks

/-- The cached entries after an insertion, oldest first; `stored` says whether it took place. -/
def recordOrder (order : List Tensor) (picks : List Text) (t : Tensor) (stored : Bool) :
    List Tensor :=
  let order := order.filter fun o => picks.all fun k => o.key ≠ k
  if stored then (order.filter fun o => o.key ≠ t.key) ++ [t] else order

def next (disk : Tensor → Option Bytes) (s : State) : Label → Option State
  | .openFile path ok =>
    some (if ok ∧ s.loader.files.contains path = false then
      { s with loader := { s.loader with files := path :: s.loader.files } } else s)
  | .getTensor t =>
    match s.loader.tensorCache.lookup t.key with
    | some cached => some { s with calls := s.calls ++ [.returned t cached] }
    | none => some { s with calls := s.calls ++ [.missed t] }
  | .file i =>
    match s.calls[i]? with
    | some (.missed t) =>
      let call := if s.loader.files.contains t.path then Call.opened t else .failed t
      some { s with calls := s.calls.set i call }
    | _ => none
  | .fail i =>
    match s.calls[i]? with
    | some (.opened t) => some { s with calls := s.calls.set i (.failed t) }
    | _ => none
  | .add i picks =>
    match s.calls[i]? with
    | some (.opened t) =>
      match disk t with
      | none => none
      | some data =>
        match s.loader.addToCache t.key data picks with
        | none => none
        | some loader => some
            { loader := loader
              calls := s.calls.set i (.returned t data)
              order := recordOrder s.order picks t
                (s.loader.maxCache ≠ 0 ∧ (data.length : Int) ≤ s.loader.maxCache)
              evictions := s.evictions ++ recordEvictions s.order picks }
    | _ => none
  | .close => some { s with loader := s.loader.Close, order := [] }

/-- A loader with any calls -/
def loaderSys (disk : Tensor → Option Bytes) (maxCache : Int) : TSys State Label where
  init s := s = ⟨NewLoader maxCache, [], [], []⟩
  step s a s' := next disk s a = some s'

/-! ## What the cache should be -/

/-- The bytes in the cache -/
def cached (m : GoMap Text Bytes) : Nat := (m.entries.map fun e => e.2.length).sum

structure Accounted (disk : Tensor → Option Bytes) (s : State) : Prop where
  size_eq : s.loader.cacheSize = cached s.loader.tensorCache
  size_le : s.loader.cacheSize ≤ s.loader.maxCache
  returned : ∀ t data, Call.returned t data ∈ s.calls → disk t = some data
  oldest : ∀ e ∈ s.evictions, e.2 = some e.1

/-- What is added is not cached where it finds room, and finds at most one entry where it does not:
then that one goes, whatever its key is. -/
def Loader.HasRoom (l : Loader) (key : Text) (data : Bytes) : Prop :=
  if l.cacheSize + data.length ≤ l.maxCache then l.tensorCache.lookup key = none
  else l.tensorCache.keys.length ≤ 1

/-- The tensor that call `i` adds -/
def State.opened (s : State) (i : Nat) : Option Tensor :=
  match s.calls[i]? with
  | some (.opened t) => some t
  | _ => none

/-- The condition on a step: an entry under the key of a tensor is that tensor's, and what is added
has room. -/
def Meets (disk : Tensor → Option Bytes) (s : State) : Label → Prop
  | .getTensor t => ∀ o ∈ s.order, o.key = t.key → o = t
  | .add i _ => ∀ t ∈ s.opened i, ∀ data ∈ disk t, s.loader.HasRoom t.key data
  | .openFile .. | .file _ | .fail _ | .close => True

instance (l : Loader) (key : Text) (data : Bytes) : Decidable (l.HasRoom key data) :=
  inferInstanceAs (Decidable (if l.cacheSize + data.length ≤ l.maxCache then
    l.tensorCache.lookup key = none else l.tensorCache.keys.length ≤ 1))

instance (disk : Tensor → Option Bytes) (s : State) : DecidablePred (Meets disk s)
  | .getTensor t => inferInstanceAs (Decidable (∀ o ∈ s.order, o.key = t.key → o = t))
  | .add i _ => inferInstanceAs
      (Decidable (∀ t ∈ s.opened i, ∀ data ∈ disk t, s.loader.HasRoom t.key data))
  | .openFile .. | .file _ | .fail _ | .close => .isTrue trivial

/-! ## Maps -/

theorem cached_insert {m : GoMap Text Bytes} {key : Text} (h : m.lookup key = none) (data : Bytes) :
    cached (m.insert key data) = data.length + cached m := by
  have hmem : key ∉ m := AList.lookup_eq_none.mp h
  rw [cached, AList.entries_insert_of_notMem hmem, List.map_cons, List.sum_cons, ← cached]

/-- The only entry -/
theorem cached_single {m : GoMap Text Bytes} {key : Text} {data : Bytes}
    (h : m.lookup key = some data) (hlen : m.keys.length ≤ 1) :
    cached m = data.length ∧ m.keys = [key] := by
  have hmem : (⟨key, data⟩ : (_ : Text) × Bytes) ∈ m.entries := AList.mem_lookup_iff.mp h
  have hentries : m.entries = [⟨key, data⟩] := by
    rw [AList.keys, List.keys, List.length_map] at hlen
    match hm : m.entries with
    | [] => rw [hm] at hmem; cases hmem
    | [e] => rw [hm] at hmem; rw [List.mem_singleton.mp hmem]
    | _ :: _ :: _ => rw [hm] at hlen; simp at hlen
  refine ⟨?_, ?_⟩
  · rw [cached, hentries]
    exact Nat.add_zero _
  · rw [AList.keys, hentries]
    rfl

/-! ## Making room -/

/-- Where there is room, or one entry at most, the loop takes nothing or that entry. -/
theorem evict_cases {l l' : Loader} {dataSize : Int} {picks : List Text}
    (hsize : l.cacheSize = cached l.tensorCache)
    (hroom : l.cacheSize + dataSize ≤ l.maxCache ∨ l.tensorCache.keys.length ≤ 1)
    (h : l.evict dataSize picks = some l') :
    (picks = [] ∧ l' = l ∧ (l.cacheSize + dataSize ≤ l.maxCache ∨ l.tensorCache.keys = [])) ∨
    ∃ key, l.tensorCache.keys = [key] ∧ picks = [key] ∧
      l' = { l with tensorCache := ∅, cacheSize := 0 } := by
  cases picks with
  | nil =>
    rw [Loader.evict] at h
    split at h
    · cases h
    · next hfits =>
      refine Or.inl ⟨rfl, (Option.some.inj h).symm, ?_⟩
      by_contra hno
      obtain ⟨hover, hne⟩ := not_or.mp hno
      exact hfits ⟨by omega, hne⟩
  | cons key picks =>
    rw [Loader.evict] at h
    split at h
    · next hover =>
      cases hlookup : l.tensorCache.lookup key with
      | none =>
        rw [hlookup] at h
        cases h
      | some oldest =>
        rw [hlookup] at h
        dsimp only at h
        obtain ⟨hbytes, hkeys⟩ := cached_single hlookup (hroom.resolve_left (by omega))
        have hempty : l.tensorCache.erase key = ∅ := by
          refine GoMap.eq_empty fun k => ?_
          rw [GoMap.lookup_erase_ite]
          split
          · rfl
          · next hne =>
            refine AList.lookup_eq_none.mpr fun hmem => hne ?_
            rw [AList.mem_keys, hkeys] at hmem
            exact List.mem_singleton.mp hmem
        have hzero : l.cacheSize - oldest.length = 0 := by rw [hsize, hbytes, Int.sub_self]
        rw [hempty, hzero] at h
        refine Or.inr ⟨key, hkeys, ?_⟩
        -- nothing is left to evict
        cases picks with
        | nil =>
          rw [Loader.evict, if_neg fun hmore => hmore.2 rfl] at h
          exact ⟨rfl, (Option.some.inj h).symm⟩
        | cons key' picks =>
          rw [Loader.evict, if_neg fun hmore => hmore.2 rfl] at h
          cases h
    · cases h

/-! ## The invariant -/

/-- The cache holds the entries on record, each from its file, and accounts for them. -/
structure Consistent (disk : Tensor → Option Bytes) (l : Loader) (order : List Tensor) : Prop where
  maxCache_nonneg : 0 ≤ l.maxCache
  size_eq : l.cacheSize = cached l.tensorCache
  size_le : l.cacheSize ≤ l.maxCache
  order_keys : (order.map Tensor.key).Perm l.tensorCache.keys
  origin : ∀ o ∈ order, ∀ v, l.tensorCache.lookup o.key = some v → disk o = some v

section Cache

variable {disk : Tensor → Option Bytes} {l : Loader} {order : List Tensor} {t : Tensor}
  {data : Bytes}

/-- A cached tensor is what its file has. -/
theorem Consistent.lookup (h : Consistent disk l order)
    (hown : ∀ o ∈ order, o.key = t.key → o = t)
    (hlookup : l.tensorCache.lookup t.key = some data) : disk t = some data := by
  have hmem : t.key ∈ order.map Tensor.key :=
    h.order_keys.mem_iff.mpr ((GoMap.mem_keys_iff _ _).mpr ⟨data, hlookup⟩)
  obtain ⟨o, ho, hkey⟩ := List.mem_map.mp hmem
  obtain rfl := hown o ho hkey
  exact h.origin o ho data hlookup

theorem Consistent.empty (hmax : 0 ≤ l.maxCache) :
    Consistent disk { l with tensorCache := ∅, cacheSize := 0 } [] where
  maxCache_nonneg := hmax
  size_eq := rfl
  size_le := hmax
  order_keys := List.Perm.refl []
  origin := fun _ ho => absurd ho List.not_mem_nil

theorem Consistent.notMem (h : Consistent disk l order)
    (hnew : l.tensorCache.lookup t.key = none) : ∀ o ∈ order, o.key ≠ t.key := by
  intro o ho hkey
  have hmem := (GoMap.mem_keys_iff _ _).mp (h.order_keys.mem_iff.mp (List.mem_map_of_mem ho))
  rw [hkey, hnew] at hmem
  obtain ⟨v, hv⟩ := hmem
  cases hv

/-- A tensor that is not cached is added where it fits. -/
theorem Consistent.store (h : Consistent disk l order)
    (hnew : l.tensorCache.lookup t.key = none) (hdisk : disk t = some data)
    (hfits : l.cacheSize + data.length ≤ l.maxCache) :
    Consistent disk { l with
      tensorCache := l.tensorCache.insert t.key data
      cacheSize := l.cacheSize + data.length } ((order.filter fun o => o.key ≠ t.key) ++ [t]) := by
  have hkeys := h.notMem hnew
  have hfilter : (order.filter fun o => o.key ≠ t.key) = order :=
    List.filter_eq_self.mpr fun o ho => decide_eq_true (hkeys o ho)
  rw [hfilter]
  refine ⟨h.maxCache_nonneg, ?_, hfits, ?_, fun o ho v hv => ?_⟩
  · have hbytes := cached_insert hnew data
    have hsize := h.size_eq
    dsimp only
    rw [hbytes, hsize]
    omega
  · rw [AList.keys, AList.entries_insert_of_notMem (AList.lookup_eq_none.mp hnew), List.keys_cons,
      ← AList.keys, List.map_append, List.map_singleton]
    exact (List.perm_append_singleton _ _).trans (h.order_keys.cons _)
  · dsimp only at hv
    rw [GoMap.lookup_insert_ite] at hv
    rcases List.mem_append.mp ho with ho | ho
    · rw [if_neg (hkeys o ho)] at hv
      exact h.origin o ho v hv
    · rw [List.mem_singleton.mp ho] at hv ⊢
      rw [if_pos rfl] at hv
      rw [← Option.some.inj hv]
      exact hdisk

theorem Loader.HasRoom.fits_or_single (h : l.HasRoom t.key data) :
    l.cacheSize + data.length ≤ l.maxCache ∨ l.tensorCache.keys.length ≤ 1 := by
  rw [Loader.HasRoom] at h
  split at h
  · next hfits => exact Or.inl hfits
  · exact Or.inr h

/-- Where nothing is evicted, the key is not cached. -/
theorem Loader.HasRoom.lookup_eq_none (h : l.HasRoom t.key data)
    (hspace : l.cacheSize + data.length ≤ l.maxCache ∨ l.tensorCache.keys = []) :
    l.tensorCache.lookup t.key = none := by
  rw [Loader.HasRoom] at h
  split at h
  · exact h
  · next hno =>
    refine AList.lookup_eq_none.mpr fun hmem => ?_
    rw [AList.mem_keys, hspace.resolve_left hno] at hmem
    cases hmem

/-- `addToCache` keeps the cache consistent and evicts the oldest entry only. -/
theorem Consistent.addToCache (h : Consistent disk l order)
    (hdisk : disk t = some data) (hroom : l.HasRoom t.key data)
    {picks : List Text} {l' : Loader} (hadd : l.addToCache t.key data picks = some l') :
    Consistent disk l' (recordOrder order picks t
        (l.maxCache ≠ 0 ∧ (data.length : Int) ≤ l.maxCache)) ∧
      ∀ e ∈ recordEvictions order picks, e.2 = some e.1 := by
  have hkeep : (order.filter fun o => ([] : List Text).all fun k => o.key ≠ k) = order :=
    List.filter_eq_self.mpr fun _ _ => rfl
  rw [Loader.addToCache] at hadd
  by_cases hzero : l.maxCache = 0
  · -- caching is off
    rw [if_pos hzero] at hadd
    split at hadd
    · next hpicks =>
      obtain rfl := Option.some.inj hadd
      rw [hpicks, recordOrder, hkeep, decide_eq_false fun h => h.1 hzero]
      exact ⟨h, fun e he => absurd he List.not_mem_nil⟩
    · cases hadd
  · rw [if_neg hzero] at hadd
    cases hevict : l.evict data.length picks with
    | none =>
      rw [hevict] at hadd
      cases hadd
    | some l₁ =>
      rw [hevict] at hadd
      dsimp only at hadd
      rcases evict_cases h.size_eq hroom.fits_or_single hevict with
        ⟨rfl, rfl, hspace⟩ | ⟨key, hkeys, rfl, rfl⟩
      · rw [recordOrder, hkeep]
        refine ⟨?_, fun e he => absurd he List.not_mem_nil⟩
        by_cases hlarge : l₁.maxCache < data.length
        · rw [if_pos hlarge] at hadd
          obtain rfl := Option.some.inj hadd
          rw [decide_eq_false fun h => absurd h.2 (by omega)]
          exact h
        · rw [if_neg hlarge] at hadd
          obtain rfl := Option.some.inj hadd
          rw [decide_eq_true ⟨hzero, by omega⟩]
          refine h.store (hroom.lookup_eq_none hspace) hdisk (hspace.elim id fun hempty => ?_)
          have hsize := h.size_eq
          have hentries : l₁.tensorCache.entries = [] := List.map_eq_nil_iff.mp hempty
          rw [cached, hentries] at hsize
          have hnone : l₁.cacheSize = 0 := hsize
          omega
      · -- the only entry is evicted
        have hperm := h.order_keys
        rw [hkeys, List.perm_singleton] at hperm
        obtain ⟨o, rfl, rfl⟩ := List.map_eq_singleton_iff.mp hperm
        have hempty := @Consistent.empty disk l h.maxCache_nonneg
        have hgone : ([o].filter fun o' => [o.key].all fun k => o'.key ≠ k) = [] := by
          rw [List.filter_eq_nil_iff]
          intro o' ho'
          rw [List.mem_singleton.mp ho']
          simp
        rw [recordOrder, hgone]
        refine ⟨?_, fun e he => ?_⟩
        · by_cases hlarge : l.maxCache < data.length
          · rw [if_pos hlarge] at hadd
            obtain rfl := Option.some.inj hadd
            rw [decide_eq_false fun h => absurd h.2 (by omega)]
            exact hempty
          · rw [if_neg hlarge] at hadd
            obtain rfl := Option.some.inj hadd
            rw [decide_eq_true ⟨hzero, by omega⟩]
            refine hempty.store rfl hdisk ?_
            show (0 : Int) + data.length ≤ l.maxCache
            omega
        · have he' : e = (o.key, some o.key) := by simpa [recordEvictions] using he
          rw [he']

end Cache

structure Inv (disk : Tensor → Option Bytes) (s : State) : Prop where
  consistent : Consistent disk s.loader s.order
  returned : ∀ t data, Call.returned t data ∈ s.calls → disk t = some data
  oldest : ∀ e ∈ s.evictions, e.2 = some e.1

theorem Inv.accounted {disk : Tensor → Option Bytes} {s : State} (h : Inv disk s) :
    Accounted disk s :=
  ⟨h.consistent.size_eq, h.consistent.size_le, h.returned, h.oldest⟩

theorem returned_set {disk : Tensor → Option Bytes} {calls : List Call} {i : Nat} {c : Call}
    (h : ∀ t data, Call.returned t data ∈ calls → disk t = some data)
    (hc : ∀ t data, Call.returned t data = c → disk t = some data) :
    ∀ t data, Call.returned t data ∈ calls.set i c → disk t = some data := by
  intro t data hmem
  rcases List.mem_or_eq_of_mem_set hmem with hmem | heq
  · exact h t data hmem
  · exact hc t data heq

theorem returned_append {disk : Tensor → Option Bytes} {calls : List Call} {c : Call}
    (h : ∀ t data, Call.returned t data ∈ calls → disk t = some data)
    (hc : ∀ t data, Call.returned t data = c → disk t = some data) :
    ∀ t data, Call.returned t data ∈ calls ++ [c] → disk t = some data := by
  intro t data hmem
  rcases List.mem_append.mp hmem with hmem | heq
  · exact h t data hmem
  · exact hc t data (List.mem_singleton.mp heq)

theorem next_inv {disk : Tensor → Option Bytes} {s s' : State} {a : Label} (h : Inv disk s)
    (hmeets : Meets disk s a) (hstep : next disk s a = some s') : Inv disk s' := by
  obtain ⟨hcons, hret, hold⟩ := h
  cases a with
  | openFile path ok =>
    obtain rfl := Option.some.inj hstep
    split
    · obtain ⟨h0, hsize, hle, hkeys, horigin⟩ := hcons
      exact ⟨⟨h0, hsize, hle, hkeys, horigin⟩, hret, hold⟩
    · exact ⟨hcons, hret, hold⟩
  | getTensor t =>
    rw [next] at hstep
    cases hlookup : s.loader.tensorCache.lookup t.key with
    | none =>
      rw [hlookup] at hstep
      obtain rfl := Option.some.inj hstep
      exact ⟨hcons, returned_append hret fun _ _ heq => (by cases heq), hold⟩
    | some data =>
      rw [hlookup] at hstep
      obtain rfl := Option.some.inj hstep
      refine ⟨hcons, returned_append hret fun t' data' heq => ?_, hold⟩
      obtain ⟨rfl, rfl⟩ := Call.returned.inj heq
      exact hcons.lookup hmeets hlookup
  | file i =>
    rw [next] at hstep
    split at hstep
    · obtain rfl := Option.some.inj hstep
      refine ⟨hcons, returned_set hret fun t' data' heq => ?_, hold⟩
      split at heq <;> cases heq
    · cases hstep
  | fail i =>
    rw [next] at hstep
    split at hstep
    · obtain rfl := Option.some.inj hstep
      exact ⟨hcons, returned_set hret fun _ _ heq => (by cases heq), hold⟩
    · cases hstep
  | add i picks =>
    rw [next] at hstep
    split at hstep
    · next t hcall =>
      cases hdisk : disk t with
      | none =>
        rw [hdisk] at hstep
        cases hstep
      | some data =>
        rw [hdisk] at hstep
        dsimp only at hstep
        cases hadd : s.loader.addToCache t.key data picks with
        | none =>
          rw [hadd] at hstep
          cases hstep
        | some loader =>
          rw [hadd] at hstep
          obtain rfl := Option.some.inj hstep
          have hroom := hmeets t (by rw [State.opened, hcall]; rfl) data hdisk
          obtain ⟨hcons', hpicks⟩ := hcons.addToCache hdisk hroom hadd
          refine ⟨hcons', returned_set hret fun t' data' heq => ?_, fun e he => ?_⟩
          · obtain ⟨rfl, rfl⟩ := Call.returned.inj heq
            exact hdisk
          · rcases List.mem_append.mp he with he | he
            · exact hold e he
            · exact hpicks e he
    · cases hstep
  | close =>
    obtain rfl := Option.some.inj hstep
    obtain ⟨h0, -, -, -, -⟩ := hcons
    exact ⟨⟨h0, rfl, h0, List.Perm.refl [], fun o ho => absurd ho List.not_mem_nil⟩, hret, hold⟩

/-- In every run whose steps meet the condition, the cache accounts for its entries within its size,
calls return the bytes of their tensors, and only oldest entries are evicted. -/
theorem loader_accounted {disk : Tensor → Option Bytes} {maxCache : Int} (hmax : 0 ≤ maxCache) :
    ((loaderSys disk maxCache).restrict (Meets disk)).Invariant (Accounted disk) := by
  have hinv : ((loaderSys disk maxCache).restrict (Meets disk)).Invariant (Inv disk) := by
    refine TSys.Inductive.invariant { init := ?_, step := ?_ }
    · rintro s rfl
      exact ⟨⟨hmax, rfl, hmax, List.Perm.refl [], fun o ho => absurd ho List.not_mem_nil⟩,
        fun t data h => absurd h List.not_mem_nil, fun e h => absurd h List.not_mem_nil⟩
    · rintro s a s' h ⟨hmeets, hstep⟩
      exact next_inv h hmeets hstep
  exact fun s hs => (hinv s hs).accounted

/-- Two readers of one tensor: what the first one has added goes when the second one adds it. -/
theorem loader_accounted_two : ∃ s,
    ((loaderSys (fun _ => some [1, 2]) 2).restrict (Meets fun _ => some [1, 2])).Reachable s ∧
      s.evictions = [("m::a".toList, some "m::a".toList)] ∧ Accounted (fun _ => some [1, 2]) s := by
  obtain ⟨s, hs, hevictions⟩ := TSys.Reachable.exists_of_run_restrict
    (T := loaderSys (fun _ => some [1, 2]) 2) (G := Meets fun _ => some [1, 2])
    (P := fun s => s.evictions = [("m::a".toList, some "m::a".toList)]) (fun _ _ _ hstep => hstep)
    (.init rfl)
    [.openFile ['m'] true, .getTensor ⟨['m'], ['a']⟩, .getTensor ⟨['m'], ['a']⟩, .file 0, .file 1,
      .add 0 [], .add 1 ["m::a".toList]] (by decide)
  exact ⟨s, hs, hevictions, loader_accounted (by decide) s hs⟩

/-- Two readers of one tensor both add it: four bytes are counted for two. Of two cached tensors the
newer one can be evicted. And two tensors can have one key. -/
theorem loader_not_accounted :
    (∃ s, (loaderSys (fun _ => some [1, 2]) 8).Reachable s ∧
      s.loader.cacheSize = 4 ∧ cached s.loader.tensorCache = 2) ∧
    (∃ s, (loaderSys (fun _ => some [1, 2]) 4).Reachable s ∧
      ∃ e ∈ s.evictions, e.2 ≠ some e.1) ∧
    ∃ s, (loaderSys (fun t => if t.path = ['m'] then some [1] else some [2]) 8).Reachable s ∧
      Call.returned ⟨"m::a".toList, ['b']⟩ [1] ∈ s.calls := by
  have hnext : ∀ (disk : Tensor → Option Bytes) (maxCache : Int) s a s', next disk s a = some s' →
      (loaderSys disk maxCache).step s a s' := fun _ _ _ _ _ h => h
  refine ⟨?_, ?_, ?_⟩
  · exact TSys.Reachable.exists_of_run (hnext _ _) (.init rfl)
      [.openFile ['m'] true, .getTensor ⟨['m'], ['a']⟩, .getTensor ⟨['m'], ['a']⟩, .file 0, .file 1,
        .add 0 [], .add 1 []] (by decide)
  · exact TSys.Reachable.exists_of_run (hnext _ _) (.init rfl)
      [.openFile ['m'] true, .getTensor ⟨['m'], ['a']⟩, .file 0, .add 0 [],
        .getTensor ⟨['m'], ['b']⟩, .file 1, .add 1 [], .getTensor ⟨['m'], ['c']⟩, .file 2,
        .add 2 ["m::b".toList]] (by decide)
  · exact TSys.Reachable.exists_of_run (hnext _ _) (.init rfl)
      [.openFile ['m'] true, .getTensor ⟨['m'], "a::b".toList⟩, .file 0, .add 0 [],
        .getTensor ⟨"m::a".toList, ['b']⟩] (by decide)

end Prismalama.Gguf
