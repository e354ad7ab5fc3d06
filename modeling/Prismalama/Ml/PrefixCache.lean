import Prismalama.Lib.GoMap
import Prismalama.Lib.Sha256

/-!
# The prefix cache (`ml/cache/kv_cache.go`)

Locations are held under the hash of a token list and a layer, and the hashes in the order of
their last use. `put` is the only call that can panic, when it evicts the very prefix it has just
made. A trace is a run of calls with the state before and after each of them.
-/

namespace Prismalama.Ml

open Prismalama.Lib

structure CacheLocation where
  layerIdx : Int
  position : Int
  blockOffset : Int
  deriving DecidableEq

structure PrefixCache where
  prefixIndex : GoMap UInt64 (GoMap Int CacheLocation)
  /-- from the front to the back of the list -/
  accessOrder : List UInt64
  maxEntries : Int
  hits : UInt64
  misses : UInt64

namespace PrefixCache

def newPrefixCache (maxEntries : Int) : PrefixCache := ⟨∅, [], maxEntries, 0, 0⟩

/-! ## The hash -/

/-- `byte(t & 0xFF)` and `byte((t >> 8) & 0xFF)` -/
def tokenBytes (t : Int) : List UInt8 :=
  [UInt8.ofNat (t % 256).toNat, UInt8.ofNat ((t >>> (8 : Nat)) % 256).toNat]

/-- The sum of the bytes, cut down to its first four. -/
def truncatedSum (bytes : List UInt8) : UInt64 :=
  let hashBytes (i : Nat) (h : i < 32) : UInt64 :=
    ((Sha256.sum256 bytes).get ⟨i, (Sha256.length_sum256 bytes).symm ▸ h⟩).toUInt64
  hashBytes 0 (by decide) ||| hashBytes 1 (by decide) <<< 8 ||| hashBytes 2 (by decide) <<< 16 |||
    hashBytes 3 (by decide) <<< 24

def computeHash (tokens : List Int) : UInt64 := truncatedSum (tokens.flatMap tokenBytes)

/-! ## The calls -/

def updateAccessOrder (p : PrefixCache) (hash : UInt64) : PrefixCache :=
  if hash ∈ p.accessOrder then { p with accessOrder := p.accessOrder.erase hash ++ [hash] }
  else { p with accessOrder := p.accessOrder ++ [hash] }

def evictOldest (p : PrefixCache) : PrefixCache :=
  match p.accessOrder with
  | [] => p
  | oldest :: rest =>
    { p with prefixIndex := AList.erase oldest p.prefixIndex, accessOrder := rest }

def get (p : PrefixCache) (prefixTokens : List Int) (layerIdx : Int) :
    PrefixCache × Option CacheLocation :=
  let hash := computeHash prefixTokens
  match (AList.lookup hash p.prefixIndex).bind (AList.lookup layerIdx) with
  | some loc =>
    let p := p.updateAccessOrder hash
    ({ p with hits := p.hits + 1 }, some loc)
  | none => ({ p with misses := p.misses + 1 }, none)

/-- `p.prefixIndex[hash][layerIdx] = location`, and the use -/
def store (p : PrefixCache) (hash : UInt64) (layerIdx : Int) (location : CacheLocation)
    (layerMap : GoMap Int CacheLocation) : PrefixCache :=
  { p with prefixIndex := AList.insert hash (AList.insert layerIdx location layerMap)
                            p.prefixIndex }.updateAccessOrder hash

/-- `put`; `none` is the panic of an assignment to an entry of a nil map. -/
def put (p : PrefixCache) (prefixTokens : List Int) (layerIdx : Int) (location : CacheLocation) :
    Option PrefixCache :=
  let hash := computeHash prefixTokens
  let p :=
    if (AList.lookup hash p.prefixIndex).isSome then p
    else
      let p := { p with prefixIndex := AList.insert hash ∅ p.prefixIndex }
      if p.maxEntries < p.prefixIndex.keys.length then p.evictOldest else p
  (AList.lookup hash p.prefixIndex).map (p.store hash layerIdx location)

def remove (p : PrefixCache) (prefixTokens : List Int) (layerIdx : Int) : PrefixCache :=
  let hash := computeHash prefixTokens
  match AList.lookup hash p.prefixIndex with
  | none => p
  | some layerMap =>
    let layerMap := AList.erase layerIdx layerMap
    if layerMap.keys.length = 0 then
      { p with prefixIndex := AList.erase hash p.prefixIndex }
    else { p with prefixIndex := AList.insert hash layerMap p.prefixIndex }

def clear (p : PrefixCache) : PrefixCache := { p with prefixIndex := ∅, accessOrder := [] }

inductive Call
  | get (prefixTokens : List Int) (layerIdx : Int)
  | put (prefixTokens : List Int) (layerIdx : Int) (location : CacheLocation)
  | remove (prefixTokens : List Int) (layerIdx : Int)
  | clear

/-- The token list of a call. -/
def Call.tokens : Call → Option (List Int)
  | .get t _ => some t
  | .put t _ _ => some t
  | .remove t _ => some t
  | .clear => none

/-- A call, with what `get` returns; `none` is a panic. -/
def exec (p : PrefixCache) : Call → Option (PrefixCache × Option CacheLocation)
  | .get t l => some (p.get t l)
  | .put t l loc => (p.put t l loc).map fun p' => (p', none)
  | .remove t l => some (p.remove t l, none)
  | .clear => some (p.clear, none)

/-! ## Traces -/

structure Event where
  call : Call
  before : PrefixCache
  after : PrefixCache
  result : Option CacheLocation

/-- The calls of a run, the last one first, and the state that they lead to. -/
inductive Trace (maxEntries : Int) : List Event → PrefixCache → Prop
  | start : Trace maxEntries [] (newPrefixCache maxEntries)
  | call {log : List Event} {p p' : PrefixCache} {c : Call} {r : Option CacheLocation} :
    Trace maxEntries log p → p.exec c = some (p', r) → Trace maxEntries (⟨c, p, p', r⟩ :: log) p'

/-- The event is a use of the prefix: a `put`, or a `get` that finds it. -/
def Event.uses (e : Event) (hash : UInt64) : Bool :=
  match e.call with
  | .put t _ _ => computeHash t == hash
  | .get t _ => computeHash t == hash && e.result.isSome
  | _ => false

/-- When the prefix was last used; 0 is never. -/
def lastUse : List Event → UInt64 → Nat
  | [], _ => 0
  | e :: log, hash => if e.uses hash then log.length + 1 else lastUse log hash

/-- The prefix was stored before the event, and no longer is. -/
def Event.drops (e : Event) (hash : UInt64) : Bool :=
  hash ∈ e.before.prefixIndex.keys && hash ∉ e.after.prefixIndex.keys

/-- The location of the latest `put` for the prefix and the layer, unless it was removed, or the
prefix was dropped since. -/
def latest : List Event → List Int → Int → Option CacheLocation
  | [], _, _ => none
  | e :: log, t, l =>
    match e.call with
    | .put t' l' loc =>
      if t' = t ∧ l' = l then some loc
      else if e.drops (computeHash t) then none
      else latest log t l
    | .remove t' l' => if t' = t ∧ l' = l then none else latest log t l
    | .clear => none
    | .get _ _ => latest log t l

/-- The call removes the last layer of a stored prefix. -/
def RemovesPrefix (p : PrefixCache) : Call → Prop
  | .remove t l =>
    ∃ layerMap, AList.lookup (computeHash t) p.prefixIndex = some layerMap ∧
      (AList.erase l layerMap).keys.length = 0
  | _ => False

/-- No two of the token lists have one hash. -/
def CollisionFree (calls : List Call) : Prop :=
  ∀ t ∈ calls.filterMap Call.tokens, ∀ t' ∈ calls.filterMap Call.tokens,
    computeHash t = computeHash t' → t = t'

/-! ## The order of use -/

theorem lastUse_le (log : List Event) (hash : UInt64) : lastUse log hash ≤ log.length := by
  induction log with
  | nil => exact le_rfl
  | cons e log ih =>
    rw [lastUse, List.length_cons]
    split
    · exact le_rfl
    · exact ih.trans (Nat.le_succ _)

/-- The hashes, in the order of their last use. -/
def Ordered (log : List Event) (order : List UInt64) : Prop :=
  order.Pairwise fun a b => lastUse log a < lastUse log b

theorem Ordered.skip {log : List Event} {order : List UInt64} {e : Event} (h : Ordered log order)
    (huses : ∀ k, e.uses k = false) : Ordered (e :: log) order := by
  refine List.Pairwise.imp (fun {a b} hab => ?_) h
  rw [lastUse, lastUse, huses a, huses b]
  exact hab

/-- The hash that is used goes to the back. -/
theorem Ordered.touch {log : List Event} {order kept : List UInt64} {e : Event} {hash : UInt64}
    (h : Ordered log order) (hkept : kept.Sublist order) (hnodup : order.Nodup)
    (huses : ∀ k, e.uses k = decide (k = hash)) : Ordered (e :: log) (kept.erase hash ++ [hash]) := by
  have hother : ∀ {k}, k ∈ kept.erase hash → lastUse (e :: log) k = lastUse log k := by
    intro k hk
    have hne : k ≠ hash := ((hnodup.sublist hkept).mem_erase_iff.mp hk).1
    rw [lastUse, huses, decide_eq_false hne]
    rfl
  refine List.pairwise_append.mpr ⟨?_, List.pairwise_singleton _ _, fun a ha b hb => ?_⟩
  · have hsub := h.sublist ((@List.erase_sublist _ _ hash kept).trans hkept)
    refine List.Pairwise.imp_of_mem (fun {a b} ha hb hab => ?_) hsub
    rw [hother ha, hother hb]
    exact hab
  · rw [List.mem_singleton.mp hb, hother ha, lastUse, huses, decide_eq_true rfl, if_pos rfl]
    exact Nat.lt_succ_of_le (lastUse_le log a)

theorem updateAccessOrder_eq (p : PrefixCache) (hash : UInt64) : p.updateAccessOrder hash =
    { p with accessOrder := p.accessOrder.erase hash ++ [hash] } := by
  rw [updateAccessOrder]
  split
  · rfl
  · next hnot => rw [List.erase_of_not_mem hnot]

/-! ## What the cache keeps -/

/-- The two copies of the set of prefixes agree, and the cache holds what the log says. -/
structure Inv (n : Int) (log : List Event) (p : PrefixCache) : Prop where
  maxEntries : p.maxEntries = n
  nodup : p.accessOrder.Nodup
  listed : ∀ k, k ∈ p.accessOrder ↔ k ∈ p.prefixIndex.keys
  size : (p.accessOrder.length : Int) ≤ n
  ordered : Ordered log p.accessOrder
  found : ∀ t : List Int, (∀ t' ∈ (log.map Event.call).filterMap Call.tokens,
      computeHash t = computeHash t' → t = t') →
    ∀ l, (AList.lookup (computeHash t) p.prefixIndex).bind (AList.lookup l) = latest log t l

variable {n : Int} {log : List Event} {p p' : PrefixCache}

/-- As many prefixes are stored as are listed. -/
theorem Inv.length_keys (h : Inv n log p) : p.prefixIndex.keys.length = p.accessOrder.length := by
  have hperm : p.prefixIndex.keys.Perm p.accessOrder :=
    (List.perm_ext_iff_of_nodup p.prefixIndex.nodupKeys h.nodup).mpr fun k => (h.listed k).symm
  exact hperm.length_eq

theorem inv_start (hn : 1 ≤ n) : Inv n [] (newPrefixCache n) where
  maxEntries := rfl
  nodup := List.nodup_nil
  listed _ := Iff.rfl
  size := (by decide : ((0 : Nat) : Int) ≤ 1).trans hn
  ordered := List.Pairwise.nil
  found _ _ _ := rfl

/-- What `put` does: the prefixes of `gone` are dropped, and the location is stored. -/
structure Stores (p : PrefixCache) (hash : UInt64) (l : Int) (loc : CacheLocation)
    (p' : PrefixCache) (gone kept : List UInt64) : Prop where
  maxEntries : p'.maxEntries = p.maxEntries
  split : p.accessOrder = gone ++ kept
  order : p'.accessOrder = kept.erase hash ++ [hash]
  notGone : hash ∉ gone
  atMostOne : gone.length ≤ 1
  size : (p'.accessOrder.length : Int) ≤ p.maxEntries
  index : ∀ k, AList.lookup k p'.prefixIndex =
    if k = hash then
      some (AList.insert l loc ((AList.lookup hash p.prefixIndex).getD ∅))
    else if k ∈ gone then none else AList.lookup k p.prefixIndex

/-- `put` does not panic. -/
theorem Inv.put (h : Inv n log p) (hn : 1 ≤ n) (t : List Int) (l : Int) (loc : CacheLocation) :
    ∃ p' gone kept, p.put t l loc = some p' ∧ Stores p (computeHash t) l loc p' gone kept := by
  generalize hhash : computeHash t = hash
  have hsize := h.size
  cases hstored : AList.lookup hash p.prefixIndex with
  | some layerMap =>
    have hmem : hash ∈ p.accessOrder :=
      (h.listed hash).mpr ((GoMap.mem_keys_iff _ _).mpr ⟨layerMap, hstored⟩)
    refine ⟨p.store hash l loc layerMap, [], p.accessOrder, ?_, ?_⟩
    · rw [PrefixCache.put, hhash]
      simp only [hstored, Option.isSome_some, if_true, Option.map_some]
    · rw [store, updateAccessOrder_eq]
      refine ⟨rfl, rfl, rfl, List.not_mem_nil, Nat.zero_le 1, ?_, fun k => ?_⟩
      · rw [List.length_append, List.length_erase_of_mem hmem, List.length_singleton,
          Nat.sub_add_cancel (List.length_pos_of_mem hmem), h.maxEntries]
        exact hsize
      · rw [GoMap.lookup_insert_ite, hstored, Option.getD_some, if_neg List.not_mem_nil]
  | none =>
    have hnot : hash ∉ p.accessOrder := fun hmem => by
      obtain ⟨v, hv⟩ := (GoMap.mem_keys_iff _ _).mp ((h.listed hash).mp hmem)
      rw [hstored] at hv
      cases hv
    have hlength : (AList.insert hash ∅ p.prefixIndex).keys.length = p.accessOrder.length + 1 := by
      rw [AList.keys_insert, List.length_cons,
        List.erase_of_not_mem (fun hk => hnot ((h.listed hash).mpr hk)), h.length_keys]
    by_cases hfull : p.maxEntries < ((p.accessOrder.length + 1 : Nat) : Int)
    · -- the oldest prefix is another one
      obtain ⟨oldest, rest, horder⟩ : ∃ oldest rest, p.accessOrder = oldest :: rest := by
        refine List.exists_cons_of_ne_nil fun hnil => ?_
        rw [hnil, h.maxEntries] at hfull
        exact absurd hn (not_le.mpr hfull)
      have hne : hash ≠ oldest := fun heq => hnot (by rw [horder, heq]; exact List.mem_cons_self)
      have hrest : hash ∉ rest := fun hmem => hnot (horder ▸ List.mem_cons_of_mem _ hmem)
      refine ⟨store { p with
          prefixIndex := AList.erase oldest (AList.insert hash ∅ p.prefixIndex),
          accessOrder := rest } hash l loc ∅, [oldest], rest, ?_, ?_⟩
      · rw [PrefixCache.put, hhash]
        simp only [hstored, Option.isSome_none, Bool.false_eq_true, if_false, hlength, if_pos hfull,
          evictOldest]
        rw [horder]
        simp only
        rw [GoMap.lookup_erase_ite, if_neg hne, AList.lookup_insert, Option.map_some]
      · rw [store, updateAccessOrder_eq]
        refine ⟨rfl, horder, rfl, fun hmem => hne (List.mem_singleton.mp hmem), le_rfl, ?_,
          fun k => ?_⟩
        · rw [List.length_append, List.erase_of_not_mem hrest, h.maxEntries, List.length_singleton]
          rw [horder, List.length_cons] at hsize
          exact hsize
        · rw [GoMap.lookup_insert_ite, hstored, Option.getD_none]
          simp only [List.mem_singleton]
          rw [GoMap.lookup_erase_ite, GoMap.lookup_insert_ite]
          split
          · rfl
          · rfl
    · refine ⟨store { p with prefixIndex := AList.insert hash ∅ p.prefixIndex } hash l loc ∅,
        [], p.accessOrder, ?_, ?_⟩
      · rw [PrefixCache.put, hhash]
        simp only [hstored, Option.isSome_none, Bool.false_eq_true, if_false, hlength, if_neg hfull]
        rw [AList.lookup_insert, Option.map_some]
      · rw [store, updateAccessOrder_eq]
        refine ⟨rfl, rfl, rfl, List.not_mem_nil, Nat.zero_le 1, ?_, fun k => ?_⟩
        · rw [List.length_append, List.erase_of_not_mem hnot, List.length_singleton]
          exact not_lt.mp hfull
        · rw [GoMap.lookup_insert_ite, hstored, Option.getD_none, GoMap.lookup_insert_ite,
            if_neg List.not_mem_nil]
          split
          · rfl
          · rfl

/-! ## One call -/

/-- The condition on a token list for more calls is one for fewer. -/
theorem apart_of_cons {e : Event} {t : List Int}
    (h : ∀ t' ∈ ((e :: log).map Event.call).filterMap Call.tokens,
      computeHash t = computeHash t' → t = t') :
    ∀ t' ∈ (log.map Event.call).filterMap Call.tokens, computeHash t = computeHash t' → t = t' := by
  refine fun t' ht' => h t' ?_
  rw [List.map_cons]
  exact List.Sublist.subset ((List.sublist_cons_self _ _).filterMap _) ht'

theorem mem_touched {order : List UInt64} {hash : UInt64} (hmem : hash ∈ order) (k : UInt64) :
    k ∈ order.erase hash ++ [hash] ↔ k ∈ order := by
  rw [List.mem_append, List.mem_singleton]
  constructor
  · rintro (h | rfl)
    · exact List.mem_of_mem_erase h
    · exact hmem
  · intro h
    by_cases heq : k = hash
    · exact .inr heq
    · exact .inl ((List.mem_erase_of_ne heq).mpr h)

theorem nodup_touched {order : List UInt64} (h : order.Nodup) (hash : UInt64) :
    (order.erase hash ++ [hash]).Nodup := by
  refine List.nodup_append.mpr ⟨h.erase hash, List.nodup_singleton hash, fun a ha b hb => ?_⟩
  rw [List.mem_singleton.mp hb]
  exact ((h.mem_erase_iff).mp ha).1

theorem Inv.get (h : Inv n log p) (t : List Int) (l : Int) :
    Inv n (⟨.get t l, p, (p.get t l).1, (p.get t l).2⟩ :: log) (p.get t l).1 := by
  have hfound : ∀ {e : Event}, e.call = .get t l → ∀ t' l', latest (e :: log) t' l' = latest log t' l' := by
    intro e he t' l'
    rw [latest, he]
  cases hloc : (AList.lookup (computeHash t) p.prefixIndex).bind (AList.lookup l) with
  | none =>
    have hget : p.get t l = ({ p with misses := p.misses + 1 }, none) := by
      rw [PrefixCache.get, hloc]
    rw [hget]
    refine ⟨h.maxEntries, h.nodup, h.listed, h.size, h.ordered.skip fun k => Bool.and_false _,
      fun t' ht' l' => ?_⟩
    rw [hfound rfl]
    exact h.found t' (apart_of_cons ht') l'
  | some loc =>
    have hget : p.get t l = ({ p.updateAccessOrder (computeHash t) with
        hits := p.hits + 1 }, some loc) := by
      rw [PrefixCache.get, hloc, updateAccessOrder_eq]
    have hmem : computeHash t ∈ p.accessOrder := by
      obtain ⟨layerMap, hlayers, -⟩ := Option.bind_eq_some_iff.mp hloc
      exact (h.listed _).mpr ((GoMap.mem_keys_iff _ _).mpr ⟨layerMap, hlayers⟩)
    rw [hget, updateAccessOrder_eq]
    refine ⟨h.maxEntries, nodup_touched h.nodup _,
      fun k => (mem_touched hmem k).trans (h.listed k), ?_,
      h.ordered.touch (List.Sublist.refl _) h.nodup fun k => ?_, fun t' ht' l' => ?_⟩
    · have hpos := List.length_pos_of_mem hmem
      have hsize := h.size
      rw [List.length_append, List.length_erase_of_mem hmem, List.length_singleton,
        Nat.sub_add_cancel hpos]
      exact hsize
    · show (computeHash t == k && true) = decide (k = computeHash t)
      rw [Bool.and_true, Bool.beq_eq_decide_eq]
      exact decide_eq_decide.mpr eq_comm
    · rw [hfound rfl]
      exact h.found t' (apart_of_cons ht') l'

theorem Inv.stores {t : List Int} {l : Int} {loc : CacheLocation} {gone kept : List UInt64}
    (h : Inv n log p) (hput : Stores p (computeHash t) l loc p' gone kept) :
    Inv n (⟨.put t l loc, p, p', none⟩ :: log) p' := by
  have hsub : kept.Sublist p.accessOrder := hput.split ▸ List.sublist_append_right gone kept
  have hapart : ∀ {k}, k ∈ gone → k ∉ kept := fun hk hk' => by
    have hnodup := h.nodup
    rw [hput.split, List.nodup_append] at hnodup
    exact hnodup.2.2 _ hk _ hk' rfl
  -- what is stored before and after
  have hbefore : ∀ k, k ∈ p.prefixIndex.keys ↔ k ∈ gone ∨ k ∈ kept := fun k => by
    rw [← h.listed, hput.split, List.mem_append]
  have hafter : ∀ k, k ∈ p'.prefixIndex.keys ↔ k = computeHash t ∨ k ∈ kept := by
    intro k
    rw [GoMap.mem_keys_iff, hput.index]
    split
    · next heq => exact iff_of_true ⟨_, rfl⟩ (.inl heq)
    · next hne =>
      split
      · next hgone =>
        refine iff_of_false (fun hex => ?_) fun hor => hor.elim hne (hapart hgone)
        obtain ⟨v, hv⟩ := hex
        cases hv
      · next hgone =>
        rw [← GoMap.mem_keys_iff, hbefore, or_iff_right hgone, or_iff_right hne]
  refine ⟨hput.maxEntries.trans h.maxEntries, ?_, fun k => ?_, ?_, ?_, fun t' ht' l' => ?_⟩
  · rw [hput.order]
    exact nodup_touched (h.nodup.sublist hsub) _
  · rw [hput.order, hafter, List.mem_append, List.mem_singleton]
    by_cases heq : k = computeHash t
    · exact iff_of_true (.inr heq) (.inl heq)
    · rw [List.mem_erase_of_ne heq, or_iff_left heq, or_iff_right heq]
  · rw [← h.maxEntries]
    exact hput.size
  · rw [hput.order]
    refine h.ordered.touch hsub h.nodup fun k => ?_
    show (computeHash t == k) = decide (k = computeHash t)
    rw [Bool.beq_eq_decide_eq]
    exact decide_eq_decide.mpr eq_comm
  · have hlog := h.found t' (apart_of_cons ht') l'
    have hlatest : latest (⟨.put t l loc, p, p', none⟩ :: log) t' l' =
        if t = t' ∧ l = l' then some loc
        else if Event.drops ⟨.put t l loc, p, p', none⟩ (computeHash t') = true then none
        else latest log t' l' := rfl
    rw [hput.index, hlatest]
    by_cases heq : t = t'
    · subst heq
      have hkept : Event.drops ⟨.put t l loc, p, p', none⟩ (computeHash t) = false := by
        rw [Event.drops, decide_eq_false (p := _ ∉ _) (not_not.mpr ((hafter _).mpr (.inl rfl))),
          Bool.and_false]
      rw [if_pos rfl, Option.bind_some, GoMap.lookup_insert_ite]
      by_cases hl : l' = l
      · rw [if_pos hl, if_pos ⟨rfl, hl.symm⟩]
      · rw [if_neg hl, if_neg fun hand => hl hand.2.symm, hkept, if_neg Bool.false_ne_true, ← hlog]
        cases AList.lookup (computeHash t) p.prefixIndex <;> rfl
    · have hne : computeHash t' ≠ computeHash t := fun hhash =>
        heq (ht' t List.mem_cons_self hhash).symm
      have hother : ¬(t = t' ∧ l = l') := fun hand => heq hand.1
      rw [if_neg hne, if_neg hother]
      by_cases hgone : computeHash t' ∈ gone
      · have hdrops : Event.drops ⟨.put t l loc, p, p', none⟩ (computeHash t') = true := by
          rw [Event.drops, decide_eq_true ((hbefore _).mpr (.inl hgone)), Bool.true_and,
            decide_eq_true]
          exact fun hmem => ((hafter _).mp hmem).elim hne (hapart hgone)
        rw [if_pos hgone, hdrops]
        rfl
      · have hdrops : Event.drops ⟨.put t l loc, p, p', none⟩ (computeHash t') = false := by
          rw [Event.drops, Bool.and_eq_false_iff, decide_eq_false_iff_not, decide_eq_false_iff_not,
            not_not, hbefore, hafter, or_iff_right hgone, or_iff_right hne]
          exact (em _).symm
        rw [if_neg hgone, hdrops, if_neg Bool.false_ne_true]
        exact hlog

theorem Inv.remove {t : List Int} {l : Int} (h : Inv n log p)
    (hkeep : ¬RemovesPrefix p (.remove t l)) :
    Inv n (⟨.remove t l, p, p.remove t l, none⟩ :: log) (p.remove t l) := by
  have hordered : Ordered (⟨.remove t l, p, p.remove t l, none⟩ :: log) p.accessOrder :=
    h.ordered.skip fun k => rfl
  cases hlayers : AList.lookup (computeHash t) p.prefixIndex with
  | none =>
    have hremove : p.remove t l = p := by rw [PrefixCache.remove, hlayers]
    rw [hremove] at hordered ⊢
    refine ⟨h.maxEntries, h.nodup, h.listed, h.size, hordered, fun t' ht' l' => ?_⟩
    rw [latest]
    simp only
    split
    · next heq =>
      rw [← heq.1, hlayers]
      rfl
    · exact h.found t' (apart_of_cons ht') l'
  | some layerMap =>
    have hlength : (AList.erase l layerMap).keys.length ≠ 0 := fun hzero =>
      hkeep ⟨layerMap, hlayers, hzero⟩
    have hremove : p.remove t l = { p with
        prefixIndex := AList.insert (computeHash t) (AList.erase l layerMap) p.prefixIndex } := by
      rw [PrefixCache.remove, hlayers]
      exact if_neg hlength
    rw [hremove] at hordered ⊢
    refine ⟨h.maxEntries, h.nodup, fun k => ?_, h.size, hordered, fun t' ht' l' => ?_⟩
    · rw [h.listed, GoMap.mem_keys_iff, GoMap.mem_keys_iff]
      simp only [GoMap.lookup_insert_ite]
      split
      · next heq => exact iff_of_true ⟨layerMap, heq ▸ hlayers⟩ ⟨_, rfl⟩
      · rfl
    · have hlog := h.found t' (apart_of_cons ht') l'
      rw [latest]
      simp only [GoMap.lookup_insert_ite]
      by_cases heq : t = t'
      · subst heq
        rw [if_pos rfl, Option.bind_some, GoMap.lookup_erase_ite]
        rw [hlayers, Option.bind_some] at hlog
        by_cases hl : l' = l
        · rw [if_pos hl, if_pos ⟨rfl, hl.symm⟩]
        · rw [if_neg hl, if_neg fun hand => hl hand.2.symm]
          exact hlog
      · have hne : computeHash t' ≠ computeHash t := fun hhash =>
          heq (ht' t List.mem_cons_self hhash).symm
        rw [if_neg hne, if_neg fun hand => heq hand.1]
        exact hlog

theorem Inv.clear (h : Inv n log p) (hn : 1 ≤ n) :
    Inv n (⟨.clear, p, p.clear, none⟩ :: log) p.clear where
  maxEntries := h.maxEntries
  nodup := List.nodup_nil
  listed _ := Iff.rfl
  size := (by decide : ((0 : Nat) : Int) ≤ 1).trans hn
  ordered := List.Pairwise.nil
  found _ _ _ := rfl

/-- A call that does not remove a prefix keeps the copies in step, and does not panic. -/
theorem Inv.exec (h : Inv n log p) (hn : 1 ≤ n) {c : Call} (hkeep : ¬RemovesPrefix p c) :
    ∃ p' r, p.exec c = some (p', r) ∧ Inv n (⟨c, p, p', r⟩ :: log) p' := by
  cases c with
  | get t l => exact ⟨_, _, rfl, h.get t l⟩
  | put t l loc =>
    obtain ⟨p', gone, kept, hput, hstores⟩ := h.put hn t l loc
    exact ⟨p', none, by rw [PrefixCache.exec, hput]; rfl, h.stores hstores⟩
  | remove t l => exact ⟨_, _, rfl, h.remove hkeep⟩
  | clear => exact ⟨_, _, rfl, h.clear hn⟩

/-- Every run of such calls keeps them in step. -/
theorem Trace.inv (hn : 1 ≤ n) (h : Trace n log p)
    (hkeep : ∀ e ∈ log, ¬RemovesPrefix e.before e.call) : Inv n log p := by
  induction h with
  | start => exact inv_start hn
  | @call log p p' c r hlog hexec ih =>
    have hinv := ih fun e he => hkeep e (List.mem_cons_of_mem _ he)
    obtain ⟨q, r', hexec', hnext⟩ := hinv.exec hn (hkeep ⟨c, p, p', r⟩ List.mem_cons_self)
    obtain ⟨rfl, rfl⟩ := Prod.mk.inj (Option.some.inj (hexec.symm.trans hexec'))
    exact hnext

/-! ## The bookkeeping -/

/-- A state in which the bookkeeping is right, and a call that goes right. -/
structure Sound (maxEntries : Int) (log : List Event) (p : PrefixCache) (c : Call) : Prop where
  runs : (p.exec c).isSome = true
  size : (p.prefixIndex.keys.length : Int) ≤ maxEntries
  nodup : p.accessOrder.Nodup
  listed : ∀ hash, hash ∈ p.accessOrder ↔ hash ∈ p.prefixIndex.keys
  found : ∀ t l, c = .get t l → (p.get t l).2 = latest log t l
  /-- What a `put` drops was used before everything else. -/
  oldest : ∀ t l loc p' r, c = .put t l loc → p.exec c = some (p', r) →
    ∀ hash, Event.drops ⟨c, p, p', r⟩ hash = true →
      ∀ other ∈ p.prefixIndex.keys, other ≠ hash → lastUse log hash < lastUse log other

/-- When no call removes the last layer of a prefix, the bookkeeping is right all the time. -/
theorem bookkeeping_sound (hn : 1 ≤ n) (h : Trace n log p) (c : Call)
    (hfree : CollisionFree (c :: log.map Event.call))
    (hkeep : ∀ e ∈ log, ¬RemovesPrefix e.before e.call) (hcall : ¬RemovesPrefix p c) :
    Sound n log p c := by
  have hinv := h.inv hn hkeep
  obtain ⟨p', r, hexec, -⟩ := hinv.exec hn hcall
  refine ⟨by rw [hexec]; rfl, ?_, hinv.nodup, hinv.listed, ?_, ?_⟩
  · rw [hinv.length_keys]
    exact hinv.size
  · rintro t l rfl
    have hget : (p.get t l).2 =
        (AList.lookup (computeHash t) p.prefixIndex).bind (AList.lookup l) := by
      rw [PrefixCache.get]
      cases (AList.lookup (computeHash t) p.prefixIndex).bind (AList.lookup l) <;> rfl
    rw [hget]
    refine hinv.found t (fun t' ht' => ?_) l
    exact hfree t List.mem_cons_self t' (List.mem_cons_of_mem t ht')
  · rintro t l loc q r' rfl hexec' hash hdrops other hother hne
    obtain ⟨q', gone, kept, hput, hstores⟩ := hinv.put hn t l loc
    have hq : q = q' := by
      rw [PrefixCache.exec, hput] at hexec'
      exact (Prod.mk.inj (Option.some.inj hexec')).1.symm
    subst hq
    obtain ⟨hin, hout⟩ := Bool.and_eq_true_iff.mp hdrops
    -- what is dropped is the front of the list
    have hgone : gone = [hash] := by
      have hmem : hash ∈ gone := by
        by_contra hnot
        refine of_decide_eq_true hout ((GoMap.mem_keys_iff _ _).mpr ?_)
        rw [hstores.index, if_neg hnot]
        split
        · exact ⟨_, rfl⟩
        · exact (GoMap.mem_keys_iff _ _).mp (of_decide_eq_true hin)
      obtain ⟨a, rfl⟩ := List.length_eq_one_iff.mp
        (le_antisymm hstores.atMostOne (List.length_pos_of_mem hmem))
      rw [List.mem_singleton.mp hmem]
    have hkept : other ∈ kept := by
      have hmem := (hinv.listed other).mpr hother
      rw [hstores.split, hgone, List.singleton_append, List.mem_cons] at hmem
      exact hmem.resolve_left hne
    have hordered := hinv.ordered
    rw [hstores.split, hgone, List.singleton_append] at hordered
    exact List.rel_of_pairwise_cons hordered hkept

/-- The state after calls, if none of them panics. -/
def afterCalls (p : PrefixCache) (calls : List Call) : Option PrefixCache :=
  calls.foldlM (fun p c => (p.exec c).map Prod.fst) p

theorem Trace.afterCalls {calls : List Call} (h : Trace n log p)
    (hcalls : p.afterCalls calls = some p') :
    ∃ log', Trace n (log' ++ log) p' ∧ log'.map Event.call = calls.reverse := by
  induction calls generalizing log p with
  | nil =>
    obtain rfl := Option.some.inj hcalls
    exact ⟨[], h, rfl⟩
  | cons c calls ih =>
    rw [PrefixCache.afterCalls, List.foldlM_cons] at hcalls
    obtain ⟨q, hq, hrest⟩ := Option.bind_eq_some_iff.mp hcalls
    obtain ⟨⟨q', r⟩, hexec, rfl⟩ := Option.map_eq_some_iff.mp hq
    obtain ⟨log', htrace, hlog⟩ := ih (.call h hexec) hrest
    refine ⟨log' ++ [⟨c, p, q', r⟩], ?_, ?_⟩
    · rw [List.append_assoc]
      exact htrace
    · rw [List.map_append, hlog, List.reverse_cons]
      rfl

def someLocation : CacheLocation := ⟨0, 0, 0⟩

theorem bookkeeping_sound_one : ∃ log p, Trace 1 log p ∧ log.length = 1 ∧
    Sound 1 log p (.get [1, 2] 0) := by
  have hsome : ((newPrefixCache 1).afterCalls [.put [1, 2] 0 someLocation]).isSome = true := by
    decide +kernel
  obtain ⟨p, hp⟩ := Option.isSome_iff_exists.mp hsome
  obtain ⟨log, htrace, hlog⟩ := Trace.start.afterCalls hp
  rw [List.append_nil] at htrace
  have hcall : ∀ e ∈ log, e.call = .put [1, 2] 0 someLocation := by
    intro e he
    have hmem : e.call ∈ log.map Event.call := List.mem_map_of_mem he
    rw [hlog] at hmem
    exact List.mem_singleton.mp hmem
  refine ⟨log, p, htrace, ?_, bookkeeping_sound (by decide) htrace _ ?_ ?_ not_false⟩
  · rw [← List.length_map Event.call, hlog]
    rfl
  · rw [hlog]
    rintro t ht t' ht' -
    have hone : ∀ t ∈ [[1, 2], [(1 : Int), 2]], t = [1, 2] := by decide
    rw [hone t ht, hone t' ht']
  · intro e he
    rw [hcall e he]
    exact not_false

/-- One prefix is stored and removed, then another one is stored: the third `put` evicts the
prefix that it has just made. -/
theorem bookkeeping_not_sound : ∃ log p, Trace 1 log p ∧
    CollisionFree (.put [0] 0 someLocation :: log.map Event.call) ∧
      p.exec (.put [0] 0 someLocation) = none := by
  have hsome : (((newPrefixCache 1).afterCalls [.put [0] 0 someLocation, .remove [0] 0,
      .put [1] 0 someLocation]).any fun p => (p.exec (.put [0] 0 someLocation)).isNone) = true := by
    decide +kernel
  obtain ⟨p, hp, hnone⟩ := (Option.any_eq_true _ _).mp hsome
  obtain ⟨log, htrace, hlog⟩ := Trace.start.afterCalls hp
  rw [List.append_nil] at htrace
  refine ⟨log, p, htrace, ?_, Option.isNone_iff_eq_none.mp hnone⟩
  rw [hlog]
  intro t ht t' ht'
  have hfree : ∀ t ∈ [[0], [(1 : Int)], [0], [0]], ∀ t' ∈ [[0], [(1 : Int)], [0], [0]],
      computeHash t = computeHash t' → t = t' := by
    decide +kernel
  refine hfree t (by simpa [Call.tokens] using ht) t' (by simpa [Call.tokens] using ht')

/-! ## Which prompt an answer is for -/

/-- The bytes of two tokens are the same when the tokens are, up to multiples of 65536. -/
theorem tokenBytes_eq_iff (t t' : Int) : tokenBytes t = tokenBytes t' ↔ t % 65536 = t' % 65536 := by
  have hbyte : ∀ x y : Int, UInt8.ofNat (x % 256).toNat = UInt8.ofNat (y % 256).toNat ↔
      x % 256 = y % 256 := by
    intro x y
    rw [← UInt8.toNat_inj, UInt8.toNat_ofNat', UInt8.toNat_ofNat']
    omega
  rw [tokenBytes, tokenBytes, List.cons.injEq, List.cons.injEq, hbyte, hbyte,
    Int.shiftRight_eq_div_pow, Int.shiftRight_eq_div_pow]
  simp only [and_true]
  omega

/-- So are the bytes of two token lists. -/
theorem flatMap_tokenBytes_eq_iff (t t' : List Int) :
    t.flatMap tokenBytes = t'.flatMap tokenBytes ↔ t.map (· % 65536) = t'.map (· % 65536) := by
  induction t generalizing t' with
  | nil => cases t' <;> simp [tokenBytes]
  | cons x t ih =>
    cases t' with
    | nil => simp [tokenBytes]
    | cons y t' =>
      have hlength : (tokenBytes x).length = (tokenBytes y).length := rfl
      rw [List.flatMap_cons, List.flatMap_cons, List.map_cons, List.map_cons, List.cons.injEq,
        ← ih, ← tokenBytes_eq_iff]
      exact ⟨fun h => List.append_inj h hlength, fun h => congrArg₂ _ h.1 h.2⟩

/-- What is stored was put there under its hash. -/
def FromPuts (log : List Event) (p : PrefixCache) : Prop :=
  ∀ hash l loc, (AList.lookup hash p.prefixIndex).bind (AList.lookup l) = some loc →
    ∃ t, .put t l loc ∈ log.map Event.call ∧ computeHash t = hash

theorem FromPuts.mono {e : Event} (h : FromPuts log p) (hindex : ∀ hash l loc,
    (AList.lookup hash p'.prefixIndex).bind (AList.lookup l) = some loc →
      (AList.lookup hash p.prefixIndex).bind (AList.lookup l) = some loc) :
    FromPuts (e :: log) p' := by
  intro hash l loc hloc
  obtain ⟨t, ht, hhash⟩ := h hash l loc (hindex hash l loc hloc)
  exact ⟨t, List.mem_cons_of_mem _ ht, hhash⟩

theorem get_prefixIndex (p : PrefixCache) (t : List Int) (l : Int) :
    (p.get t l).1.prefixIndex = p.prefixIndex := by
  rw [PrefixCache.get]
  cases (AList.lookup (computeHash t) p.prefixIndex).bind (AList.lookup l) with
  | none => rfl
  | some loc =>
    rw [updateAccessOrder_eq]

theorem lookup_evictOldest {hash : UInt64} {layerMap : GoMap Int CacheLocation}
    (h : AList.lookup hash p.evictOldest.prefixIndex = some layerMap) :
    AList.lookup hash p.prefixIndex = some layerMap := by
  rw [evictOldest] at h
  split at h
  · exact h
  · rw [GoMap.lookup_erase_ite] at h
    split at h
    · cases h
    · exact h

/-- What `put` stores is what was there, and the location. -/
theorem lookup_put {t : List Int} {l : Int} {loc : CacheLocation} (hput : p.put t l loc = some p')
    {hash : UInt64} {l' : Int} {loc' : CacheLocation}
    (h : (AList.lookup hash p'.prefixIndex).bind (AList.lookup l') = some loc') :
    (hash = computeHash t ∧ l' = l ∧ loc' = loc) ∨
      (AList.lookup hash p.prefixIndex).bind (AList.lookup l') = some loc' := by
  rw [PrefixCache.put] at hput
  obtain ⟨layerMap, hlayers, rfl⟩ := Option.map_eq_some_iff.mp hput
  -- a layer map is the one that was there, or a new one
  have hold : ∀ {k m}, AList.lookup k (if (AList.lookup (computeHash t) p.prefixIndex).isSome then p
      else
        let p := { p with prefixIndex := AList.insert (computeHash t) ∅ p.prefixIndex }
        if p.maxEntries < p.prefixIndex.keys.length then p.evictOldest else p).prefixIndex = some m →
      m = ∅ ∨ AList.lookup k p.prefixIndex = some m := by
    intro k m hm
    have hinsert : AList.lookup k (AList.insert (computeHash t) ∅ p.prefixIndex) = some m →
        m = ∅ ∨ AList.lookup k p.prefixIndex = some m := by
      intro hm
      rw [GoMap.lookup_insert_ite] at hm
      split at hm
      · exact .inl (Option.some.inj hm).symm
      · exact .inr hm
    split at hm
    · exact .inr hm
    · simp only at hm
      split at hm
      · exact hinsert (lookup_evictOldest hm)
      · exact hinsert hm
  rw [store, updateAccessOrder_eq, GoMap.lookup_insert_ite] at h
  split at h
  · next heq =>
    rw [Option.bind_some, GoMap.lookup_insert_ite] at h
    split at h
    · next hl => exact .inl ⟨heq, hl, (Option.some.inj h).symm⟩
    · rcases hold hlayers with rfl | hm
      · cases h
      · right
        rw [heq, hm, Option.bind_some]
        exact h
  · obtain ⟨m, hm, hloc⟩ := Option.bind_eq_some_iff.mp h
    rcases hold hm with rfl | hm
    · cases hloc
    · right
      rw [hm, Option.bind_some]
      exact hloc

theorem Trace.fromPuts (h : Trace n log p) : FromPuts log p := by
  induction h with
  | start =>
    intro hash l loc hloc
    cases hloc
  | @call log p p' c r _ hexec ih =>
    cases c with
    | get t l =>
      refine ih.mono fun hash l' loc hloc => ?_
      have hp : (p.get t l).1 = _ := (Prod.mk.inj (Option.some.inj hexec)).1
      rw [← hp, get_prefixIndex] at hloc
      exact hloc
    | put t l loc =>
      obtain ⟨q, hput, heq⟩ := Option.map_eq_some_iff.mp hexec
      obtain rfl := (Prod.mk.inj heq).1
      intro hash l' loc' hloc
      rcases lookup_put hput hloc with ⟨rfl, rfl, rfl⟩ | hloc
      · exact ⟨t, List.mem_cons_self, rfl⟩
      · obtain ⟨t', ht', hhash⟩ := ih hash l' loc' hloc
        exact ⟨t', List.mem_cons_of_mem _ ht', hhash⟩
    | remove t l =>
      refine ih.mono fun hash l' loc hloc => ?_
      obtain rfl := (Prod.mk.inj (Option.some.inj hexec)).1
      rw [PrefixCache.remove] at hloc
      split at hloc
      · exact hloc
      · next layerMap hlayers =>
        simp only at hloc
        split at hloc
        · rw [GoMap.lookup_erase_ite] at hloc
          split at hloc
          · cases hloc
          · exact hloc
        · rw [GoMap.lookup_insert_ite] at hloc
          split at hloc
          · next heq =>
            rw [Option.bind_some, GoMap.lookup_erase_ite] at hloc
            split at hloc
            · cases hloc
            · rw [heq, hlayers, Option.bind_some]
              exact hloc
          · exact hloc
    | clear =>
      refine ih.mono fun hash l' loc hloc => ?_
      obtain rfl := (Prod.mk.inj (Option.some.inj hexec)).1
      cases hloc

/-- The truncated sum is injective on the bytes of the token lists. -/
def SumInjective (calls : List Call) : Prop :=
  ∀ t ∈ calls.filterMap Call.tokens, ∀ t' ∈ calls.filterMap Call.tokens,
    truncatedSum (t.flatMap tokenBytes) = truncatedSum (t'.flatMap tokenBytes) →
      t.flatMap tokenBytes = t'.flatMap tokenBytes

/-- When no list was put that differs from the token list by multiples of 65536 only, a location
that is found was put there for this very list. -/
theorem get_own_prompt {t : List Int} {l : Int} {loc : CacheLocation} (h : Trace n log p)
    (hsum : SumInjective (.get t l :: log.map Event.call))
    (hapart : ∀ t' l' loc', Call.put t' l' loc' ∈ log.map Event.call →
      t'.map (· % 65536) = t.map (· % 65536) → t' = t)
    (hget : (p.get t l).2 = some loc) : Call.put t l loc ∈ log.map Event.call := by
  have hloc : (AList.lookup (computeHash t) p.prefixIndex).bind (AList.lookup l) = some loc := by
    rw [PrefixCache.get] at hget
    split at hget
    · next hsome =>
      rw [hsome]
      exact hget
    · cases hget
  obtain ⟨t', ht', hhash⟩ := h.fromPuts (computeHash t) l loc hloc
  have hmem : t' ∈ (.get t l :: log.map Event.call).filterMap Call.tokens :=
    List.mem_filterMap.mpr ⟨_, List.mem_cons_of_mem _ ht', rfl⟩
  have hbytes := hsum t' hmem t List.mem_cons_self hhash
  obtain rfl := hapart t' l loc ht' ((flatMap_tokenBytes_eq_iff t' t).mp hbytes)
  exact ht'

theorem get_own_prompt_one : ∃ log p, Trace 1 log p ∧
    Call.put [1, 2] 0 someLocation ∈ log.map Event.call := by
  have hsome : (((newPrefixCache 1).afterCalls [.put [1, 2] 0 someLocation]).any fun p =>
      (p.get [1, 2] 0).2 = some someLocation) = true := by
    decide +kernel
  obtain ⟨p, hp, hget⟩ := (Option.any_eq_true _ _).mp hsome
  obtain ⟨log, htrace, hlog⟩ := Trace.start.afterCalls hp
  rw [List.append_nil] at htrace
  refine ⟨log, p, htrace, get_own_prompt htrace ?_ ?_ (of_decide_eq_true hget)⟩
  · rw [hlog]
    rintro t ht t' ht' -
    have hone : ∀ t ∈ [[1, 2], [(1 : Int), 2]], t = [1, 2] := by decide
    rw [hone t ht, hone t' ht']
  · rw [hlog]
    intro t' l' loc' hmem _
    exact (Call.put.inj (List.mem_singleton.mp hmem)).1

/-- The tokens 0 and 65536 have the same bytes. -/
theorem get_other_prompt : ∃ log p, Trace 1 log p ∧
    SumInjective (.get [65536] 0 :: log.map Event.call) ∧
      (p.get [65536] 0).2 = some someLocation ∧
        log.map Event.call = [.put [0] 0 someLocation] := by
  have hsome : (((newPrefixCache 1).afterCalls [.put [0] 0 someLocation]).any fun p =>
      (p.get [65536] 0).2 = some someLocation) = true := by
    decide +kernel
  obtain ⟨p, hp, hget⟩ := (Option.any_eq_true _ _).mp hsome
  obtain ⟨log, htrace, hlog⟩ := Trace.start.afterCalls hp
  rw [List.append_nil] at htrace
  refine ⟨log, p, htrace, ?_, of_decide_eq_true hget, hlog⟩
  rw [hlog]
  rintro t ht t' ht' -
  have hsame : ∀ t ∈ [[65536], [(0 : Int)]], t.flatMap tokenBytes = [0, 0] := by decide
  rw [hsame t ht, hsame t' ht']

end PrefixCache

end Prismalama.Ml
