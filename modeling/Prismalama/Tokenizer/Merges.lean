import Mathlib.Tactic

/-!
# The merge loop of the encoders

Both encoders keep one entry for each rune of a text, linked by indices, and a
heap of neighbours that may be joined. Joining `b` to `a` moves the runes of `b`
to `a` and unlinks `b`. `MergeRules` has what the two encoders do differently:
which neighbours are candidates, and which candidates taken from the heap are
still joined.

Whatever the order of the heap, the entries always spell the text, because a
candidate never has runes between its two entries; and the loop ends, because
every join empties an entry.
-/

namespace Prismalama.Tokenizer

/-- A heap: a queue that gives back what was put in, in some order. -/
structure Heap (π : Type*) where
  push : List π → π → List π
  pop : List π → Option (π × List π)
  push_perm : ∀ q x, (push q x).Perm (x :: q)
  pop_perm : ∀ q x q', pop q = some (x, q') → q.Perm (x :: q')
  pop_isSome : ∀ x q, (pop (x :: q)).isSome = true

/-- Take out the first of the least elements. -/
def popLeast {π : Type*} (less : π → π → Bool) : List π → Option (π × List π)
  | [] => none
  | x :: q =>
    match popLeast less q with
    | none => some (x, q)
    | some (y, rest) => if less y x then some (y, x :: rest) else some (x, q)

theorem perm_of_popLeast {π : Type*} {less : π → π → Bool} {q : List π} {x : π} {q' : List π}
    (h : popLeast less q = some (x, q')) : q.Perm (x :: q') := by
  induction q generalizing x q' with
  | nil => cases h
  | cons y q ih =>
    unfold popLeast at h
    split at h
    · cases h
      exact List.Perm.refl _
    · rename_i z rest hz
      split at h
      · cases h
        exact ((ih hz).cons y).trans (List.Perm.swap _ _ _)
      · cases h
        exact List.Perm.refl _

/-- A heap that keeps its elements in the order in which they came. -/
def Heap.ofLess {π : Type*} (less : π → π → Bool) : Heap π where
  push q x := q ++ [x]
  pop := popLeast less
  push_perm q x := List.perm_append_singleton x q
  pop_perm _ _ _ := perm_of_popLeast
  pop_isSome x q := by
    unfold popLeast
    split
    · rfl
    · split <;> rfl

structure Merge where
  p : Int
  n : Nat
  runes : List Char

/-- A candidate: two entries, and what the encoder notes about them. -/
structure Pair (κ : Type*) where
  a : Nat
  b : Nat
  key : κ

structure MergeRules (κ : Type*) where
  /-- What `pairwise` notes about two neighbours; `none` for no candidate. -/
  key : List Char → List Char → Option κ
  /-- A candidate from the heap is joined. -/
  joins : κ → List Char → List Char → Bool

variable {κ : Type*}

/-- `merges[i]` -/
def entry (merges : List Merge) (i : Nat) : Merge := merges.getD i ⟨-1, 0, []⟩

/-- `pairwise` -/
def pairwise (R : MergeRules κ) (merges : List Merge) (a : Int) (b : Nat) : Option (Pair κ) :=
  if a < 0 ∨ merges.length ≤ b then none
  else
    (R.key (entry merges a.toNat).runes (entry merges b).runes).map fun key => ⟨a.toNat, b, key⟩

def pushPair (heap : Heap (Pair κ)) (q : List (Pair κ)) : Option (Pair κ) → List (Pair κ)
  | none => q
  | some x => heap.push q x

/-- The entries after `b` is joined to `a`. -/
def join (merges : List Merge) (a b : Nat) : List Merge :=
  let left := entry merges a
  let right := entry merges b
  let joined := (merges.set a ⟨left.p, right.n, left.runes ++ right.runes⟩).set b
    ⟨right.p, right.n, []⟩
  if right.n < merges.length then joined.modify right.n fun m => { m with p := a } else joined

/-- The loop over the heap; `none` when it goes on after `fuel` rounds. -/
def mergeLoop (R : MergeRules κ) (heap : Heap (Pair κ)) :
    Nat → List Merge → List (Pair κ) → Option (List Merge)
  | 0, merges, q => if (heap.pop q).isNone then some merges else none
  | fuel + 1, merges, q =>
    match heap.pop q with
    | none => some merges
    | some (x, q) =>
      let left := (entry merges x.a).runes
      let right := (entry merges x.b).runes
      if left = [] ∨ right = [] ∨ R.joins x.key left right = false then
        mergeLoop R heap fuel merges q
      else
        let merges := join merges x.a x.b
        let q := pushPair heap q (pairwise R merges (entry merges x.a).p x.a)
        let q := pushPair heap q (pairwise R merges x.a (entry merges x.a).n)
        mergeLoop R heap fuel merges q

/-- One entry for each rune. -/
def startMerges (runes : List Char) : List Merge :=
  runes.zipIdx.map fun r => ⟨r.2 - 1, r.2 + 1, [r.1]⟩

/-- The neighbours that are candidates at the start. -/
def startPairs (R : MergeRules κ) (heap : Heap (Pair κ)) (merges : List Merge) : List (Pair κ) :=
  (List.range (merges.length - 1)).foldl
    (fun q (i : Nat) => pushPair heap q (pairwise R merges i (i + 1))) []

/-- The pieces that the loop leaves; `none` when it does not end. -/
def mergeRunes (R : MergeRules κ) (heap : Heap (Pair κ)) (runes : List Char) :
    Option (List (List Char)) :=
  let merges := startMerges runes
  let q := startPairs R heap merges
  (mergeLoop R heap (3 * runes.length + q.length) merges q).map fun merges =>
    (merges.map Merge.runes).filter (· ≠ [])

/-! ## Lists of pieces -/

theorem flatten_set_nil {α : Type*} (ls : List (List α)) {b : Nat} {r : List α}
    (hb : ls[b]? = some r) (hgap : ∀ k < b, ls[k]? = some []) :
    r ++ (ls.set b []).flatten = ls.flatten := by
  induction ls generalizing b with
  | nil => simp at hb
  | cons l ls ih =>
    cases b with
    | zero =>
      simp only [List.getElem?_cons_zero, Option.some.injEq] at hb
      simp [hb]
    | succ b =>
      have hl : l = [] := by simpa using hgap 0 (Nat.succ_pos b)
      have hrest := ih (by simpa using hb) fun k hk => by
        simpa using hgap (k + 1) (Nat.succ_lt_succ hk)
      simpa [hl] using hrest

/-- Joining two pieces with nothing between them spells the same. -/
theorem flatten_join {α : Type*} {ls : List (List α)} {a b : Nat} {l r : List α} (hab : a < b)
    (ha : ls[a]? = some l) (hb : ls[b]? = some r)
    (hgap : ∀ k, a < k → k < b → ls[k]? = some []) :
    ((ls.set a (l ++ r)).set b []).flatten = ls.flatten := by
  induction ls generalizing a b with
  | nil => simp at ha
  | cons x ls ih =>
    cases b with
    | zero => omega
    | succ b =>
      cases a with
      | zero =>
        simp only [List.getElem?_cons_zero, Option.some.injEq] at ha
        have hrest := flatten_set_nil ls (b := b) (by simpa using hb) fun k hk => by
          simpa using hgap (k + 1) (Nat.succ_pos k) (Nat.succ_lt_succ hk)
        simp [ha, hrest]
      | succ a =>
        have hrest := ih (a := a) (b := b) (by omega) (by simpa using ha) (by simpa using hb)
          fun k hk hk' => by
            simpa using hgap (k + 1) (Nat.succ_lt_succ hk) (Nat.succ_lt_succ hk')
        simpa using hrest

/-! ## The invariant -/

/-- There is nothing between two entries. -/
def Gap (pieces : List (List Char)) (i j : Nat) : Prop :=
  ∀ k, i < k → k < j → pieces[k]? = some []

/-- What the entries spell, one by one. -/
def pieces (merges : List Merge) : List (List Char) := merges.map Merge.runes

/-- The links of an entry skip only empty entries. -/
structure Linked (merges : List Merge) : Prop where
  next : ∀ i m, merges[i]? = some m → i < m.n ∧ m.n ≤ merges.length ∧ Gap (pieces merges) i m.n
  prev : ∀ i m, merges[i]? = some m → ∀ j : Nat, m.p = (j : Int) → j < i ∧ Gap (pieces merges) j i

/-- The entries of a candidate are in order, with nothing between them. -/
def Pair.Ok (x : Pair κ) (merges : List Merge) : Prop :=
  x.a < x.b ∧ x.b < merges.length ∧ Gap (pieces merges) x.a x.b

/-- The entries spell the text, in pieces that `P` holds of. -/
structure Inv (P : List Char → Prop) (runes : List Char) (merges : List Merge)
    (q : List (Pair κ)) : Prop where
  spelled : (pieces merges).flatten = runes
  good : ∀ piece ∈ pieces merges, piece ≠ [] → P piece
  linked : Linked merges
  pairs : ∀ x ∈ q, x.Ok merges

theorem exists_entry {merges : List Merge} {i : Nat} (h : i < merges.length) :
    merges[i]? = some (entry merges i) := by
  rw [List.getElem?_eq_getElem h, entry, List.getD_eq_getElem?_getD, List.getElem?_eq_getElem h]
  rfl

theorem getElem?_pieces {merges : List Merge} {i : Nat} (h : i < merges.length) :
    (pieces merges)[i]? = some (entry merges i).runes := by
  rw [pieces, List.getElem?_map, exists_entry h]
  rfl

theorem length_pieces (merges : List Merge) : (pieces merges).length = merges.length :=
  List.length_map _

/-! ## One join -/

section Join

variable {merges : List Merge} {a b : Nat}

theorem length_join (merges : List Merge) (a b : Nat) :
    (join merges a b).length = merges.length := by
  simp only [join]
  split <;> simp

theorem pieces_join (merges : List Merge) (a b : Nat) :
    pieces (join merges a b) =
      ((pieces merges).set a ((entry merges a).runes ++ (entry merges b).runes)).set b [] := by
  have hmodify : ∀ (ms : List Merge) (i : Nat),
      (ms.modify i fun m => { m with p := a }).map Merge.runes = ms.map Merge.runes := by
    intro ms i
    refine List.ext_getElem? fun k => ?_
    rw [List.getElem?_map, List.getElem?_map, List.getElem?_modify]
    split <;> cases ms[k]? <;> rfl
  simp only [join, pieces]
  split
  · rw [hmodify, List.map_set, List.map_set]
  · rw [List.map_set, List.map_set]

/-- The links after a join: only the two ends of the new piece have new ones. -/
theorem getElem?_join (hab : a < b) (hb : b < merges.length) {i : Nat} {m' : Merge}
    (h : (join merges a b)[i]? = some m') :
    ∃ m, merges[i]? = some m ∧ m'.n = (if i = a then (entry merges b).n else m.n) ∧
      (m'.p = m.p ∨ (i = (entry merges b).n ∧ m'.p = a)) := by
  have hi : i < merges.length := by
    rw [← length_join merges a b]
    exact (List.getElem?_eq_some_iff.mp h).1
  refine ⟨entry merges i, exists_entry hi, ?_⟩
  -- before the link back is set
  have hset : ∀ m', (((merges.set a ⟨(entry merges a).p, (entry merges b).n,
      (entry merges a).runes ++ (entry merges b).runes⟩).set b
      ⟨(entry merges b).p, (entry merges b).n, []⟩)[i]? = some m') →
      m'.n = (if i = a then (entry merges b).n else (entry merges i).n) ∧
        m'.p = (entry merges i).p := by
    intro m' hm'
    rw [List.getElem?_set] at hm'
    split at hm'
    · rename_i hbi
      rw [List.length_set, if_pos hb] at hm'
      cases hm'
      subst hbi
      rw [if_neg (Nat.ne_of_gt hab)]
      exact ⟨rfl, rfl⟩
    · rw [List.getElem?_set] at hm'
      split at hm'
      · rename_i hai
        rw [if_pos (hab.trans hb)] at hm'
        cases hm'
        subst hai
        rw [if_pos rfl]
        exact ⟨rfl, rfl⟩
      · rename_i hai
        rw [exists_entry hi] at hm'
        cases hm'
        rw [if_neg (Ne.symm hai)]
        exact ⟨rfl, rfl⟩
  simp only [join] at h
  split at h
  · rw [List.getElem?_modify] at h
    obtain ⟨m₀, hm₀, rfl⟩ := Option.map_eq_some_iff.mp h
    obtain ⟨hn, hp⟩ := hset m₀ hm₀
    split
    · rename_i hir
      exact ⟨hn, .inr ⟨hir.symm, rfl⟩⟩
    · exact ⟨hn, .inl hp⟩
  · obtain ⟨hn, hp⟩ := hset m' h
    exact ⟨hn, .inl hp⟩

/-- What is empty stays empty, and the entry that is joined becomes empty. -/
theorem getElem?_pieces_join (hab : a < b) (hb : b < merges.length)
    (hleft : (entry merges a).runes ≠ []) {k : Nat} :
    ((pieces merges)[k]? = some [] → (pieces (join merges a b))[k]? = some []) ∧
      (pieces (join merges a b))[b]? = some [] := by
  have hlen := length_pieces merges
  rw [pieces_join]
  refine ⟨fun hk => ?_, ?_⟩
  · have hka : a ≠ k := by
      rintro rfl
      rw [getElem?_pieces (hab.trans hb)] at hk
      exact hleft (Option.some.inj hk)
    rw [List.getElem?_set]
    split
    · rw [if_pos (by rw [List.length_set]; omega)]
    · rw [List.getElem?_set_ne hka, hk]
  · rw [List.getElem?_set_self (by rw [List.length_set]; omega)]

theorem Gap.join {i j : Nat} (h : Gap (pieces merges) i j) (hab : a < b) (hb : b < merges.length)
    (hleft : (entry merges a).runes ≠ []) : Gap (pieces (join merges a b)) i j := fun k hk hk' =>
  (getElem?_pieces_join hab hb hleft).1 (h k hk hk')

/-- From the new piece to what follows it there is nothing. -/
theorem gap_join_next (hl : Linked merges) (hab : a < b) (hb : b < merges.length)
    (hgap : Gap (pieces merges) a b) (hleft : (entry merges a).runes ≠ []) :
    Gap (pieces (join merges a b)) a (entry merges b).n := by
  intro k hk hk'
  obtain ⟨-, -, hnext⟩ := hl.next b _ (exists_entry hb)
  rcases lt_trichotomy k b with hlt | rfl | hgt
  · exact hgap.join hab hb hleft k hk hlt
  · exact (getElem?_pieces_join (k := k) hab hb hleft).2
  · exact hnext.join hab hb hleft k hgt hk'

theorem Linked.join (hl : Linked merges) (hab : a < b) (hb : b < merges.length)
    (hgap : Gap (pieces merges) a b) (hleft : (entry merges a).runes ≠ []) :
    Linked (join merges a b) := by
  obtain ⟨hbn, hnlen, -⟩ := hl.next b _ (exists_entry hb)
  constructor
  · intro i m' hm'
    obtain ⟨m, hm, hn, -⟩ := getElem?_join hab hb hm'
    rw [length_join, hn]
    split
    · rename_i hia
      subst hia
      exact ⟨hab.trans hbn, hnlen, gap_join_next hl hab hb hgap hleft⟩
    · obtain ⟨hlt, hle, hg⟩ := hl.next i m hm
      exact ⟨hlt, hle, hg.join hab hb hleft⟩
  · intro i m' hm' j hj
    obtain ⟨m, hm, -, hp⟩ := getElem?_join hab hb hm'
    rcases hp with hp | ⟨rfl, hp⟩
    · obtain ⟨hlt, hg⟩ := hl.prev i m hm j (hp.symm.trans hj)
      exact ⟨hlt, hg.join hab hb hleft⟩
    · have hja : a = j := by
        rw [hj] at hp
        exact (Int.natCast_inj.mp hp).symm
      subst hja
      exact ⟨hab.trans hbn, gap_join_next hl hab hb hgap hleft⟩

theorem spelled_join (hab : a < b) (hb : b < merges.length) (hgap : Gap (pieces merges) a b) :
    (pieces (join merges a b)).flatten = (pieces merges).flatten := by
  rw [pieces_join]
  exact flatten_join hab (getElem?_pieces (hab.trans hb)) (getElem?_pieces hb) hgap

/-- A join leaves one piece less. -/
theorem countP_join (hab : a < b) (hb : b < merges.length) (hleft : (entry merges a).runes ≠ [])
    (hright : (entry merges b).runes ≠ []) :
    (pieces (join merges a b)).countP (· ≠ []) + 1 = (pieces merges).countP (· ≠ []) := by
  have ha := hab.trans hb
  obtain ⟨hla, hga⟩ := List.getElem?_eq_some_iff.mp (getElem?_pieces ha)
  obtain ⟨hlb, hgb⟩ := List.getElem?_eq_some_iff.mp (getElem?_pieces hb)
  have hpos : 0 < (pieces merges).countP (· ≠ []) :=
    List.countP_pos_iff.mpr ⟨_, List.getElem_mem hla,
      by rw [hga]; simpa using hleft⟩
  rw [pieces_join, List.countP_set (by rw [List.length_set]; exact hlb), List.countP_set hla,
    List.getElem_set_ne (Nat.ne_of_lt hab), hga, hgb]
  simp only [ne_eq, hleft, not_false_eq_true, decide_true, if_true, hright, List.append_eq_nil_iff,
    false_and, not_true_eq_false, decide_false, Bool.false_eq_true, if_false] at hpos ⊢
  omega

end Join

/-! ## Candidates -/

theorem pairwise_ok {R : MergeRules κ} {merges : List Merge} {a : Int} {b : Nat} {x : Pair κ}
    (h : pairwise R merges a b = some x)
    (hgap : ∀ j : Nat, a = (j : Int) → j < b ∧ Gap (pieces merges) j b) : x.Ok merges := by
  unfold pairwise at h
  split at h
  · cases h
  · rename_i hin
    obtain ⟨key, -, rfl⟩ := Option.map_eq_some_iff.mp h
    obtain ⟨hlt, hg⟩ := hgap a.toNat (by omega)
    exact ⟨hlt, not_le.mp fun hle => hin (.inr hle), hg⟩

theorem mem_pushPair {heap : Heap (Pair κ)} {q : List (Pair κ)} {o : Option (Pair κ)} {x : Pair κ}
    (h : x ∈ pushPair heap q o) : x ∈ q ∨ o = some x := by
  cases o with
  | none => exact .inl h
  | some y =>
    rcases List.mem_cons.mp ((heap.push_perm q y).mem_iff.mp h) with rfl | hx
    · exact .inr rfl
    · exact .inl hx

theorem length_pushPair_le (heap : Heap (Pair κ)) (q : List (Pair κ)) (o : Option (Pair κ)) :
    (pushPair heap q o).length ≤ q.length + 1 := by
  cases o with
  | none => exact Nat.le_succ q.length
  | some x =>
    have hlen := (heap.push_perm q x).length_eq
    rw [List.length_cons] at hlen
    exact le_of_eq hlen

/-- The candidates after a join are the new piece with its two neighbours. -/
theorem ok_of_mem_pushed {R : MergeRules κ} {heap : Heap (Pair κ)} {merges : List Merge}
    {q : List (Pair κ)} {a : Nat} (hl : Linked merges) (ha : a < merges.length)
    (hq : ∀ x ∈ q, x.Ok merges) {x : Pair κ}
    (hx : x ∈ pushPair heap (pushPair heap q (pairwise R merges (entry merges a).p a))
      (pairwise R merges a (entry merges a).n)) : x.Ok merges := by
  rcases mem_pushPair hx with hx | hx
  · rcases mem_pushPair hx with hx | hx
    · exact hq x hx
    · exact pairwise_ok hx (hl.prev a _ (exists_entry ha))
  · refine pairwise_ok hx fun j hj => ?_
    have haj : a = j := Int.natCast_inj.mp hj
    subst haj
    obtain ⟨hlt, -, hg⟩ := hl.next a _ (exists_entry ha)
    exact ⟨hlt, hg⟩

/-! ## The loop -/

section Loop

variable {R : MergeRules κ} {heap : Heap (Pair κ)} {P : List Char → Prop} {runes : List Char}

/-- A candidate that is joined keeps the invariant. -/
theorem Inv.join {merges : List Merge} {x : Pair κ} {q : List (Pair κ)}
    (h : Inv P runes merges (x :: q))
    (hP : P ((entry merges x.a).runes ++ (entry merges x.b).runes))
    (hleft : (entry merges x.a).runes ≠ []) :
    Inv P runes (join merges x.a x.b) q := by
  obtain ⟨hab, hb, hgap⟩ := h.pairs x List.mem_cons_self
  refine ⟨(spelled_join hab hb hgap).trans h.spelled, ?_, h.linked.join hab hb hgap hleft, ?_⟩
  · intro piece hpiece hne
    rw [pieces_join] at hpiece
    rcases List.mem_or_eq_of_mem_set hpiece with hpiece | rfl
    · rcases List.mem_or_eq_of_mem_set hpiece with hpiece | rfl
      · exact h.good piece hpiece hne
      · exact hP
    · exact absurd rfl hne
  · intro y hy
    obtain ⟨hab', hb', hgap'⟩ := h.pairs y (List.mem_cons_of_mem x hy)
    exact ⟨hab', by rw [length_join]; exact hb', hgap'.join hab hb hleft⟩

variable (heap) in
/-- The loop ends and keeps the invariant, for a property that every join keeps. -/
theorem mergeLoop_spec
    (hjoin : ∀ l r key, P l → P r → R.joins key l r = true → P (l ++ r)) :
    ∀ (fuel : Nat) (merges : List Merge) (q : List (Pair κ)), Inv P runes merges q →
      3 * (pieces merges).countP (· ≠ []) + q.length ≤ fuel →
      ∃ merges', mergeLoop R heap fuel merges q = some merges' ∧
        (pieces merges').flatten = runes ∧ ∀ piece ∈ pieces merges', piece ≠ [] → P piece := by
  intro fuel
  induction fuel with
  | zero =>
    intro merges q hinv hfuel
    have hq : q = [] := List.length_eq_zero_iff.mp (by omega)
    subst hq
    have hpop : heap.pop [] = none := by
      cases hpop : heap.pop [] with
      | none => rfl
      | some out => exact absurd (heap.pop_perm [] out.1 out.2 hpop).nil_eq (List.cons_ne_nil _ _).symm
    refine ⟨merges, ?_, hinv.spelled, hinv.good⟩
    rw [mergeLoop, hpop]
    rfl
  | succ fuel ih =>
    intro merges q hinv hfuel
    rw [mergeLoop]
    cases hpop : heap.pop q with
    | none => exact ⟨merges, rfl, hinv.spelled, hinv.good⟩
    | some out =>
      obtain ⟨x, rest⟩ := out
      have hperm := heap.pop_perm q x rest hpop
      have hlen := hperm.length_eq
      rw [List.length_cons] at hlen
      have hinv' : Inv P runes merges (x :: rest) :=
        ⟨hinv.spelled, hinv.good, hinv.linked, fun y hy => hinv.pairs y (hperm.mem_iff.mpr hy)⟩
      obtain ⟨hab, hb, -⟩ := hinv'.pairs x List.mem_cons_self
      simp only
      split
      · exact ih merges rest ⟨hinv.spelled, hinv.good, hinv.linked,
          fun y hy => hinv'.pairs y (List.mem_cons_of_mem x hy)⟩ (by omega)
      · rename_i hjoins
        rw [not_or, not_or, Bool.not_eq_false] at hjoins
        obtain ⟨hleft, hright, hjoins⟩ := hjoins
        have hP := hjoin _ _ x.key
          (hinv.good _ (List.mem_of_getElem? (getElem?_pieces (hab.trans hb))) hleft)
          (hinv.good _ (List.mem_of_getElem? (getElem?_pieces hb)) hright) hjoins
        have hnew := hinv'.join hP hleft
        have hcount := countP_join hab hb hleft hright
        have hlen₁ := length_pushPair_le heap rest
          (pairwise R (join merges x.a x.b) (entry (join merges x.a x.b) x.a).p x.a)
        have hlen₂ := length_pushPair_le heap (pushPair heap rest
            (pairwise R (join merges x.a x.b) (entry (join merges x.a x.b) x.a).p x.a))
          (pairwise R (join merges x.a x.b) x.a (entry (join merges x.a x.b) x.a).n)
        refine ih _ _ ⟨hnew.spelled, hnew.good, hnew.linked, fun y hy => ?_⟩ (by omega)
        exact ok_of_mem_pushed hnew.linked (by rw [length_join]; exact hab.trans hb) hnew.pairs hy

theorem getElem?_startMerges {i : Nat} {m : Merge} (h : (startMerges runes)[i]? = some m) :
    m.p = (i : Int) - 1 ∧ m.n = i + 1 ∧ i < runes.length := by
  unfold startMerges at h
  rw [List.getElem?_map] at h
  obtain ⟨r, hr, rfl⟩ := Option.map_eq_some_iff.mp h
  rw [List.getElem?_zipIdx] at hr
  obtain ⟨c, hc, rfl⟩ := Option.map_eq_some_iff.mp hr
  have hlt := (List.getElem?_eq_some_iff.mp hc).1
  simp [hlt]

theorem pieces_startMerges (runes : List Char) :
    pieces (startMerges runes) = runes.map fun c => [c] := by
  unfold pieces startMerges
  rw [List.map_map]
  refine List.ext_getElem? fun i => ?_
  rw [List.getElem?_map, List.getElem?_map, List.getElem?_zipIdx]
  cases runes[i]? <;> rfl

theorem linked_startMerges (runes : List Char) : Linked (startMerges runes) := by
  have hlen : (startMerges runes).length = runes.length := by simp [startMerges]
  constructor
  · intro i m hm
    obtain ⟨-, hn, hlt⟩ := getElem?_startMerges hm
    exact ⟨by omega, by omega, fun k hk hk' => by omega⟩
  · intro i m hm j hj
    obtain ⟨hp, -, -⟩ := getElem?_startMerges hm
    exact ⟨by omega, fun k hk hk' => by omega⟩

theorem ok_of_mem_startPairs {merges : List Merge} {x : Pair κ}
    (hx : x ∈ startPairs R heap merges) : x.Ok merges := by
  have hloop : ∀ (is : List Nat) (q : List (Pair κ)), (∀ y ∈ q, y.Ok merges) →
      ∀ y ∈ is.foldl (fun q (i : Nat) => pushPair heap q (pairwise R merges i (i + 1))) q,
        y.Ok merges := by
    intro is
    induction is with
    | nil => exact fun q hq => hq
    | cons i is ih =>
      intro q hq
      refine ih _ fun y hy => ?_
      rcases mem_pushPair hy with hy | hy
      · exact hq y hy
      · refine pairwise_ok hy fun j hj => ?_
        have hij : i = j := Int.natCast_inj.mp hj
        exact ⟨by omega, fun k hk hk' => by omega⟩
  exact hloop _ [] (fun y hy => absurd hy List.not_mem_nil) x hx

/-- The pieces spell the text, and a property of single runes that every join
keeps holds of them. -/
theorem mergeRunes_spec (runes : List Char) (R : MergeRules κ) (heap : Heap (Pair κ))
    (hone : ∀ c ∈ runes, P [c])
    (hjoin : ∀ l r key, P l → P r → R.joins key l r = true → P (l ++ r)) :
    ∃ ps, mergeRunes R heap runes = some ps ∧ ps.flatten = runes ∧ ∀ p ∈ ps, P p := by
  have hcount : (pieces (startMerges runes)).countP (· ≠ []) ≤ runes.length := by
    refine List.countP_le_length.trans ?_
    rw [length_pieces]
    simp [startMerges]
  have hinv : Inv P runes (startMerges runes) (startPairs R heap (startMerges runes)) := by
    refine ⟨?_, ?_, linked_startMerges runes, fun x hx => ok_of_mem_startPairs hx⟩
    · rw [pieces_startMerges, ← List.flatMap_def, List.flatMap_singleton']
    · rw [pieces_startMerges]
      intro piece hpiece _
      obtain ⟨c, hc, rfl⟩ := List.mem_map.mp hpiece
      exact hone c hc
  obtain ⟨merges, hmerges, hspelled, hgood⟩ := mergeLoop_spec heap hjoin
    (3 * runes.length + (startPairs R heap (startMerges runes)).length) _ _ hinv (by omega)
  refine ⟨(pieces merges).filter (· ≠ []), ?_, ?_, ?_⟩
  · simp only [mergeRunes, hmerges, Option.map_some, pieces]
  · rw [← hspelled]
    exact List.flatten_filter_ne_nil
  · intro p hp
    obtain ⟨hmem, hne⟩ := List.mem_filter.mp hp
    exact hgood p hmem (by simpa using hne)

end Loop

end Prismalama.Tokenizer
