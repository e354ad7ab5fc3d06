import Prismalama.Kvcache.RecurrentCheckpoints
import Prismalama.Lib.TSys

/-!
# The ring of a checkpoint store (`kvcache/recurrent_checkpoints.go`)

Behind the next entry come the empty ones and then the live ones in the order of their positions,
once around the array (`RingOf`). `record` keeps it so. `pruneAfter` and `shiftRange` begin with the
first empty entry of the array, which need not be the one behind the newest: they keep it so when
what they cut out is at one end of the order and the gap does not go over the end of the array.
-/

namespace Prismalama.Kvcache

open Prismalama.Lib

namespace SlotCheckpointStore

variable {R : Type*}

/-! ## Operations -/

inductive Op
  | record (pos : Int)
  | pruneAfter (pos : Int)
  | shiftRange (beginIndex endIndex : Int)

def apply (s : SlotCheckpointStore R) : Op → SlotCheckpointStore R
  | .record pos => (s.record pos).1
  | .pruneAfter pos => s.pruneAfter pos
  | .shiftRange beginIndex endIndex => s.shiftRange beginIndex endIndex

/-- Positions are of `int32`, and a recorded one is past the last one. -/
def Valid (s : SlotCheckpointStore R) : Op → Prop
  | .record pos => s.lastPos < pos ∧ i32 pos = pos
  | .pruneAfter pos => i32 pos = pos
  | .shiftRange beginIndex endIndex => i32 beginIndex = beginIndex ∧ i32 endIndex = endIndex

/-- A store of `n` entries. -/
def ring (R : Type*) (n : Nat) : TSys (SlotCheckpointStore R) Op where
  init s := s = newSlotCheckpointStore n
  step s op s' := s.Valid op ∧ s' = s.apply op

/-- `size` counts the live entries, and `record` takes an empty entry as long as there is one, then
the one with the smallest position. -/
structure Bookkeeping (s : SlotCheckpointStore R) : Prop where
  counted : s.size = s.entries.countP fun entry => 0 ≤ entry.pos
  takes_empty : ∀ pos i, (s.record pos).2 = some i → (∃ entry ∈ s.entries, entry.pos < 0) →
    ∃ entry, s.entries[i]? = some entry ∧ entry.pos < 0
  takes_oldest : ∀ pos i, (s.record pos).2 = some i → (∀ entry ∈ s.entries, 0 ≤ entry.pos) →
    ∃ entry, s.entries[i]? = some entry ∧ ∀ entry' ∈ s.entries, entry.pos ≤ entry'.pos

/-! ## The order of the ring -/

/-- Positions of live entries from the oldest to the newest. -/
structure Aged (lastPos : Int) (entries : List (CheckpointEntry R)) : Prop where
  increasing : entries.Pairwise fun a b => a.pos < b.pos
  live : ∀ entry ∈ entries, 0 ≤ entry.pos
  le_lastPos : ∀ entry ∈ entries, entry.pos ≤ lastPos
  le_maxInt32 : ∀ entry ∈ entries, entry.pos ≤ maxInt32

/-- The entries of an array: in front the newest ones, then the empty ones, then the oldest. -/
structure Layout (entries : List (CheckpointEntry R)) (lastPos : Int)
    (newer empty older : List (CheckpointEntry R)) : Prop where
  entries_eq : entries = newer ++ (empty ++ older)
  rest : empty ++ older ≠ []
  dead : ∀ entry ∈ empty, entry.pos < 0
  aged : Aged lastPos (older ++ newer)

structure RingOf (s : SlotCheckpointStore R)
    (newer empty older : List (CheckpointEntry R)) : Prop extends
    Layout s.entries s.lastPos newer empty older where
  next_eq : s.next = newer.length
  size_eq : s.size = (older ++ newer).length
  lastPos_ge : -1 ≤ s.lastPos

def Ring (s : SlotCheckpointStore R) : Prop := ∃ newer empty older, RingOf s newer empty older

theorem aged_nil (lastPos : Int) : Aged lastPos ([] : List (CheckpointEntry R)) :=
  ⟨.nil, fun _ h => absurd h List.not_mem_nil, fun _ h => absurd h List.not_mem_nil,
    fun _ h => absurd h List.not_mem_nil⟩

/-- How many entries of an array are live. -/
theorem Layout.countP {entries newer empty older : List (CheckpointEntry R)} {lastPos : Int}
    (h : Layout entries lastPos newer empty older) :
    (entries.countP fun entry => 0 ≤ entry.pos) = (older ++ newer).length := by
  have hlive : ∀ l : List (CheckpointEntry R), (∀ entry ∈ l, 0 ≤ entry.pos) →
      (l.countP fun entry => 0 ≤ entry.pos) = l.length :=
    fun l hl => List.countP_eq_length.mpr fun entry hentry => decide_eq_true (hl entry hentry)
  have hdead : (empty.countP fun entry => 0 ≤ entry.pos) = 0 := by
    refine List.countP_eq_zero.mpr fun entry hentry => ?_
    have := h.dead entry hentry
    rw [decide_eq_true_eq]
    omega
  have holder := hlive older fun e he => h.aged.live e (List.mem_append_left _ he)
  have hnewer := hlive newer fun e he => h.aged.live e (List.mem_append_right _ he)
  rw [h.entries_eq, List.countP_append, List.countP_append, holder, hnewer, hdead,
    List.length_append]
  omega

theorem Ring.bookkeeping {s : SlotCheckpointStore R} (h : s.Ring) : s.Bookkeeping := by
  obtain ⟨newer, empty, older, h⟩ := h
  have hne : s.entries ≠ [] := by
    rw [h.entries_eq]
    exact fun hnil => h.rest (List.append_eq_nil_iff.mp hnil).2
  have hidx : ∀ pos i, (s.record pos).2 = some i → i = newer.length := by
    intro pos i hi
    rw [record, if_neg hne] at hi
    exact (Option.some.inj hi).symm.trans h.next_eq
  have hget : s.entries[newer.length]? = (empty ++ older).head? := by
    rw [h.entries_eq, List.getElem?_append_right (le_refl _), Nat.sub_self, List.head?_eq_getElem?]
  refine ⟨h.size_eq.trans h.toLayout.countP.symm, fun pos i hi hempty => ?_,
    fun pos i hi hfull => ?_⟩
  · rw [hidx pos i hi, hget]
    cases empty with
    | cons entry empty => exact ⟨entry, rfl, h.dead entry List.mem_cons_self⟩
    | nil =>
      obtain ⟨entry, hentry, hdead⟩ := hempty
      rw [h.entries_eq, List.nil_append] at hentry
      have hlive := h.aged.live entry
        (List.mem_append.mpr (List.mem_append.mp hentry).symm)
      omega
  · rw [hidx pos i hi, hget]
    cases empty with
    | cons entry empty =>
      have hdead := h.dead entry List.mem_cons_self
      have hlive := hfull entry (h.entries_eq ▸ List.mem_append_right _
        (List.mem_append_left _ List.mem_cons_self))
      omega
    | nil =>
      cases older with
      | nil => exact absurd rfl h.rest
      | cons oldest older =>
        refine ⟨oldest, rfl, fun entry hentry => ?_⟩
        rw [h.entries_eq, List.nil_append] at hentry
        have hmem : entry ∈ oldest :: (older ++ newer) :=
          List.mem_append.mpr (List.mem_append.mp hentry).symm
        rcases List.mem_cons.mp hmem with rfl | hmem
        · exact le_refl _
        · exact ((List.pairwise_cons.mp h.aged.increasing).1 entry hmem).le

/-! ## record -/

theorem Aged.concat {lastPos pos : Int} {entries : List (CheckpointEntry R)}
    (h : Aged lastPos entries) (hpos : lastPos < pos) (hlast : -1 ≤ lastPos)
    (hmax : pos ≤ maxInt32) (saved : GoMap StateBuffer R) : Aged pos (entries ++ [⟨pos, saved⟩]) := by
  refine ⟨List.pairwise_append.mpr ⟨h.increasing, List.pairwise_singleton .., ?_⟩, ?_, ?_, ?_⟩
  · intro a ha b hb
    rw [List.mem_singleton.mp hb]
    exact (h.le_lastPos a ha).trans_lt hpos
  · intro entry hentry
    rcases List.mem_append.mp hentry with hentry | hentry
    · exact h.live entry hentry
    · rw [List.mem_singleton.mp hentry]
      show 0 ≤ pos
      omega
  · intro entry hentry
    rcases List.mem_append.mp hentry with hentry | hentry
    · exact (h.le_lastPos entry hentry).trans hpos.le
    · rw [List.mem_singleton.mp hentry]
  · intro entry hentry
    rcases List.mem_append.mp hentry with hentry | hentry
    · exact h.le_maxInt32 entry hentry
    · rw [List.mem_singleton.mp hentry]
      exact hmax

theorem Aged.tail {lastPos : Int} {entry : CheckpointEntry R} {entries : List (CheckpointEntry R)}
    (h : Aged lastPos (entry :: entries)) : Aged lastPos entries :=
  ⟨(List.pairwise_cons.mp h.increasing).2, fun e he => h.live e (List.mem_cons_of_mem _ he),
    fun e he => h.le_lastPos e (List.mem_cons_of_mem _ he),
    fun e he => h.le_maxInt32 e (List.mem_cons_of_mem _ he)⟩

theorem modify_append_cons {α : Type*} (f : α → α) (before : List α) (x : α) (behind : List α) :
    (before ++ x :: behind).modify before.length f = before ++ f x :: behind := by
  induction before with
  | nil => rfl
  | cons y before ih => rw [List.cons_append, List.length_cons, List.modify_succ_cons, ih,
      List.cons_append]

theorem ring_newSlotCheckpointStore {n : Nat} (hn : 0 < n) :
    (newSlotCheckpointStore n : SlotCheckpointStore R).Ring := by
  refine ⟨[], List.replicate n ⟨-1, ∅⟩, [], ⟨(List.append_nil _).symm, ?_, ?_, aged_nil _⟩, rfl,
    rfl, le_refl _⟩
  · rw [List.append_nil]
    exact fun h => hn.ne' (List.replicate_eq_nil_iff _ |>.mp h)
  · intro entry hentry
    rw [(List.mem_replicate.mp hentry).2]
    exact neg_one_lt_zero

/-- The newest entry goes behind the other new ones. -/
theorem Ring.record {s : SlotCheckpointStore R} (h : s.Ring) {pos : Int} (hpos : s.lastPos < pos)
    (hmax : pos ≤ maxInt32) : (s.record pos).1.Ring := by
  obtain ⟨newer, empty, older, h⟩ := h
  have hne : s.entries ≠ [] := by
    rw [h.entries_eq]
    exact fun hnil => h.rest (List.append_eq_nil_iff.mp hnil).2
  obtain ⟨taken, rest, hrest⟩ := List.exists_cons_of_ne_nil h.rest
  have hentries : s.entries.modify s.next (fun entry => { entry with pos := pos }) =
      newer ++ ⟨pos, taken.saved⟩ :: rest := by
    rw [h.entries_eq, h.next_eq, hrest, modify_append_cons]
  have hlength : s.entries.length = newer.length + 1 + rest.length := by
    rw [h.entries_eq, hrest, List.length_append, List.length_cons]
    omega
  have hlast : -1 ≤ pos := h.lastPos_ge.trans hpos.le
  -- what is empty and what is old behind the entry that is taken
  obtain ⟨empty', older', hsplit, hdead', haged', hsize⟩ : ∃ empty' older', rest = empty' ++ older' ∧
      (∀ entry ∈ empty', entry.pos < 0) ∧ Aged s.lastPos (older' ++ newer) ∧
      (if s.size < s.entries.length then s.size + 1 else s.size) =
        (older' ++ newer).length + 1 := by
    have hcount := h.size_eq
    rw [List.length_append] at hcount
    cases empty with
    | cons entry empty =>
      obtain ⟨rfl, rfl⟩ := List.cons.inj hrest
      refine ⟨empty, older, rfl, fun e he => h.dead e (List.mem_cons_of_mem _ he), h.aged, ?_⟩
      have hroom : s.size < s.entries.length := by
        rw [hlength, List.append_eq, List.length_append]
        omega
      rw [if_pos hroom, List.length_append]
      omega
    | nil =>
      cases older with
      | nil => exact absurd rfl h.rest
      | cons oldest older =>
        obtain ⟨rfl, rfl⟩ := List.cons.inj hrest
        refine ⟨[], older, rfl, fun _ he => absurd he List.not_mem_nil, h.aged.tail, ?_⟩
        rw [List.length_cons] at hcount
        rw [hlength, List.length_append, if_neg (by omega)]
        omega
  have haged := haged'.concat hpos h.lastPos_ge hmax taken.saved
  rw [List.append_assoc] at haged
  rw [SlotCheckpointStore.record, if_neg hne]
  by_cases hend : rest = []
  · obtain ⟨rfl, rfl⟩ := List.append_eq_nil_iff.mp (hsplit.symm.trans hend)
    refine ⟨[], [], newer ++ [⟨pos, taken.saved⟩], ⟨?_, by simp, fun _ he => absurd he
      List.not_mem_nil, by rw [List.append_nil]; exact haged⟩, ?_, ?_, hlast⟩
    · rw [hentries, hend, List.nil_append, List.nil_append]
    · show (s.next + 1) % s.entries.length = 0
      rw [hlength, hend, h.next_eq, List.length_nil, Nat.add_zero, Nat.mod_self]
    · show (if s.size < s.entries.length then s.size + 1 else s.size) = _
      rw [hsize]
      simp
  · refine ⟨newer ++ [⟨pos, taken.saved⟩], empty', older', ⟨?_, hsplit ▸ hend, hdead', haged⟩, ?_, ?_,
      hlast⟩
    · rw [hentries, hsplit, List.append_assoc, List.singleton_append]
    · show (s.next + 1) % s.entries.length = _
      have hpos : 0 < rest.length := List.length_pos_iff.mpr hend
      rw [hlength, h.next_eq, List.length_append, List.length_singleton, Nat.mod_eq_of_lt (by omega)]
    · show (if s.size < s.entries.length then s.size + 1 else s.size) = _
      simp only [hsize, List.length_append, List.length_singleton, Nat.add_assoc]

/-! ## Counting anew -/

theorem oldestFrom_eq_of_le (entries : List (CheckpointEntry R)) (i : Nat) {best : Nat × Int}
    (h : ∀ entry ∈ entries, best.2 ≤ entry.pos) : oldestFrom i entries best = best.1 := by
  induction entries generalizing i with
  | nil => rfl
  | cons entry entries ih =>
    have hle := h entry List.mem_cons_self
    rw [oldestFrom, if_neg (by omega)]
    exact ih (i + 1) fun e he => h e (List.mem_cons_of_mem _ he)

/-- The loop over the entries in front of the oldest one. -/
theorem oldestFrom_append (before entries : List (CheckpointEntry R)) (i : Nat) {p : Int}
    {best : Nat × Int} (hbest : p < best.2) (h : ∀ entry ∈ before, p < entry.pos) :
    ∃ best', p < best'.2 ∧
      oldestFrom i (before ++ entries) best = oldestFrom (i + before.length) entries best' := by
  induction before generalizing i best with
  | nil => exact ⟨best, hbest, rfl⟩
  | cons entry before ih =>
    have hentry := h entry List.mem_cons_self
    have hrest : ∀ e ∈ before, p < e.pos := fun e he => h e (List.mem_cons_of_mem _ he)
    have hindex : i + (before.length + 1) = i + 1 + before.length := by omega
    rw [List.cons_append, oldestFrom, List.length_cons, hindex]
    split
    · exact ih (i + 1) hentry hrest
    · exact ih (i + 1) hbest hrest

/-- In a full ring the oldest entry is behind the newest one. -/
theorem Layout.oldest {entries newer older : List (CheckpointEntry R)} {lastPos : Int}
    (h : Layout entries lastPos newer [] older) :
    oldestFrom 0 entries (0, maxInt32) = newer.length := by
  cases older with
  | nil => exact absurd rfl h.rest
  | cons oldest older =>
    rw [h.entries_eq, List.nil_append]
    obtain ⟨hfirst, -⟩ := List.pairwise_cons.mp h.aged.increasing
    have hmax := h.aged.le_maxInt32
    by_cases hone : older ++ newer = []
    · obtain ⟨rfl, rfl⟩ := List.append_eq_nil_iff.mp hone
      rw [List.nil_append, oldestFrom, oldestFrom]
      split <;> rfl
    · obtain ⟨second, others, hsecond⟩ := List.exists_cons_of_ne_nil hone
      have hmem : second ∈ older ++ newer := hsecond ▸ List.mem_cons_self
      have hlt : oldest.pos < maxInt32 :=
        (hfirst second hmem).trans_le (hmax second (List.mem_cons_of_mem _ hmem))
      obtain ⟨best, hbest, heq⟩ := @oldestFrom_append _ newer (oldest :: older) 0 _ (0, maxInt32)
        hlt fun e he => hfirst e (List.mem_append_right _ he)
      have hlive := h.aged.live oldest List.mem_cons_self
      rw [heq, oldestFrom, if_pos ⟨hlive, hbest⟩, oldestFrom_eq_of_le _ _
        fun e he => (hfirst e (List.mem_append_left _ he)).le, Nat.zero_add]

/-- Counters that are computed anew fit a layout. -/
theorem ring_recount {entries newer empty older : List (CheckpointEntry R)} {lastPos : Int}
    (h : Layout entries lastPos newer empty older) : (recount entries lastPos).Ring := by
  have hcount := h.countP
  rw [recount]
  by_cases hnone : (entries.countP fun entry => 0 ≤ entry.pos) = 0
  · rw [if_pos hnone]
    rw [hnone] at hcount
    obtain ⟨rfl, rfl⟩ := List.append_eq_nil_iff.mp (List.eq_nil_of_length_eq_zero hcount.symm)
    exact ⟨[], empty, [], ⟨h.entries_eq, h.rest, h.dead, aged_nil _⟩, rfl, rfl, le_refl _⟩
  · rw [if_neg hnone]
    have hlast : -1 ≤ lastPos := by
      obtain ⟨entry, hentry⟩ := List.exists_mem_of_length_pos (hcount ▸ Nat.pos_of_ne_zero hnone)
      have hlive := h.aged.live entry hentry
      have hle := h.aged.le_lastPos entry hentry
      omega
    refine ⟨newer, empty, older, h, ?_, hcount, hlast⟩
    have hnewer : newer.findIdx? (fun entry => entry.pos < 0) = none := by
      refine List.findIdx?_eq_none_iff.mpr fun entry hentry => ?_
      have hlive := h.aged.live entry (List.mem_append_right _ hentry)
      exact decide_eq_false (not_lt.mpr hlive)
    show (entries.findIdx? _).getD _ = newer.length
    cases empty with
    | cons entry empty =>
      have hdead := h.dead entry List.mem_cons_self
      have hfirst : (entry :: empty ++ older).findIdx? (fun entry => entry.pos < 0) = some 0 := by
        rw [List.cons_append, List.findIdx?_cons, if_pos (decide_eq_true hdead)]
      rw [h.entries_eq, List.findIdx?_append, hnewer, hfirst]
      exact Nat.zero_add _
    | nil =>
      have holder : older.findIdx? (fun entry => entry.pos < 0) = none := by
        refine List.findIdx?_eq_none_iff.mpr fun entry hentry => ?_
        have hlive := h.aged.live entry (List.mem_append_left _ hentry)
        exact decide_eq_false (not_lt.mpr hlive)
      have hall : entries.findIdx? (fun entry => entry.pos < 0) = none := by
        rw [h.entries_eq, List.findIdx?_append, hnewer, List.nil_append, holder]
        rfl
      rw [hall]
      exact h.oldest

/-! ## Cutting entries out -/

/-- What an operation does to the positions: some are cut out, the others keep their order. -/
structure Moves (cut : Int → Prop) (move : Int → Int) : Prop where
  dead : ∀ p < 0, move p < 0
  cut_out : ∀ p, 0 ≤ p → p ≤ maxInt32 → cut p → move p < 0
  kept : ∀ p, 0 ≤ p → p ≤ maxInt32 → ¬cut p → 0 ≤ move p ∧ move p ≤ maxInt32
  mono : ∀ p q, 0 ≤ p → p < q → q ≤ maxInt32 → ¬cut p → ¬cut q → move p < move q

/-- An entry that is empty or cut out. -/
def Gone (cut : Int → Prop) (entry : CheckpointEntry R) : Prop := entry.pos < 0 ∨ cut entry.pos

/-- As long as something is kept, not both ends of the array are without an entry. -/
def GapInside (s : SlotCheckpointStore R) (cut : Int → Prop) : Prop :=
  (∃ entry ∈ s.entries, ¬Gone cut entry) →
    ∃ entry, (s.entries.head? = some entry ∨ s.entries.getLast? = some entry) ∧ ¬Gone cut entry

/-- The oldest ones are cut out, or the newest ones. -/
def CutsOneEnd (s : SlotCheckpointStore R) (cut : Int → Prop) : Prop :=
  (∀ a ∈ s.entries, ∀ b ∈ s.entries, 0 ≤ a.pos → cut a.pos → ¬Gone cut b → a.pos < b.pos) ∨
    ∀ a ∈ s.entries, ∀ b ∈ s.entries, 0 ≤ a.pos → cut a.pos → ¬Gone cut b → b.pos < a.pos

def moveEntry (move : Int → Int) (entry : CheckpointEntry R) : CheckpointEntry R :=
  { entry with pos := move entry.pos }

section Cut

variable {cut : Int → Prop} {move : Int → Int}

/-- In order, what comes first is on one side and the rest on the other. -/
theorem exists_split {entries : List (CheckpointEntry R)} {P : CheckpointEntry R → Prop}
    (hsorted : entries.Pairwise fun a b => a.pos < b.pos)
    (h : ∀ a ∈ entries, ∀ b ∈ entries, P a → ¬P b → a.pos < b.pos) :
    ∃ front back, entries = front ++ back ∧ (∀ e ∈ front, P e) ∧ ∀ e ∈ back, ¬P e := by
  induction entries with
  | nil => exact ⟨[], [], rfl, fun _ he => absurd he List.not_mem_nil,
      fun _ he => absurd he List.not_mem_nil⟩
  | cons entry entries ih =>
    obtain ⟨hfirst, hrest⟩ := List.pairwise_cons.mp hsorted
    by_cases hP : P entry
    · obtain ⟨front, back, rfl, hfront, hback⟩ := ih hrest fun a ha b hb =>
        h a (List.mem_cons_of_mem _ ha) b (List.mem_cons_of_mem _ hb)
      exact ⟨entry :: front, back, rfl, List.forall_mem_cons.mpr ⟨hP, hfront⟩, hback⟩
    · refine ⟨[], entry :: entries, rfl, fun _ he => absurd he List.not_mem_nil,
        List.forall_mem_cons.mpr ⟨hP, fun e he hPe => ?_⟩⟩
      have hlt := h e (List.mem_cons_of_mem _ he) entry List.mem_cons_self hPe hP
      have hgt := hfirst e he
      omega

theorem Aged.sub {lastPos : Int} {entries entries' : List (CheckpointEntry R)}
    (h : Aged lastPos entries) (hsub : entries'.Sublist entries) : Aged lastPos entries' :=
  ⟨h.increasing.sublist hsub, fun e he => h.live e (hsub.subset he),
    fun e he => h.le_lastPos e (hsub.subset he), fun e he => h.le_maxInt32 e (hsub.subset he)⟩

/-- What is kept stays in order. -/
theorem Aged.map (hmoves : Moves cut move) {lastPos lastPos' : Int}
    {entries : List (CheckpointEntry R)} (h : Aged lastPos entries)
    (hkept : ∀ entry ∈ entries, ¬Gone cut entry)
    (hlast : ∀ entry ∈ entries, move entry.pos ≤ lastPos') :
    Aged lastPos' (entries.map (moveEntry move)) := by
  have hcut : ∀ entry ∈ entries, ¬cut entry.pos := fun entry hentry h => hkept entry hentry (.inr h)
  have hrange := fun entry hentry =>
    hmoves.kept _ (h.live entry hentry) (h.le_maxInt32 entry hentry) (hcut entry hentry)
  refine ⟨?_, List.forall_mem_map.mpr fun entry hentry => (hrange entry hentry).1,
    List.forall_mem_map.mpr hlast, List.forall_mem_map.mpr fun entry hentry => (hrange entry hentry).2⟩
  refine List.pairwise_map.mpr (h.increasing.imp_of_mem fun {a b} ha hb hlt => ?_)
  exact hmoves.mono _ _ (h.live a ha) hlt (h.le_maxInt32 b hb) (hcut a ha) (hcut b hb)

theorem Moves.gone (hmoves : Moves cut move) {entry : CheckpointEntry R} (h : Gone cut entry)
    (hmax : entry.pos ≤ maxInt32) : (moveEntry move entry).pos < 0 := by
  by_cases hdead : entry.pos < 0
  · exact hmoves.dead _ hdead
  · exact hmoves.cut_out _ (not_lt.mp hdead) hmax (h.resolve_left hdead)

/-- A cut at one end of the order whose gap does not go over the end of the array. -/
theorem Layout.split {entries newer empty older : List (CheckpointEntry R)} {lastPos : Int}
    (h : Layout entries lastPos newer empty older)
    (hgap : (∃ entry ∈ entries, ¬Gone cut entry) →
      ∃ entry, (entries.head? = some entry ∨ entries.getLast? = some entry) ∧ ¬Gone cut entry)
    (hend : (∀ a ∈ entries, ∀ b ∈ entries, 0 ≤ a.pos → cut a.pos → ¬Gone cut b → a.pos < b.pos) ∨
      ∀ a ∈ entries, ∀ b ∈ entries, 0 ≤ a.pos → cut a.pos → ¬Gone cut b → b.pos < a.pos) :
    ∃ newer' gap older', entries = newer' ++ (gap ++ older') ∧ gap ++ older' ≠ [] ∧
      (∀ entry ∈ gap, Gone cut entry) ∧ Aged lastPos (older' ++ newer') ∧
      ∀ entry ∈ older' ++ newer', ¬Gone cut entry := by
  have hmem : ∀ e ∈ older ++ newer, e ∈ entries := by
    intro e he
    rw [h.entries_eq]
    rcases List.mem_append.mp he with he | he
    · exact List.mem_append_right _ (List.mem_append_right _ he)
    · exact List.mem_append_left _ he
  have hlive := h.aged.live
  have hempty : ∀ e ∈ empty, Gone cut e := fun e he => .inl (h.dead e he)
  have hcut : ∀ e ∈ older ++ newer, Gone cut e ↔ cut e.pos := by
    intro e he
    have := hlive e he
    exact ⟨fun hgone => hgone.resolve_left (by omega), .inr⟩
  -- everything is cut out
  have hall : (∀ e ∈ entries, Gone cut e) → ∃ newer' gap older', entries = newer' ++ (gap ++ older') ∧
      gap ++ older' ≠ [] ∧ (∀ entry ∈ gap, Gone cut entry) ∧ Aged lastPos (older' ++ newer') ∧
      ∀ entry ∈ older' ++ newer', ¬Gone cut entry := by
    intro hgone
    refine ⟨[], entries, [], (List.append_nil _).symm, ?_, hgone, aged_nil _,
      fun _ he => absurd he List.not_mem_nil⟩
    rw [List.append_nil, h.entries_eq]
    exact fun hnil => h.rest (List.append_eq_nil_iff.mp hnil).2
  by_cases hkept : ∃ entry ∈ entries, ¬Gone cut entry
  swap
  · exact hall fun e he => by
      by_contra hnot
      exact hkept ⟨e, he, hnot⟩
  obtain ⟨outer, houter, hnot⟩ := hgap hkept
  rcases hend with hend | hend
  · -- the oldest ones are cut out
    obtain ⟨gone, kept, hsplit, hgone, hstay⟩ := exists_split (P := Gone cut) h.aged.increasing
      fun a ha b hb hPa hPb => hend a (hmem a ha) b (hmem b hb) (hlive a ha) ((hcut a ha).mp hPa) hPb
    rcases List.append_eq_append_iff.mp hsplit with ⟨old, hgone_eq, hnewer⟩ | ⟨old, holder, hkept_eq⟩
    · cases old with
      | nil =>
        rw [List.append_nil] at hgone_eq
        rw [List.nil_append] at hnewer
        refine ⟨newer, empty ++ older, [], by rw [h.entries_eq, List.append_nil],
          by rw [List.append_nil]; exact h.rest, ?_, ?_, ?_⟩
        · exact List.forall_mem_append.mpr ⟨hempty, hgone_eq ▸ hgone⟩
        · exact h.aged.sub (List.sublist_append_right _ _)
        · exact hnewer ▸ hstay
      | cons first old =>
        -- the gap would go from the end of the array to its beginning
        exfalso
        have hfirst : Gone cut first := hgone first (hgone_eq ▸ List.mem_append_right _
          List.mem_cons_self)
        rcases houter with hhead | hlast
        · rw [h.entries_eq, hnewer] at hhead
          exact hnot (Option.some.inj hhead ▸ hfirst)
        · rw [h.entries_eq, List.getLast?_append_of_ne_nil _ h.rest] at hlast
          have hin := List.mem_of_getLast? hlast
          rcases List.mem_append.mp hin with hin | hin
          · exact hnot (hempty outer hin)
          · exact hnot (hgone outer (hgone_eq ▸ List.mem_append_left _ hin))
    · refine ⟨newer, empty ++ gone, old, by rw [h.entries_eq, holder]; simp, ?_, ?_, ?_, ?_⟩
      · rw [List.append_assoc, ← holder]
        exact h.rest
      · exact List.forall_mem_append.mpr ⟨hempty, hgone⟩
      · rw [← hkept_eq]
        exact h.aged.sub (hsplit ▸ List.sublist_append_right _ _)
      · exact hkept_eq ▸ hstay
  · -- the newest ones are cut out
    obtain ⟨kept, gone, hsplit, hstay, hgone⟩ := exists_split (P := fun e => ¬Gone cut e)
      h.aged.increasing fun a ha b hb hPa hPb => by
        have hPb' := not_not.mp hPb
        exact hend b (hmem b hb) a (hmem a ha) (hlive b hb) ((hcut b hb).mp hPb') hPa
    rcases List.append_eq_append_iff.mp hsplit with ⟨new, hkept_eq, hnewer⟩ | ⟨new, holder, hgone_eq⟩
    · refine ⟨new, gone ++ empty, older, by rw [h.entries_eq, hnewer]; simp, ?_, ?_, ?_, ?_⟩
      · rw [List.append_assoc]
        exact fun hnil => h.rest (List.append_eq_nil_iff.mp hnil).2
      · exact List.forall_mem_append.mpr ⟨fun e he => not_not.mp (hgone e he), hempty⟩
      · rw [← hkept_eq]
        exact h.aged.sub (hsplit ▸ List.sublist_append_left _ _)
      · exact hkept_eq ▸ hstay
    · have hgone' : ∀ e ∈ new ++ newer, Gone cut e := fun e he =>
        not_not.mp (hgone e (hgone_eq ▸ he))
      cases new with
      | nil =>
        rw [List.append_nil] at holder
        refine ⟨[], newer ++ empty, older, by rw [h.entries_eq]; simp, ?_, ?_, ?_, ?_⟩
        · rw [List.append_assoc]
          exact fun hnil => h.rest (List.append_eq_nil_iff.mp hnil).2
        · exact List.forall_mem_append.mpr ⟨hgone', hempty⟩
        · rw [List.append_nil]
          exact h.aged.sub (List.sublist_append_left _ _)
        · rw [List.append_nil]
          exact holder ▸ hstay
      | cons first new =>
        rcases houter with hhead | hlast
        · -- nothing is in front of what is kept
          have hfront : newer ++ empty = [] := by
            cases hfront : newer ++ empty with
            | nil => rfl
            | cons entry front =>
              rw [h.entries_eq, ← List.append_assoc, hfront] at hhead
              have hin : entry ∈ newer ++ empty := hfront ▸ List.mem_cons_self
              refine absurd ?_ hnot
              rw [← Option.some.inj hhead]
              rcases List.mem_append.mp hin with hin | hin
              · exact hgone' entry (List.mem_append_right _ hin)
              · exact hempty entry hin
          obtain ⟨rfl, rfl⟩ := List.append_eq_nil_iff.mp hfront
          refine ⟨kept, first :: new, [], by rw [h.entries_eq, holder]; simp,
            List.cons_ne_nil _ _, ?_, ?_, hstay⟩
          · exact fun e he => hgone' e (List.mem_append_left _ he)
          · exact h.aged.sub (hsplit ▸ List.sublist_append_left _ _)
        · rw [h.entries_eq, holder, ← List.append_assoc, ← List.append_assoc,
            List.getLast?_append_of_ne_nil _ (List.cons_ne_nil _ _)] at hlast
          exact absurd (hgone' outer (List.mem_append_left _ (List.mem_of_getLast? hlast))) hnot

theorem Layout.le_maxInt32 {entries newer empty older : List (CheckpointEntry R)} {lastPos : Int}
    (h : Layout entries lastPos newer empty older) : ∀ entry ∈ entries, entry.pos ≤ maxInt32 := by
  have haged := List.forall_mem_append.mp h.aged.le_maxInt32
  have hdead : ∀ entry ∈ empty, entry.pos ≤ maxInt32 := fun entry hentry =>
    (h.dead entry hentry).le.trans (by decide)
  rw [h.entries_eq]
  exact List.forall_mem_append.mpr ⟨haged.2, List.forall_mem_append.mpr ⟨hdead, haged.1⟩⟩

/-- The counters after a cut at one end of the order whose gap does not go over the end of the
array. -/
theorem Ring.recount {s : SlotCheckpointStore R} (h : s.Ring) (hmoves : Moves cut move)
    (hgap : s.GapInside cut) (hend : s.CutsOneEnd cut) {lastPos : Int}
    (hlast : ∀ entry ∈ s.entries, ¬Gone cut entry → move entry.pos ≤ lastPos) :
    (recount (s.entries.map (moveEntry move)) lastPos).Ring := by
  obtain ⟨newer, empty, older, h⟩ := h
  obtain ⟨newer', gap, older', hentries, hrest, hgone, haged, hkept⟩ := h.toLayout.split hgap hend
  have hmem : ∀ e ∈ older' ++ newer', e ∈ s.entries := by
    intro e he
    rw [hentries]
    rcases List.mem_append.mp he with he | he
    · exact List.mem_append_right _ (List.mem_append_right _ he)
    · exact List.mem_append_left _ he
  have hlayout : Layout (s.entries.map (moveEntry move)) lastPos (newer'.map (moveEntry move))
      (gap.map (moveEntry move)) (older'.map (moveEntry move)) := by
    refine ⟨by rw [hentries, List.map_append, List.map_append], ?_, ?_, ?_⟩
    · rw [← List.map_append]
      exact fun hnil => hrest (List.map_eq_nil_iff.mp hnil)
    · refine List.forall_mem_map.mpr fun e he => hmoves.gone (hgone e he) ?_
      refine h.toLayout.le_maxInt32 e ?_
      rw [hentries]
      exact List.mem_append_right _ (List.mem_append_left _ he)
    · rw [← List.map_append]
      exact haged.map hmoves hkept fun e he => hlast e (hmem e he) (hkept e he)
  exact ring_recount hlayout

end Cut

/-! ## pruneAfter and shiftRange -/

/-- The positions that `pruneAfter` cuts out. -/
def cutAfter (pos p : Int) : Prop := pos < p

/-- The positions that `shiftRange` cuts out: those of the range, and those that are moved to a
place where there are none. -/
def cutRange (beginIndex endIndex p : Int) : Prop :=
  beginIndex ≤ p ∧ p < endIndex ∨ endIndex ≤ p ∧
    (p + i32 (beginIndex - endIndex) < 0 ∨ maxInt32 < p + i32 (beginIndex - endIndex))

theorem moves_pruneAfter (pos : Int) : Moves (cutAfter pos) fun p => if pos < p then -1 else p where
  dead p hp := by
    split
    · exact neg_one_lt_zero
    · exact hp
  cut_out p _ _ hcut := by
    have hlt : pos < p := hcut
    rw [if_pos hlt]
    exact neg_one_lt_zero
  kept p hp hmax hcut := by
    have hle : ¬pos < p := hcut
    rw [if_neg hle]
    exact ⟨hp, hmax⟩
  mono p q _ hlt _ hp hq := by
    have hp' : ¬pos < p := hp
    have hq' : ¬pos < q := hq
    rw [if_neg hp', if_neg hq']
    exact hlt

theorem moves_shiftRange {beginIndex endIndex : Int} (hbegin : i32 beginIndex = beginIndex) :
    Moves (cutRange beginIndex endIndex) (shiftPos beginIndex endIndex) := by
  obtain ⟨-, hb⟩ := i32_range beginIndex
  rw [hbegin] at hb
  have hoffset := i32_range (beginIndex - endIndex)
  -- a position that is moved and kept
  have hmove : ∀ p, 0 ≤ p → endIndex ≤ p → ¬cutRange beginIndex endIndex p →
      shiftPos beginIndex endIndex p = p + i32 (beginIndex - endIndex) ∧
        0 ≤ p + i32 (beginIndex - endIndex) ∧ p + i32 (beginIndex - endIndex) ≤ maxInt32 := by
    intro p hp hle hcut
    have hrange : ¬(beginIndex ≤ p ∧ p < endIndex) := by omega
    have hin : 0 ≤ p + i32 (beginIndex - endIndex) ∧
        p + i32 (beginIndex - endIndex) ≤ maxInt32 := by
      unfold cutRange at hcut
      omega
    rw [shiftPos, if_pos hp, if_neg hrange, if_pos hle, i32_eq (by omega) hin.2]
    exact ⟨rfl, hin⟩
  -- a position that stays
  have hstay : ∀ p, 0 ≤ p → p < endIndex → ¬cutRange beginIndex endIndex p →
      shiftPos beginIndex endIndex p = p ∧ p < beginIndex := by
    intro p hp hlt hcut
    have hrange : ¬(beginIndex ≤ p ∧ p < endIndex) := fun h => hcut (.inl h)
    rw [shiftPos, if_pos hp, if_neg hrange, if_neg (not_le.mpr hlt)]
    exact ⟨rfl, by omega⟩
  refine ⟨fun p hp => ?_, fun p hp hmax hcut => ?_, fun p hp hmax hcut => ?_,
    fun p q hp hlt hmax hcp hcq => ?_⟩
  · rw [shiftPos, if_neg (not_le.mpr hp)]
    exact hp
  · rw [shiftPos, if_pos hp]
    by_cases hrange : beginIndex ≤ p ∧ p < endIndex
    · rw [if_pos hrange]
      exact neg_one_lt_zero
    · obtain ⟨hle, hout⟩ := hcut.resolve_left hrange
      rw [if_neg hrange, if_pos hle]
      unfold i32 maxInt32 at *
      rcases hout with hneg | hlarge
      · rw [Int.bmod_eq_of_le (by omega) (by omega)]
        exact hneg
      · rw [Int.bmod_def]
        omega
  · rcases lt_or_ge p endIndex with hend | hend
    · rw [(hstay p hp hend hcut).1]
      exact ⟨hp, hmax⟩
    · obtain ⟨heq, hin⟩ := hmove p hp hend hcut
      rw [heq]
      exact hin
  · rcases lt_or_ge q endIndex with hq | hq
    · rw [(hstay q (by omega) hq hcq).1, (hstay p hp (by omega) hcp).1]
      exact hlt
    · rw [(hmove q (by omega) hq hcq).1]
      rcases lt_or_ge p endIndex with hp' | hp'
      · obtain ⟨heq, hbefore⟩ := hstay p hp hp' hcp
        rw [heq, i32_eq (by unfold maxInt32 at *; omega) (by omega)]
        omega
      · rw [(hmove p hp hp' hcp).1]
        omega

/-- What is cut out leaves the order of the ring. -/
def Orderly (s : SlotCheckpointStore R) : Op → Prop
  | .record _ => True
  | .pruneAfter pos => s.GapInside (cutAfter pos)
  | .shiftRange beginIndex endIndex =>
    s.GapInside (cutRange beginIndex endIndex) ∧ s.CutsOneEnd (cutRange beginIndex endIndex)

theorem le_foldl_max (entries : List (CheckpointEntry R)) (m : Int) :
    m ≤ entries.foldl (fun m entry => max m entry.pos) m ∧
      ∀ entry ∈ entries, entry.pos ≤ entries.foldl (fun m entry => max m entry.pos) m := by
  induction entries generalizing m with
  | nil => exact ⟨le_refl m, fun _ h => absurd h List.not_mem_nil⟩
  | cons entry entries ih =>
    obtain ⟨hm, hentries⟩ := ih (max m entry.pos)
    rw [List.foldl_cons]
    exact ⟨(le_max_left _ _).trans hm,
      List.forall_mem_cons.mpr ⟨(le_max_right _ _).trans hm, hentries⟩⟩

theorem Ring.apply {s : SlotCheckpointStore R} (h : s.Ring) {op : Op} (hvalid : s.Valid op)
    (horderly : s.Orderly op) : (s.apply op).Ring := by
  cases op with
  | record pos =>
    obtain ⟨hpos, hint⟩ := hvalid
    exact h.record hpos (hint ▸ (i32_range pos).2)
  | pruneAfter pos =>
    have hentries : (s.entries.map fun entry =>
        if pos < entry.pos then { entry with pos := -1 } else entry) =
          s.entries.map (moveEntry fun p => if pos < p then -1 else p) := by
      refine List.map_congr_left fun entry _ => ?_
      rw [moveEntry]
      split <;> rfl
    show (SlotCheckpointStore.recount _ pos).Ring
    rw [hentries]
    refine h.recount (moves_pruneAfter pos) horderly (.inr fun a _ b _ _ hcut hkept => ?_)
      fun entry _ hkept => ?_
    · have hb : ¬pos < b.pos := fun hlt => hkept (.inr hlt)
      exact (not_lt.mp hb).trans_lt hcut
    · have hle : ¬pos < entry.pos := fun hlt => hkept (.inr hlt)
      show (if pos < entry.pos then -1 else entry.pos) ≤ pos
      rw [if_neg hle]
      exact not_lt.mp hle
  | shiftRange beginIndex endIndex =>
    refine h.recount (moves_shiftRange hvalid.1) horderly.1 horderly.2 fun entry hentry _ => ?_
    exact (le_foldl_max _ (-1)).2 _ (List.mem_map_of_mem (f := moveEntry _) hentry)

/-- In every run whose cuts leave the order of the ring, `size` is right and `record` takes the
entry it should. -/
theorem ring_bookkeeping {n : Nat} (hn : 0 < n) :
    ((ring R n).restrict Orderly).Invariant Bookkeeping := by
  have hring : ((ring R n).restrict Orderly).Invariant Ring := by
    refine TSys.Inductive.invariant ⟨fun s hs => ?_, fun s op s' h hstep => ?_⟩
    · rw [show s = newSlotCheckpointStore n from hs]
      exact ring_newSlotCheckpointStore hn
    · obtain ⟨horderly, hvalid, rfl⟩ := hstep
      exact h.apply hvalid horderly
  exact fun s hs => (hring s hs).bookkeeping

/-- The oldest checkpoint is overwritten, and the newest one dropped and recorded again. -/
theorem ring_bookkeeping_three : ∃ s : SlotCheckpointStore Unit,
    ((ring Unit 3).restrict Orderly).Reachable s ∧
      s.entries.map CheckpointEntry.pos = [3, 1, 2] ∧ Bookkeeping s := by
  have hstep : ∀ {s : SlotCheckpointStore Unit} (op : Op),
      ((ring Unit 3).restrict Orderly).Reachable s → s.Orderly op → s.Valid op →
        ((ring Unit 3).restrict Orderly).Reachable (s.apply op) :=
    fun _ hs horderly hvalid => .step hs ⟨horderly, hvalid, rfl⟩
  have hone := hstep (.record 0) (.init rfl) trivial ⟨by decide, by decide⟩
  have htwo := hstep (.record 1) hone trivial ⟨by decide, by decide⟩
  have hthree := hstep (.record 2) htwo trivial ⟨by decide, by decide⟩
  have hfour := hstep (.record 3) hthree trivial ⟨by decide, by decide⟩
  have hpruned := hstep (.pruneAfter 2) hfour
    (fun _ => ⟨_, .inr rfl, show ¬((2 : Int) < 0 ∨ (2 : Int) < 2) by decide⟩)
    (show i32 2 = 2 by decide)
  have hlast := hstep (.record 3) hpruned trivial ⟨by decide, by decide⟩
  exact ⟨_, hlast, rfl, ring_bookkeeping (by decide) _ hlast⟩

/-- Three entries after five checkpoints of which the last two and one in front of the oldest were
dropped. -/
def overTheEnd : SlotCheckpointStore Unit :=
  [Op.record 0, .record 1, .record 2, .record 3, .pruneAfter 1, .record 2].foldl apply
    (newSlotCheckpointStore 3)

theorem reachable_overTheEnd : (ring Unit 3).Reachable overTheEnd := by
  have hstep : ∀ {s : SlotCheckpointStore Unit} (op : Op), (ring Unit 3).Reachable s → s.Valid op →
      (ring Unit 3).Reachable (s.apply op) := fun _ hs hvalid => .step hs ⟨hvalid, rfl⟩
  have hone := hstep (.record 0) (.init rfl) ⟨by decide, by decide⟩
  have htwo := hstep (.record 1) hone ⟨by decide, by decide⟩
  have hthree := hstep (.record 2) htwo ⟨by decide, by decide⟩
  have hfour := hstep (.record 3) hthree ⟨by decide, by decide⟩
  have hpruned := hstep (.pruneAfter 1) hfour (show i32 1 = 1 by decide)
  exact hstep (.record 2) hpruned ⟨by decide, by decide⟩

/-- The next checkpoint takes the place of the oldest one, and the third entry stays empty. -/
theorem not_bookkeeping : ¬∀ n > 0, (ring Unit n).Invariant Bookkeeping := by
  intro h
  have hkept := (h 3 (by decide) _ reachable_overTheEnd).takes_empty 3 1 rfl
  have hempty : ∃ entry ∈ overTheEnd.entries, entry.pos < 0 :=
    ⟨_, List.mem_of_getElem? (show overTheEnd.entries[2]? = some _ from rfl), by decide⟩
  obtain ⟨entry, hentry, hdead⟩ := hkept hempty
  have hpos : (overTheEnd.entries[1]?).map CheckpointEntry.pos = some 1 := by decide
  rw [hentry] at hpos
  rw [Option.map_some, Option.some.injEq] at hpos
  omega

end SlotCheckpointStore

end Prismalama.Kvcache
