import Prismalama.Kvcache.CausalRecover
import Prismalama.Kvcache.CausalSizing

/-!
# Resuming a sequence in a sliding window (`CanResume` in `kvcache/causal.go`)

In runs of batches that extend their sequences, prefix copies and removed tails, each sequence is
stored at consecutive positions, each in one cell (`Contiguous`). `CanResume` compares the first and
the last of them.
-/

namespace Prismalama.Kvcache

open Prismalama.Lib

namespace Causal

/-! ## Runs -/

/-- Each sequence of the batch goes on after its last position. -/
def Extends (c : Causal) (batch : List Token) : Prop :=
  c.Continues 2147483648 batch ∧ ∀ t ∈ batch, IsPosition t.pos

/-- The calls of such a run -/
def Resumes (c : Causal) : Op → Prop
  | .startForward batch _ => c.Extends batch
  | .remove _ _ e _ => e = maxInt32
  | .setCausal _ | .copyPrefix .. => True

instance (c : Causal) (batch : List Token) : Decidable (c.Extends batch) :=
  inferInstanceAs (Decidable
    ((∀ t ∈ batch, ∃ start ∈ added batch t.seq, _) ∧ ∀ t ∈ batch, IsPosition t.pos))

instance (c : Causal) : DecidablePred c.Resumes
  | .startForward batch _ => inferInstanceAs (Decidable (c.Extends batch))
  | .remove _ _ e _ => inferInstanceAs (Decidable (e = maxInt32))
  | .setCausal _ | .copyPrefix .. => .isTrue trivial

/-- A cache with the positions that were given to its sequences and not taken away since -/
abbrev History := Causal × List Token

def History.apply (s : History) (op : Op) : History :=
  (s.1.apply op,
    match op with
    | .startForward batch order =>
      if (s.1.startForward batch order false).2 = none then s.2 ++ batch else s.2
    | .copyPrefix srcSeq dstSeq len =>
      (s.2.filter fun t => t.seq ≠ dstSeq) ++
        (s.2.filter fun t => t.seq = srcSeq ∧ t.pos < len).map fun t => ⟨dstSeq, t.pos⟩
    | .remove seq b _ _ => s.2.filter fun t => ¬(t.seq = seq ∧ b ≤ t.pos)
    | .setCausal _ => s.2)

def resumeSys (cfg : CausalConfig) (maxSequences capacity maxBatch : Nat) : TSys History Op :=
  TSys.ofFn (fun s => cfg.init maxSequences capacity maxBatch = some s.1 ∧ s.2 = [])
    (fun s op => s.1.Enabled op ∧ s.1.Resumes op) History.apply

/-! ## Consecutive positions -/

structure Contiguous (c : Causal) : Prop where
  range : Positions IsPosition c
  distinct : ∀ s p j j', c.Stores s p j → c.Stores s p j' → j = j'
  between : ∀ s p q r j k, c.Stores s p j → c.Stores s r k → p ≤ q → q ≤ r → ∃ i, c.Stores s q i

/-- What is left of consecutive positions by a convex condition is consecutive. -/
theorem Contiguous.of_cut {c c' : Causal} (h : c.Contiguous)
    (hcut : ∀ s, ∃ s', ∃ P : Int → Prop, (∀ p q r, P p → P r → p ≤ q → q ≤ r → P q) ∧
      ∀ p j, c'.Stores s p j ↔ c.Stores s' p j ∧ P p) : c'.Contiguous where
  range := by
    intro s p j hst
    obtain ⟨s', P, -, hiff⟩ := hcut s
    exact h.range s' p j ((hiff p j).mp hst).1
  distinct := by
    intro s p j j' hst hst'
    obtain ⟨s', P, -, hiff⟩ := hcut s
    exact h.distinct s' p j j' ((hiff p j).mp hst).1 ((hiff p j').mp hst').1
  between := by
    intro s p q r j k hp hr hpq hqr
    obtain ⟨s', P, hconvex, hiff⟩ := hcut s
    obtain ⟨hp, hPp⟩ := (hiff p j).mp hp
    obtain ⟨hr, hPr⟩ := (hiff r k).mp hr
    obtain ⟨i, hi⟩ := h.between s' p q r j k hp hr hpq hqr
    exact ⟨i, (hiff q i).mpr ⟨hi, hconvex p q r hPp hPr hpq hqr⟩⟩

/-- Eviction cuts off the lowest positions. -/
theorem Evicted.of_le {c : Causal} {s p q : Int} (h : c.Evicted s q) (hle : p ≤ q) :
    c.Evicted s p := by
  obtain ⟨hfull, lowest, hlookup, hlt⟩ := h
  exact ⟨hfull, lowest, hlookup, hle.trans_lt hlt⟩

theorem Contiguous.updated {c c' : Causal} (h : c.Contiguous) (hupd : Updated c c') :
    c'.Contiguous :=
  h.of_cut fun s => ⟨s, fun p => ¬c.Evicted s p,
    fun _ _ _ hp _ hle _ hev => hp (hev.of_le hle), fun p j => hupd.stores s p j⟩

theorem highest_stored {c : Causal} {s top : Int} (h : c.highest s = some top) :
    ∃ j, c.Stores s top j := by
  have hmem := (List.max?_eq_some_iff.mp h).1
  obtain ⟨cell, hcell, rfl⟩ := List.mem_map.mp hmem
  obtain ⟨hcell, hs⟩ := List.mem_filter.mp hcell
  obtain ⟨j, hj⟩ := List.mem_iff_getElem?.mp hcell
  exact ⟨j, cell, hj, of_decide_eq_true hs, rfl⟩

/-- The positions that a batch adds to a sequence, next to what is stored -/
structure Next (c : Causal) (batch : List Token) (s start : Int) (n : Nat) : Prop where
  mem : ∀ p, (⟨s, p⟩ : Token) ∈ batch ↔ start ≤ p ∧ p < start + n
  pos : 0 < n
  above : ∀ p j, c.Stores s p j → p < start ∧ ∃ k, c.Stores s (start - 1) k

theorem Extends.next {c : Causal} {batch : List Token} (h : c.Extends batch) {s : Int}
    (hs : ∃ t ∈ batch, t.seq = s) : ∃ start n, c.Next batch s start n := by
  obtain ⟨start, hseg⟩ := h.1.segment hs
  obtain ⟨t, ht, rfl⟩ := hs
  have hmem := (hseg.mem t.pos).mp ht
  refine ⟨start, (added batch t.seq).length, hseg.mem, by omega, fun p j hst =>
    ⟨hseg.above p j hst, ?_⟩⟩
  obtain ⟨top, htop, -⟩ := hst.highest
  obtain ⟨k, hk⟩ := highest_stored htop
  -- the batch starts right after the highest position
  obtain ⟨start', hstart', -, -, -, -, hhigh⟩ := h.1 t ht
  obtain rfl := hhigh top htop
  have hle := ((hseg.mem _).mp (mem_added.mp hstart')).1
  have hlt := hseg.above top k hk
  exact ⟨k, by rwa [show start - 1 = top by omega]⟩

theorem mem_zip_of_mem {α β : Type*} {xs : List α} {ys : List β} (hlen : ys.length = xs.length)
    {x : α} (hx : x ∈ xs) : ∃ y, (x, y) ∈ xs.zip ys := by
  obtain ⟨i, hi⟩ := List.mem_iff_getElem?.mp hx
  have hlt : i < ys.length := hlen ▸ (List.getElem?_eq_some_iff.mp hi).1
  exact ⟨ys.get ⟨i, hlt⟩, List.mem_iff_getElem?.mpr ⟨i, by
    rw [List.getElem?_zip_eq_some]
    exact ⟨hi, List.getElem?_eq_getElem hlt⟩⟩⟩

theorem Contiguous.stored {c c' : Causal} (h : c.Contiguous) {batch : List Token}
    {locs : List Nat} (hext : c.Extends batch) (hst : Stored c batch locs c') :
    c'.Contiguous := by
  have hnext : ∀ s p j, ((⟨s, p⟩ : Token), j) ∈ batch.zip locs →
      ∃ start n, c.Next batch s start n :=
    fun s p j hz => hext.next ⟨_, (List.of_mem_zip hz).1, rfl⟩
  have hadd : ∀ s p, (⟨s, p⟩ : Token) ∈ batch → ∃ i, c'.Stores s p i := by
    intro s p ht
    obtain ⟨i, hi⟩ := mem_zip_of_mem (hst.length (List.ne_nil_of_mem ht)) ht
    exact ⟨i, (hst.stores s p i).mpr (Or.inr hi)⟩
  refine ⟨fun s p j hp => ?_, fun s p j j' hj hj' => ?_, fun s p q r j k hp hr hpq hqr => ?_⟩
  · rcases (hst.stores s p j).mp hp with hold | hz
    · exact h.range s p j hold.1
    · exact hext.2 _ (List.of_mem_zip hz).1
  · rcases (hst.stores s p j).mp hj with hold | hz <;>
      rcases (hst.stores s p j').mp hj' with hold' | hz'
    · exact h.distinct s p j j' hold.1 hold'.1
    · obtain ⟨start, n, hn⟩ := hnext s p j' hz'
      have hge := ((hn.mem p).mp (List.of_mem_zip hz').1).1
      have hlt := (hn.above p j hold.1).1
      omega
    · obtain ⟨start, n, hn⟩ := hnext s p j hz
      have hge := ((hn.mem p).mp (List.of_mem_zip hz).1).1
      have hlt := (hn.above p j' hold'.1).1
      omega
    · exact zip_unique hext.1.nodup hz hz'
  · rcases (hst.stores s p j).mp hp with ⟨hold, hkept⟩ | hz
    · have hold_between : ∀ r' k', c.Stores s r' k' → q ≤ r' → ∃ i, c'.Stores s q i := by
        intro r' k' hr' hle
        obtain ⟨i, hi⟩ := h.between s p q r' j k' hold hr' hpq hle
        exact ⟨i, (hst.stores s q i).mpr (Or.inl ⟨hi, fun hev => hkept (hev.of_le hpq)⟩)⟩
      rcases (hst.stores s r k).mp hr with hold' | hz'
      · exact hold_between r k hold'.1 hqr
      · obtain ⟨start, n, hn⟩ := hnext s r k hz'
        obtain ⟨-, k', htop⟩ := hn.above p j hold
        have hlt := ((hn.mem r).mp (List.of_mem_zip hz').1).2
        by_cases hq : q < start
        · exact hold_between (start - 1) k' htop (by omega)
        · exact hadd s q ((hn.mem q).mpr ⟨by omega, by omega⟩)
    · obtain ⟨start, n, hn⟩ := hnext s p j hz
      have hge := ((hn.mem p).mp (List.of_mem_zip hz).1).1
      have hle : r < start + n := by
        rcases (hst.stores s r k).mp hr with hold' | hz'
        · have hlt := (hn.above r k hold'.1).1
          omega
        · exact ((hn.mem r).mp (List.of_mem_zip hz').1).2
      exact hadd s q ((hn.mem q).mpr ⟨by omega, by omega⟩)

theorem copyPrefix_contiguous {c : Causal} (h : c.Contiguous) {srcSeq dstSeq : Int}
    (hne : srcSeq ≠ dstSeq) (len : Int) : (c.copyPrefix srcSeq dstSeq len).Contiguous := by
  refine h.of_cut fun s => ?_
  by_cases hs : s = dstSeq
  · refine ⟨srcSeq, fun p => p < len, fun p q r _ hr _ hqr => by omega, fun p j => ?_⟩
    rw [copyPrefix_stores hne, if_pos hs]
  · refine ⟨s, fun _ => True, fun _ _ _ _ _ _ _ => trivial, fun p j => ?_⟩
    rw [copyPrefix_stores hne, if_neg hs, and_true]

/-- Removing a tail leaves the positions below. -/
theorem remove_tail {c : Causal} (hpos : Positions IsPosition c) (seq b : Int)
    (backend : Option KvError) (s p : Int) (j : Nat) :
    (c.remove seq b maxInt32 backend).1.Stores s p j ↔ c.Stores s p j ∧ (s = seq → p < b) := by
  by_cases hs : s = seq
  · subst hs
    rw [remove_stores_of_ok (removeFails_tail hpos b)]
    constructor
    · rintro ⟨q, hold, hout, rfl⟩
      have hlt := (hpos s q j hold).2
      rw [if_neg (by omega)]
      exact ⟨hold, fun _ => by omega⟩
    · rintro ⟨hold, hlt⟩
      have hb := hlt rfl
      have hlt := (hpos s p j hold).2
      exact ⟨p, hold, by omega, by rw [if_neg (by omega)]⟩
  · rw [remove_stores_ne hs]
    exact ⟨fun hold => ⟨hold, fun h => absurd h hs⟩, fun h => h.1⟩

theorem remove_contiguous {c : Causal} (h : c.Contiguous) (seq b : Int)
    (backend : Option KvError) : (c.remove seq b maxInt32 backend).1.Contiguous :=
  h.of_cut fun s => ⟨s, fun p => s = seq → p < b,
    fun _ _ _ _ hr _ hqr hs => hqr.trans_lt (hr hs), remove_tail h.range seq b backend s⟩

/-! ## The invariant of the runs -/

structure History.Inv (s : History) : Prop where
  wf : s.1.Wf
  contiguous : s.1.Contiguous
  window_le : s.1.swaWindowSize ≤ s.1.swaMemorySize
  memory_le : s.1.swaMemorySize ≤ maxInt32
  /-- Without a limit, nothing that was given is lost. -/
  held : s.1.swaMemorySize = maxInt32 → ∀ t ∈ s.2, ∃ j, s.1.Stores t.seq t.pos j

theorem init_history {cfg : CausalConfig} {maxSequences capacity maxBatch : Nat} {c : Causal}
    (h : cfg.init maxSequences capacity maxBatch = some c) : History.Inv (c, []) := by
  have hnone := init_not_stores h
  have hsize := init_sufficient h
  refine
    { wf := init_wf h
      contiguous := ⟨fun s p j hst => absurd hst (hnone s p j),
        fun s p j _ hst => absurd hst (hnone s p j),
        fun s p _ _ j _ hst => absurd hst (hnone s p j)⟩
      window_le := ?_
      memory_le := hsize.memory_le
      held := fun _ t ht => by cases ht }
  rw [CausalConfig.init, Option.ite_none_left_eq_some] at h
  obtain ⟨hle, h⟩ := h
  rw [Option.ite_none_left_eq_some] at h
  obtain rfl := Option.some.inj h.2
  exact not_lt.mp hle

theorem apply_frame {c : Causal} (hwf : c.Wf) {op : Op} (hop : c.Enabled op) :
    (c.apply op).frame = c.frame := by
  cases op with
  | startForward batch order =>
    rcases startForward_cases hwf.covered hwf.ranges hop with
      ⟨c', heq, hupd, -⟩ | ⟨locs, c', heq, hst⟩
    · rw [apply, heq]
      exact hupd.frame
    · rw [apply, heq]
      exact hst.frame
  | setCausal except =>
    rw [apply, setCausal]
    split <;> rfl
  | copyPrefix srcSeq dstSeq len => exact copyPrefix_frame c srcSeq dstSeq len
  | remove seq b e backend => exact remove_frame c seq b e backend

theorem History.apply_inv {s : History} (h : s.Inv) {op : Op} (hop : s.1.Enabled op)
    (hres : s.1.Resumes op) : (s.apply op).Inv := by
  obtain ⟨c, held⟩ := s
  obtain ⟨hwf, hcont, hwin, hmem, hheld⟩ := h
  dsimp only at hop hres hwf hcont hwin hmem hheld
  have hframe := apply_frame hwf hop
  have hwf' := apply_wf hwf hop
  have hwin' : (c.apply op).swaWindowSize ≤ (c.apply op).swaMemorySize := by
    rw [window_eq_of_frame hframe, memory_eq_of_frame hframe]
    exact hwin
  have hmem' : (c.apply op).swaMemorySize ≤ maxInt32 := by
    rw [memory_eq_of_frame hframe]
    exact hmem
  have hfull : (c.apply op).swaMemorySize = maxInt32 → c.swaMemorySize = maxInt32 := fun h => by
    rwa [memory_eq_of_frame hframe] at h
  cases op with
  | startForward batch order =>
    have hext : c.Extends batch := hres
    rcases startForward_cases hwf.covered hwf.ranges hop with
      ⟨c', heq, hupd, -⟩ | ⟨locs, c', heq, hst⟩
    · have happ : History.apply (c, held) (.startForward batch order) = (c', held) := by
        simp [History.apply, Causal.apply, heq]
      rw [Causal.apply, heq] at hwf' hwin' hmem' hfull
      rw [happ]
      have hcont0 : (c.withBatch batch).Contiguous := ⟨hcont.range, hcont.distinct, hcont.between⟩
      refine ⟨hwf', hcont0.updated hupd, hwin', hmem', fun hlim t ht => ?_⟩
      obtain ⟨j, hj⟩ := hheld (hfull hlim) t ht
      exact ⟨j, (hupd.stores _ _ _).mpr ⟨hj, fun hev => hev.1 (hfull hlim)⟩⟩
    · have happ : History.apply (c, held) (.startForward batch order) =
          (({ c' with curLoc := locs } : Causal).buildMask, held ++ batch) := by
        simp [History.apply, Causal.apply, heq]
      rw [Causal.apply, heq] at hwf' hwin' hmem' hfull
      rw [happ]
      have hcont' := hcont.stored hext hst
      refine ⟨hwf', ⟨hcont'.range, hcont'.distinct, hcont'.between⟩, hwin', hmem',
        fun hlim t ht => ?_⟩
      rcases List.mem_append.mp ht with ht | ht
      · obtain ⟨j, hj⟩ := hheld (hfull hlim) t ht
        exact ⟨j, (hst.stores _ _ _).mpr (Or.inl ⟨hj, fun hev => hev.1 (hfull hlim)⟩)⟩
      · obtain ⟨j, hj⟩ := mem_zip_of_mem (hst.length (List.ne_nil_of_mem ht)) ht
        exact ⟨j, (hst.stores _ _ _).mpr (Or.inr hj)⟩
  | setCausal except =>
    have hcells : (c.setCausal except).cells = c.cells := by
      rw [setCausal]
      split <;> rfl
    have hst := stores_of_cells_eq hcells
    refine ⟨hwf', hcont.of_cut fun s => ⟨s, fun _ => True, fun _ _ _ _ _ _ _ => trivial,
      fun p j => by rw [and_true]; exact hst s p j⟩, hwin', hmem', fun hlim t ht => ?_⟩
    obtain ⟨j, hj⟩ := hheld (hfull hlim) t ht
    exact ⟨j, (hst _ _ _).mpr hj⟩
  | copyPrefix srcSeq dstSeq len =>
    refine ⟨hwf', copyPrefix_contiguous hcont hop len, hwin', hmem', fun hlim t ht => ?_⟩
    rcases List.mem_append.mp ht with ht | ht
    · obtain ⟨ht, hne⟩ := List.mem_filter.mp ht
      obtain ⟨j, hj⟩ := hheld (hfull hlim) t ht
      exact ⟨j, (copyPrefix_stores hop _ _ _ _ _).mpr (by
        rw [if_neg (of_decide_eq_true hne)]
        exact hj)⟩
    · obtain ⟨u, hu, rfl⟩ := List.mem_map.mp ht
      obtain ⟨hu, hsrc⟩ := List.mem_filter.mp hu
      obtain ⟨hseq, hlt⟩ := of_decide_eq_true hsrc
      obtain ⟨j, hj⟩ := hheld (hfull hlim) u hu
      exact ⟨j, (copyPrefix_stores hop _ _ _ _ _).mpr (by
        rw [if_pos rfl, ← hseq]
        exact ⟨hj, hlt⟩)⟩
  | remove seq b e backend =>
    obtain rfl : e = maxInt32 := hres
    refine ⟨hwf', remove_contiguous hcont seq b backend, hwin', hmem', fun hlim t ht => ?_⟩
    obtain ⟨ht, hkept⟩ := List.mem_filter.mp ht
    obtain ⟨j, hj⟩ := hheld (hfull hlim) t ht
    have hkept := of_decide_eq_true hkept
    exact ⟨j, (remove_tail hcont.range _ _ _ _ _ _).mpr ⟨hj, fun hs => by
      by_contra hge
      exact hkept ⟨hs, not_lt.mp hge⟩⟩⟩

theorem resume_invariant (cfg : CausalConfig) (maxSequences capacity maxBatch : Nat) :
    (resumeSys cfg maxSequences capacity maxBatch).Invariant History.Inv := by
  refine TSys.Inductive.invariant { init := ?_, step := ?_ }
  · rintro ⟨c, held⟩ ⟨hinit, rfl⟩
    exact init_history hinit
  · rintro s op _ hinv ⟨⟨hop, hres⟩, rfl⟩
    exact History.apply_inv hinv hop hres

/-! ## What `CanResume` compares -/

/-- The fold that looks for a minimum: it bounds what it meets, and is attained. -/
theorem foldl_min_spec {β : Type*} [LinearOrder β] (f : Nat → β) (is : List Nat) (a : β) :
    (∀ i ∈ is, is.foldl (fun m i => min m (f i)) a ≤ f i) ∧
      is.foldl (fun m i => min m (f i)) a ≤ a ∧
      (is.foldl (fun m i => min m (f i)) a = a ∨
        ∃ i ∈ is, is.foldl (fun m i => min m (f i)) a = f i) := by
  induction is generalizing a with
  | nil => exact ⟨fun i hi => absurd hi List.not_mem_nil, le_rfl, Or.inl rfl⟩
  | cons i is ih =>
    rw [List.foldl_cons]
    obtain ⟨hall, hle, hatt⟩ := ih (min a (f i))
    refine ⟨fun k hk => ?_, hle.trans (min_le_left _ _), ?_⟩
    · rcases List.mem_cons.mp hk with rfl | hk
      · exact hle.trans (min_le_right _ _)
      · exact hall k hk
    · rcases hatt with h | ⟨k, hk, h⟩
      · rcases min_choice a (f i) with hm | hm
        · exact Or.inl (h.trans hm)
        · exact Or.inr ⟨i, List.mem_cons_self, h.trans hm⟩
      · exact Or.inr ⟨k, List.mem_cons_of_mem _ hk, h⟩

/-- The same of the maximum, in the opposite order -/
theorem foldl_max_spec (f : Nat → Int) (is : List Nat) (a : Int) :
    (∀ i ∈ is, f i ≤ is.foldl (fun m i => max m (f i)) a) ∧
      a ≤ is.foldl (fun m i => max m (f i)) a ∧
      (is.foldl (fun m i => max m (f i)) a = a ∨
        ∃ i ∈ is, is.foldl (fun m i => max m (f i)) a = f i) :=
  @foldl_min_spec (OrderDual Int) _ f is a

/-- The cells of a sequence within its range -/
def storedIn (c : Causal) (seq : Int) (r : CellRange) : List Nat :=
  (List.range' r.min (r.max + 1 - r.min)).filter fun i => (c.cellAt i).sequences.contains seq

theorem stores_of_mem_storedIn {c : Causal} {seq : Int} {r : CellRange} {i : Nat}
    (h : i ∈ c.storedIn seq r) : c.Stores seq (c.cellAt i).pos i := by
  have hmem := List.contains_iff_mem.mp (List.mem_filter.mp h).2
  cases hcell : c.cells[i]? with
  | none =>
    rw [cellAt, List.getD_eq_getElem?_getD, hcell] at hmem
    cases hmem
  | some cell =>
    rw [cellAt_eq hcell] at hmem ⊢
    exact ⟨cell, hcell, hmem, rfl⟩

theorem mem_storedIn {c : Causal} (hcov : c.Covered) {seq p : Int} {j : Nat}
    (hst : c.Stores seq p j) {r : CellRange} (hr : c.cellRanges.lookup seq = some r) :
    j ∈ c.storedIn seq r ∧ (c.cellAt j).pos = p := by
  obtain ⟨r', hr', hhas⟩ := hcov seq p j hst
  obtain rfl : r = r' := Option.some.inj (hr.symm.trans hr')
  obtain ⟨hmin, hmax⟩ := (CellRange.has_iff _ _).mp hhas
  obtain ⟨cell, hcell, hmem, rfl⟩ := hst
  refine ⟨List.mem_filter.mpr ⟨?_, ?_⟩, by rw [cellAt_eq hcell]⟩
  · rw [List.mem_range'_1]
    omega
  · rw [cellAt_eq hcell]
    exact List.contains_iff_mem.mpr hmem

section CanResume

variable {c : Causal} {seq : Int}

theorem canResume_unlimited (hfull : c.swaMemorySize = maxInt32) (pos : Int) :
    c.canResume seq pos = true := if_pos hfull

theorem canResume_of_none (hlim : c.swaMemorySize ≠ maxInt32) (hnone : ∀ p j, ¬c.Stores seq p j)
    (pos : Int) : c.canResume seq pos = false := by
  rw [canResume, if_neg hlim]
  cases hr : c.cellRanges.lookup seq with
  | none => rfl
  | some r =>
    have hempty : c.storedIn seq r = [] := List.eq_nil_iff_forall_not_mem.mpr fun i hi =>
      hnone _ i (stores_of_mem_storedIn hi)
    dsimp only
    rw [← storedIn, hempty]
    rfl

/-- The first and the last position are compared. -/
theorem canResume_spec (hlim : c.swaMemorySize ≠ maxInt32) (hcov : c.Covered)
    (hpos : Positions IsPosition c) (hsome : ∃ p j, c.Stores seq p j) :
    ∃ first last, (∃ j, c.Stores seq first j) ∧ (∃ j, c.Stores seq last j) ∧
      (∀ p j, c.Stores seq p j → first ≤ p ∧ p ≤ last) ∧
      ∀ pos, c.canResume seq pos =
        (decide (first ≤ max 0 (i32 (pos - c.swaWindowSize))) && decide (pos ≤ last + 1)) := by
  obtain ⟨p, j, hst⟩ := hsome
  obtain ⟨r, hr, -⟩ := hcov seq p j hst
  obtain ⟨hj, hjp⟩ := mem_storedIn hcov hst hr
  obtain ⟨hp0, hp1⟩ := hpos seq p j hst
  obtain ⟨hmin, -, hminatt⟩ := foldl_min_spec (fun i => (c.cellAt i).pos) (c.storedIn seq r)
    maxInt32
  obtain ⟨hmax, -, hmaxatt⟩ := foldl_max_spec (fun i => (c.cellAt i).pos) (c.storedIn seq r) (-1)
  have hlow := hmin j hj
  have hhigh := hmax j hj
  rw [hjp] at hlow hhigh
  have hfirst : ∃ j, c.Stores seq ((c.storedIn seq r).foldl
      (fun first i => min first (c.cellAt i).pos) maxInt32) j := by
    rcases hminatt with h | ⟨i, hi, h⟩
    · omega
    · exact ⟨i, by rw [h]; exact stores_of_mem_storedIn hi⟩
  have hlast : ∃ j, c.Stores seq ((c.storedIn seq r).foldl
      (fun last i => max last (c.cellAt i).pos) (-1)) j := by
    rcases hmaxatt with h | ⟨i, hi, h⟩
    · omega
    · exact ⟨i, by rw [h]; exact stores_of_mem_storedIn hi⟩
  refine ⟨_, _, hfirst, hlast, fun q k hq => ?_, fun pos => ?_⟩
  · obtain ⟨hk, rfl⟩ := mem_storedIn hcov hq hr
    exact ⟨hmin k hk, hmax k hk⟩
  · obtain ⟨k, hk⟩ := hlast
    obtain ⟨hk0, hk1⟩ := hpos seq _ k hk
    rw [canResume, if_neg hlim, hr]
    dsimp only
    rw [← storedIn, if_neg (by omega), i32_eq (x := _ + 1) (by omega) (by omega)]

/-- Where the memory is limited, all of the window is stored. -/
theorem canResume_window (hlim : c.swaMemorySize ≠ maxInt32) (hcov : c.Covered)
    (hcont : c.Contiguous) (hwin : 0 ≤ c.swaWindowSize) (hwin' : c.swaWindowSize ≤ maxInt32)
    {pos : Int} (h0 : 0 ≤ pos) (h1 : pos ≤ maxInt32) (hresume : c.canResume seq pos = true)
    {p : Int} (hlo : max 0 (pos - c.swaWindowSize) ≤ p) (hhi : p < pos) :
    ∃ j, c.Stores seq p j := by
  by_cases hsome : ∃ p j, c.Stores seq p j
  · obtain ⟨first, last, ⟨j, hj⟩, ⟨k, hk⟩, -, heq⟩ := canResume_spec hlim hcov hcont.range hsome
    rw [heq, Bool.and_eq_true, decide_eq_true_eq, decide_eq_true_eq,
      i32_eq (by unfold maxInt32 at hwin'; omega) (by omega)] at hresume
    exact hcont.between seq first p last j k hj hk (hresume.1.trans hlo) (by omega)
  · push Not at hsome
    rw [canResume_of_none hlim hsome] at hresume
    cases hresume

/-- A sequence that reaches back far enough from its last position can go on. -/
theorem canResume_next (hlim : c.swaMemorySize ≠ maxInt32) (hcov : c.Covered)
    (hpos : Positions IsPosition c) (hwin : 0 ≤ c.swaWindowSize)
    (hwin' : c.swaWindowSize ≤ maxInt32) {top p : Int} {j k : Nat} (htop : c.Stores seq top k)
    (hp : c.Stores seq p j) (hle : p ≤ max 0 (top + 1 - c.swaWindowSize)) :
    c.canResume seq (top + 1) = true := by
  obtain ⟨first, last, -, -, hbounds, heq⟩ := canResume_spec hlim hcov hpos ⟨p, j, hp⟩
  obtain ⟨h0, h1⟩ := hpos seq top k htop
  rw [heq, Bool.and_eq_true, decide_eq_true_eq, decide_eq_true_eq,
    i32_eq (by unfold maxInt32 at hwin'; omega) (by omega)]
  have hfirst := (hbounds p j hp).1
  have hlast := (hbounds top k htop).2
  exact ⟨hfirst.trans hle, by omega⟩

end CanResume

/-! ## Going on at a position -/

/-- Nothing of the window before the first token of a batch is evicted. -/
theorem not_evicted {c : Causal} {batch : List Token} {seq start : Int}
    (hwin : c.swaWindowSize ≤ c.swaMemorySize) (hmem : c.swaMemorySize ≤ maxInt32)
    (hfirst : (⟨seq, start⟩ : Token) ∈ batch) (hlow : ∀ t ∈ batch, t.seq = seq → start ≤ t.pos)
    (h0 : 0 ≤ start) (h1 : start ≤ maxInt32) (hmem0 : 0 ≤ c.swaMemorySize) {p : Int}
    (hp : start - c.swaWindowSize ≤ p) : ¬(c.withBatch batch).Evicted seq p := by
  rintro ⟨-, lowest, hlookup, hlt⟩
  obtain ⟨lowest', hlookup', hlowest⟩ := lowestPos_batch (c.withBatch batch) hfirst
  obtain rfl : lowest = lowest' := Option.some.inj (hlookup.symm.trans hlookup')
  obtain ⟨t, ht, hts, htp⟩ := hlowest.attained
  have hge := hlow t ht hts
  have hle := hlowest.le _ hfirst rfl
  have hlt' : p < i32 (lowest.pos - c.swaMemorySize) := hlt
  dsimp only at hle
  rw [i32_eq (by unfold maxInt32 at hmem; omega) (by omega)] at hlt'
  omega

/-- After `CanResume`, the window before the position is stored once and open to its token. -/
theorem resume_window {s : History} (h : s.Inv) (hchunk : s.1.chunkSize = 0) {seq pos : Int}
    {backend : Option KvError} {batch : List Token} {order : List Int} {i : Nat} {c' : Causal}
    (hresume : s.1.canResume seq pos = true)
    (horder : (s.1.remove seq pos maxInt32 backend).1.IsOrder batch order)
    (hpos : ∀ t ∈ batch, 0 ≤ t.pos ∧ t.pos ≤ maxInt32) (hfirst : batch[i]? = some ⟨seq, pos⟩)
    (hlow : ∀ t ∈ batch, t.seq = seq → pos ≤ t.pos)
    (hok : (s.1.remove seq pos maxInt32 backend).1.startForward batch order false = (c', none))
    {p : Int} (hlo : max 0 (pos - s.1.swaWindowSize) ≤ p) (hhi : p < pos)
    (hheld : s.1.swaMemorySize = maxInt32 → (⟨seq, p⟩ : Token) ∈ s.2) :
    ∃ j, c'.Stores seq p j ∧ c'.Unmasked i j ∧ ∀ j', c'.Stores seq p j' → j' = j := by
  obtain ⟨c, held⟩ := s
  obtain ⟨hwf, hcont, hwin, hmem, hall⟩ := h
  dsimp only at *
  have hmemb := List.mem_of_getElem? hfirst
  obtain ⟨h0, h1⟩ := hpos _ hmemb
  dsimp only at h0 h1
  -- stored before
  have hstored : ∃ j, c.Stores seq p j := by
    by_cases hlim : c.swaMemorySize = maxInt32
    · exact hall hlim _ (hheld hlim)
    · exact canResume_window hlim hwf.covered hcont hwf.window_nonneg hwf.window_le h0 h1 hresume
        hlo hhi
  obtain ⟨j, hj⟩ := hstored
  -- and after the tail is removed
  have hframe := remove_frame c seq pos maxInt32 backend
  have hwf1 := remove_wf hwf seq pos maxInt32 backend
  have hcont1 := remove_contiguous hcont seq pos backend
  have hj1 := (remove_tail hcont.range seq pos backend seq p j).mpr ⟨hj, fun _ => hhi⟩
  have hwindow := window_eq_of_frame hframe
  have hmemory := memory_eq_of_frame hframe
  have hchunk1 : (c.remove seq pos maxInt32 backend).1.chunkSize = 0 :=
    (congrArg (fun f => f.2.2.1) hframe).trans hchunk
  generalize (c.remove seq pos maxInt32 backend).1 = c1 at *
  rcases startForward_cases hwf1.covered hwf1.ranges horder with
    ⟨c0, heq, -, -⟩ | ⟨locs, c0, heq, hst⟩
  · rw [heq] at hok
    cases congrArg Prod.snd hok
  · rw [heq] at hok
    obtain rfl : _ = c' := congrArg Prod.fst hok
    have hkept : ¬(c1.withBatch batch).Evicted seq p :=
      not_evicted (by rw [hwindow, hmemory]; exact hwin) (by rw [hmemory]; exact hmem) hmemb hlow h0
        h1 (by rw [hmemory]; exact hwf.window_nonneg.trans hwin) (by rw [hwindow]; omega)
    have hj0 : c0.Stores seq p j := (hst.stores seq p j).mpr (Or.inl ⟨hj1, hkept⟩)
    refine ⟨j, hj0, ?_, fun j' hj' => ?_⟩
    · have hready := (hst.ready hwf1 (List.ne_nil_of_mem hmemb) hpos).withLoc locs
      have hbatch : c0.curBatch = batch := congrArg Prod.fst hst.entry
      rw [hready.maskExact.exact i ⟨seq, pos⟩ (by rw [← hfirst, ← hbatch]; rfl)]
      obtain ⟨cell, hcell, hmem', hcellpos⟩ := hj0
      have hwindow0 : c0.swaWindowSize = c.swaWindowSize :=
        (window_eq_of_frame hst.frame).trans hwindow
      have hchunk0 : c0.chunkSize = 0 :=
        (congrArg (fun f => f.2.2.1) hst.frame).trans hchunk1
      refine ⟨cell, hcell, hmem', fun _ => ?_, ?_, fun h => ?_⟩
      · dsimp only
        omega
      · show pos - c0.swaWindowSize ≤ cell.pos
        omega
      · exact absurd hchunk0 (ne_of_gt h)
    · rcases (hst.stores seq p j').mp hj' with hold | hz
      · exact hcont1.distinct seq p j' j hold.1 hj1
      · have hge := hlow _ (List.of_mem_zip hz).1 rfl
        dsimp only at hge
        omega

/-- After a batch from a position where the sequence could resume, it can go on. -/
theorem resume_next {s : History} (h : s.Inv) {seq start top : Int} {batch : List Token}
    {order : List Int} {c' : Causal} (horder : s.1.IsOrder batch order) (hext : s.1.Extends batch)
    (hok : s.1.startForward batch order false = (c', none))
    (hfirst : (⟨seq, start⟩ : Token) ∈ batch) (htop : (⟨seq, top⟩ : Token) ∈ batch)
    (hbounds : ∀ t ∈ batch, t.seq = seq → start ≤ t.pos ∧ t.pos ≤ top)
    (hresume : start = 0 ∨ s.1.canResume seq start = true) : c'.canResume seq (top + 1) = true := by
  obtain ⟨c, held⟩ := s
  obtain ⟨hwf, hcont, hwin, hmem, -⟩ := h
  dsimp only at *
  rcases startForward_cases hwf.covered hwf.ranges horder with
    ⟨c0, heq, -, -⟩ | ⟨locs, c0, heq, hst⟩
  · rw [heq] at hok
    cases congrArg Prod.snd hok
  · rw [heq] at hok
    obtain rfl : _ = c' := congrArg Prod.fst hok
    have hmemory : c0.swaMemorySize = c.swaMemorySize := memory_eq_of_frame hst.frame
    have hwindow : c0.swaWindowSize = c.swaWindowSize := window_eq_of_frame hst.frame
    by_cases hlim : c.swaMemorySize = maxInt32
    · exact canResume_unlimited (hmemory.trans hlim) _
    have hcont0 := hcont.stored hext hst
    have hadd : ∀ p, (⟨seq, p⟩ : Token) ∈ batch → ∃ k, c0.Stores seq p k := by
      intro p ht
      obtain ⟨k, hk⟩ := mem_zip_of_mem (hst.length (List.ne_nil_of_mem ht)) ht
      exact ⟨k, (hst.stores seq p k).mpr (Or.inr hk)⟩
    obtain ⟨k, hk⟩ := hadd top htop
    obtain ⟨hs0, hs1⟩ := hext.2 _ hfirst
    dsimp only at hs0 hs1
    have hle := (hbounds _ hfirst rfl).2
    dsimp only at hle
    have hreach : ∃ p j, c0.Stores seq p j ∧ p ≤ max 0 (top + 1 - c.swaWindowSize) := by
      by_cases hin : start ≤ max 0 (top + 1 - c.swaWindowSize)
      · obtain ⟨j, hj⟩ := hadd start hfirst
        exact ⟨start, j, hj, hin⟩
      · -- the window reaches back to what was stored
        rcases hresume with rfl | hresume
        · omega
        obtain ⟨j, hj⟩ := canResume_window hlim hwf.covered hcont hwf.window_nonneg hwf.window_le
          hs0 hs1.le hresume (p := max 0 (top + 1 - c.swaWindowSize)) (by omega) (by omega)
        refine ⟨_, j, (hst.stores _ _ _).mpr (Or.inl ⟨hj, ?_⟩), le_rfl⟩
        exact not_evicted hwin hmem hfirst (fun t ht hts => (hbounds t ht hts).1) hs0 hs1.le
          (hwf.window_nonneg.trans hwin) (by omega)
    obtain ⟨p, j, hp, hple⟩ := hreach
    have hstc : ∀ p j, c0.Stores seq p j →
        (({ c0 with curLoc := locs } : Causal).buildMask).Stores seq p j := fun _ _ h => h
    exact canResume_next (hmemory.trans_ne hlim) hst.covered hcont0.range
      (hwindow ▸ hwf.window_nonneg) (hwindow ▸ hwf.window_le) (hstc _ _ hk) (hstc _ _ hp)
      (by rw [← hwindow] at hple; exact hple)

theorem chunk_invariant (cfg : CausalConfig) (maxSequences capacity maxBatch : Nat) :
    (resumeSys cfg maxSequences capacity maxBatch).Invariant
      fun s => s.1.chunkSize = cfg.chunkSize := by
  refine TSys.Invariant.relative (resume_invariant cfg maxSequences capacity maxBatch) ?_ ?_
  · rintro ⟨c, held⟩ ⟨h, -⟩
    dsimp only at h
    rw [CausalConfig.init, Option.ite_none_left_eq_some] at h
    obtain ⟨-, h⟩ := h
    rw [Option.ite_none_left_eq_some] at h
    obtain rfl := Option.some.inj h.2
    rfl
  · rintro s op _ hinv hchunk ⟨⟨hop, -⟩, rfl⟩
    exact (congrArg (fun f => f.2.2.1) (apply_frame hinv.wf hop)).trans hchunk

/-- What `CanResume` promises of a sliding window: the window before the position stays, and a batch
from such a position, or from the first one, can be gone on from. -/
structure ResumeSound (s : History) : Prop where
  window : ∀ seq pos backend batch order i c',
    s.1.canResume seq pos = true →
    (s.1.remove seq pos maxInt32 backend).1.IsOrder batch order →
    (∀ t ∈ batch, 0 ≤ t.pos ∧ t.pos ≤ maxInt32) →
    batch[i]? = some ⟨seq, pos⟩ →
    (∀ t ∈ batch, t.seq = seq → pos ≤ t.pos) →
    (s.1.remove seq pos maxInt32 backend).1.startForward batch order false = (c', none) →
    ∀ p, max 0 (pos - s.1.swaWindowSize) ≤ p → p < pos →
      (s.1.swaMemorySize = maxInt32 → (⟨seq, p⟩ : Token) ∈ s.2) →
      ∃ j, c'.Stores seq p j ∧ c'.Unmasked i j ∧ ∀ j', c'.Stores seq p j' → j' = j
  next : ∀ seq start top batch order c',
    s.1.IsOrder batch order → s.1.Extends batch →
    s.1.startForward batch order false = (c', none) →
    (⟨seq, start⟩ : Token) ∈ batch → (⟨seq, top⟩ : Token) ∈ batch →
    (∀ t ∈ batch, t.seq = seq → start ≤ t.pos ∧ t.pos ≤ top) →
    (start = 0 ∨ s.1.canResume seq start = true) → c'.canResume seq (top + 1) = true

theorem canResume_sound {cfg : CausalConfig} {maxSequences capacity maxBatch : Nat}
    (hcfg : cfg.chunkSize = 0) {s : History}
    (hreach : (resumeSys cfg maxSequences capacity maxBatch).Reachable s) : ResumeSound s := by
  have hinv := resume_invariant cfg maxSequences capacity maxBatch s hreach
  have hchunk := (chunk_invariant cfg maxSequences capacity maxBatch s hreach).trans hcfg
  refine ⟨fun seq pos backend batch order i c' hresume horder hpos hfirst hlow hok p hlo hhi
    hheld => ?_, fun seq start top batch order c' horder hext hok hfirst htop hbounds hresume => ?_⟩
  · exact resume_window hinv hchunk hresume horder hpos hfirst hlow hok hlo hhi hheld
  · exact resume_next hinv horder hext hok hfirst htop hbounds hresume

theorem reachable_afterCalls {window : Int} {h0 : 0 ≤ window} {h1 : window ≤ maxInt32}
    {maxSequences capacity maxBatch : Nat} {c : Causal}
    (hinit : (newSWACache window 0 true h0 h1).init maxSequences capacity maxBatch = some c)
    (ops : List Op)
    (hruns : TSys.Runs (fun (s : History) op => s.1.Enabled op ∧ s.1.Resumes op) History.apply
      (c, []) ops) :
    (resumeSys (newSWACache window 0 true h0 h1) maxSequences capacity maxBatch).Reachable
      (ops.foldl History.apply (c, [])) := by
  have hstart : (resumeSys (newSWACache window 0 true h0 h1) maxSequences capacity
      maxBatch).Reachable (c, []) := .init ⟨hinit, rfl⟩
  exact TSys.Reachable.run hstart ops hruns

/-- Two sequences in a window of three, the second forked off the first, which is cut -/
theorem canResume_sound_fork :
    ResumeSound ([Op.startForward [⟨1, 0⟩, ⟨1, 1⟩, ⟨1, 2⟩] [1], .copyPrefix 1 2 2,
      .startForward [⟨1, 3⟩, ⟨2, 2⟩] [1, 2], .remove 1 3 maxInt32 none].foldl History.apply
      (((newSWACache 3 0 true (by decide) (by decide)).init 2 8 4).get rfl, [])) :=
  canResume_sound rfl (reachable_afterCalls (Option.some_get rfl).symm _ (by decide))

/-- Six tokens in a window of three, a seventh, and a cut back to the fourth -/
def cutBack : History :=
  [Op.startForward [⟨1, 0⟩, ⟨1, 1⟩, ⟨1, 2⟩, ⟨1, 3⟩, ⟨1, 4⟩, ⟨1, 5⟩] [1], .startForward [⟨1, 6⟩] [1],
    .remove 1 4 maxInt32 none].foldl History.apply
    (((newSWACache 3 0 true (by decide) (by decide)).init 1 16 6).get rfl, [])

/-- Two tokens in a cache of two, the second cut -/
def cutUnlimited : History :=
  [Op.startForward [⟨1, 0⟩, ⟨1, 1⟩] [1], .remove 1 1 maxInt32 none].foldl History.apply
    (((newSWACache 2 0 true (by decide) (by decide)).init 1 2 2).get rfl, [])

/-- A sequence that goes on where it was cut without asking can be short of its window, and without
a limit `CanResume` lets a removed position be passed over. -/
theorem canResume_not_sound :
    ((resumeSys (newSWACache 3 0 true (by decide) (by decide)) 1 16 6).Reachable cutBack ∧
      cutBack.1.Extends [⟨1, 4⟩] ∧ (cutBack.1.startForward [⟨1, 4⟩] [1] false).2 = none ∧
      (cutBack.1.startForward [⟨1, 4⟩] [1] false).1.canResume 1 5 = false) ∧
    (resumeSys (newSWACache 2 0 true (by decide) (by decide)) 1 2 2).Reachable cutUnlimited ∧
      cutUnlimited.1.canResume 1 2 = true ∧
      let c := (cutUnlimited.1.remove 1 2 maxInt32 none).1
      (c.startForward [⟨1, 2⟩] [1] false).2 = none ∧
        ∀ cell ∈ (c.startForward [⟨1, 2⟩] [1] false).1.cells,
          ¬(1 ∈ cell.sequences ∧ cell.pos = 1) := by
  constructor
  · exact ⟨reachable_afterCalls (Option.some_get rfl).symm _ (by decide), by decide⟩
  · exact ⟨reachable_afterCalls (Option.some_get rfl).symm _ (by decide), by decide⟩

end Causal

end Prismalama.Kvcache
