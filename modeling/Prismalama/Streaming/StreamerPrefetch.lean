import Prismalama.Streaming.StreamerBudget

/-!
# Every fetched layer is consumed

Without read errors, cancelled contexts and layers that are larger than the
budget, a call only fails in its callback, each fetch is consumed once and
`RunAllLayers` leaves nothing behind. The kick in `waitForLayer` must not come
between the send of a goroutine and the removal of its entry: it would get no
channel. Any other kick may, since `waitForLayer` makes up for it.
-/

namespace Prismalama.Streaming

open Prismalama.Lib BudgetTracker

namespace Streamer

variable {τ : Type*} {cfg : StreamerConfig τ} {s : Streamer τ}

/-! ## What a call leaves -/

/-- What may be left of a layer: a pending read, and its data. -/
structure Leftover where
  pending : Bool
  resident : Bool

namespace Leftover

/-- What is left after one more instruction. -/
def after (l : Nat) (left : Leftover) : Instr → Leftover
  | .kick l' | .ahead _ l' => if l' = l then ⟨true, left.resident⟩ else left
  | .wait l' | .receive l' => if l' = l then ⟨false, true⟩ else left
  | .release l' => if l' = l then ⟨left.pending, false⟩ else left
  | .prepared _ | .compute _ => left

/-- Not more is left. -/
def Le (a b : Leftover) : Prop :=
  (a.pending = true → b.pending = true) ∧ (a.resident = true → b.resident = true)

theorem Le.refl (a : Leftover) : Le a a := ⟨id, id⟩

theorem Le.trans {a b c : Leftover} (h : Le a b) (h' : Le b c) : Le a c :=
  ⟨h'.1 ∘ h.1, h'.2 ∘ h.2⟩

theorem Le.after {a b : Leftover} (h : Le a b) (l : Nat) (instr : Instr) :
    Le (after l a instr) (after l b instr) := by
  cases instr with
  | kick l' | ahead _ l' =>
    simp only [Leftover.after]
    split
    · exact ⟨id, h.2⟩
    · exact h
  | wait l' | receive l' =>
    simp only [Leftover.after]
    split
    · exact Le.refl _
    · exact h
  | release l' =>
    simp only [Leftover.after]
    split
    · exact ⟨h.1, id⟩
    · exact h
  | prepared _ | compute _ => exact h

theorem Le.foldl {a b : Leftover} (h : Le a b) (l : Nat) (todo : List Instr) :
    Le (todo.foldl (Leftover.after l) a) (todo.foldl (Leftover.after l) b) := by
  induction todo generalizing a b with
  | nil => exact h
  | cons instr todo ih => exact ih (h.after l instr)

/-- After `i` rounds of `RunAllLayers`: the layers before `i` are not pending,
those released are not resident. -/
def afterRounds (cfg : StreamerConfig τ) (l i : Nat) : Leftover :=
  ⟨decide (i ≤ l), decide (i ≤ l + cfg.prefetchAhead)⟩

theorem foldl_ahead (l i : Nat) (nexts : List Nat) (left : Leftover) :
    (nexts.map (Instr.ahead i)).foldl (after l) left =
      if l ∈ nexts then ⟨true, left.resident⟩ else left := by
  induction nexts generalizing left with
  | nil => rfl
  | cons next nexts ih =>
    rw [List.map_cons, List.foldl_cons, ih]
    simp only [after, List.mem_cons]
    by_cases h : next = l
    · subst h
      simp
    · simp [h, Ne.symm h]

theorem foldl_prepare (l i : Nat) (left : Leftover) :
    Le ((prepare cfg i).foldl (after l) left)
      ⟨left.pending && decide (i ≠ l) || decide (i < l), left.resident || decide (i = l)⟩ := by
  have hnexts : ∀ next ∈ ((List.range cfg.prefetchAhead).map fun k => i + (k + 1)).filter
      (· < cfg.layers.length), i < next := by
    intro next hmem
    obtain ⟨k, _, rfl⟩ := List.mem_map.mp (List.mem_filter.mp hmem).1
    omega
  simp only [prepare, List.cons_append, List.foldl_cons, List.foldl_append, foldl_ahead,
    List.foldl_nil, after]
  by_cases hil : i = l
  · subst hil
    rw [if_neg fun hmem => absurd (hnexts i hmem) (lt_irrefl i)]
    simp [Le]
  · simp only [if_neg hil]
    split
    · rename_i hmem
      exact ⟨fun _ => by simp [hnexts l hmem], fun h => by simp [show left.resident = true from h]⟩
    · simp only [Le, hil, Bool.or_eq_true, Bool.and_eq_true, decide_eq_true_eq]
      tauto

theorem foldl_runLayer (l i : Nat) :
    Le ((runLayer cfg i).foldl (after l) (afterRounds cfg l i)) (afterRounds cfg l (i + 1)) := by
  rw [runLayer, List.foldl_append]
  refine ((foldl_prepare l i _).foldl l _).trans ?_
  simp only [List.foldl_cons, after, afterRounds]
  by_cases hahead : cfg.prefetchAhead ≤ i
  · simp only [if_pos hahead, List.foldl_cons, List.foldl_nil, after]
    split
    · simp only [Le, Bool.or_eq_true, Bool.and_eq_true, decide_eq_true_eq, Bool.false_eq_true,
        false_implies, and_true]
      omega
    · simp only [Le, Bool.or_eq_true, Bool.and_eq_true, decide_eq_true_eq]
      omega
  · simp only [if_neg hahead, List.foldl_nil, Le, Bool.or_eq_true, Bool.and_eq_true,
      decide_eq_true_eq]
    omega

theorem foldl_release (l : Nat) (ls : List Nat) (left : Leftover) :
    (ls.map Instr.release).foldl (after l) left =
      if l ∈ ls then ⟨left.pending, false⟩ else left := by
  induction ls generalizing left with
  | nil => rfl
  | cons l' ls ih =>
    rw [List.map_cons, List.foldl_cons, ih]
    simp only [after, List.mem_cons]
    by_cases h : l' = l
    · subst h
      simp
    · simp [h, Ne.symm h]

theorem foldl_rounds (l n : Nat) :
    Le (((List.range n).flatMap (runLayer cfg)).foldl (after l) ⟨true, true⟩)
      (afterRounds cfg l n) := by
  induction n with
  | zero => simp [Le, afterRounds]
  | succ n ih =>
    rw [List.range_succ, List.flatMap_append, List.foldl_append, List.flatMap_singleton]
    exact (ih.foldl l _).trans (foldl_runLayer l n)

theorem foldl_runAllLayers {l : Nat} (hl : l < cfg.layers.length) :
    Le ((runAllLayers cfg).foldl (after l) ⟨true, true⟩) ⟨false, false⟩ := by
  rw [runAllLayers, List.foldl_append]
  refine ((foldl_rounds l cfg.layers.length).foldl l _).trans ?_
  rw [foldl_release]
  simp only [afterRounds, List.mem_filter, List.mem_range, decide_eq_true_eq]
  split
  · simp only [Le, decide_eq_true_eq, Bool.false_eq_true,
        false_implies, and_true]
    omega
  · simp only [Le, decide_eq_true_eq]
    omega

end Leftover

/-! ## Steps -/

/-- The layer that `waitForLayer` is about to kick. -/
def retried : List Instr → Option Nat
  | .kick _ :: .receive l :: _ => some l
  | _ => none

/-- The kick in `waitForLayer` gets a channel. -/
def FindsChannel (s : Streamer τ) : Prop :=
  ∀ l ∈ retried s.todo, s.Known l ∨ s.inflight.lookup l = none

/-- Reads succeed, contexts are not cancelled, and no kick in `waitForLayer`
comes between a send and the removal of the entry. -/
def Undisturbed (s : Streamer τ) : Label → Prop
  | .send _ ok => ok = true
  | .cancelled => False
  | .next => FindsChannel s
  | _ => True

instance (s : Streamer τ) : (a : Label) → Decidable (Undisturbed s a)
  | .send _ ok => inferInstanceAs (Decidable (ok = true))
  | .cancelled => .isFalse id
  | .next => inferInstanceAs
      (Decidable (∀ l ∈ retried s.todo, s.Known l ∨ s.inflight.lookup l = none))
  | .prepare _ | .release _ | .runAllLayers | .callbackFails | .remove _ => .isTrue trivial

/-- The fetches of a layer whose result has not been consumed. -/
def outstanding (s : Streamer τ) (l : Nat) : Nat := if (s.pending.lookup l).isSome then 1 else 0

def leftover (s : Streamer τ) (l : Nat) : Leftover :=
  ⟨(s.pending.lookup l).isSome, (s.residentData.lookup l).isSome⟩

/-- What a kick does. -/
structure Kicked (l : Nat) (s s' : Streamer τ) : Prop where
  todo : s'.todo = s.todo
  error : s'.error = s.error
  running : s'.running = s.running
  opened : ¬ s.Known l → s.inflight.lookup l = none → (s'.pending.lookup l).isSome = true
  sent : ∀ l' r, s'.pending.lookup l' = some (some r) → s.pending.lookup l' = some (some r)
  others : ∀ l', l' ≠ l → s'.pending.lookup l' = s.pending.lookup l'
  held : ∀ l', (s'.residentData.lookup l').isSome = true → (s.residentData.lookup l').isSome = true
  counts : ∀ l', s'.fetched l' + s.consumed l' + s.outstanding l' =
    s.fetched l' + s'.consumed l' + s'.outstanding l'

theorem Released.held {ls : List Nat} {s s' : Streamer τ} (h : Released ls s s') {l : Nat}
    (hl : (s'.residentData.lookup l).isSome = true) : (s.residentData.lookup l).isSome = true := by
  by_cases hmem : l ∈ ls
  · rw [h.gone l hmem] at hl
    cases hl
  · rwa [h.kept l hmem] at hl

theorem Inv.kicked (h : Inv cfg s) {l : Nat} (hl : l < cfg.layers.length) :
    Kicked l s (Streamer.kickPrefetch cfg s l) := by
  by_cases hknown : s.Known l
  · rw [Streamer.kickPrefetch, if_pos hknown]
    exact ⟨rfl, rfl, rfl, fun hunknown => absurd hknown hunknown, fun _ _ => id, fun _ _ => rfl,
      fun _ => id, fun _ => rfl⟩
  · obtain ⟨s₁, hrel, heq, -, -, -⟩ := h.kickPrefetch_unknown hl hknown
    obtain ⟨data, bt, rfl⟩ : ∃ data bt, s₁ = { s with residentData := data, budget := bt } :=
      ⟨_, _, hrel.only⟩
    have hpending : s.pending.lookup l = none :=
      Option.not_isSome_iff_eq_none.mp fun hp => hknown (.inr hp)
    rw [heq, fetch]
    split
    · -- the goroutine of the layer has not ended: there is no channel
      rename_i hflying
      refine ⟨rfl, rfl, rfl, fun _ hidle => ?_, fun _ _ => id, fun _ _ => rfl, fun l' => hrel.held,
        fun _ => rfl⟩
      have hflying' : (s.inflight.lookup l).isSome = true := hflying
      rw [hidle] at hflying'
      cases hflying'
    refine ⟨rfl, rfl, rfl, fun _ _ => ?_, fun l' r hr => ?_,
      fun l' hne => AList.lookup_insert_ne hne, fun l' => hrel.held, fun l' => ?_⟩
    · show ((s.pending.insert l none).lookup l).isSome = true
      rw [AList.lookup_insert]
      rfl
    · have hr' : (s.pending.insert l none).lookup l' = some (some r) := hr
      rw [GoMap.lookup_insert_ite] at hr'
      split at hr'
      · cases hr'
      · exact hr'
    · show Function.update s.fetched l (s.fetched l + 1) l' + s.consumed l' + s.outstanding l' =
        s.fetched l' + s.consumed l' +
          if ((s.pending.insert l none).lookup l').isSome then 1 else 0
      rw [GoMap.lookup_insert_ite]
      unfold outstanding
      by_cases hne : l' = l
      · subst hne
        rw [Function.update_self, hpending, if_pos rfl]
        simp only [Option.isSome_none, Option.isSome_some, if_true, Bool.false_eq_true, if_false]
        omega
      · rw [Function.update_of_ne hne, if_neg hne]

/-! ## Runs -/

/-- The state of an undisturbed run. -/
structure Served (cfg : StreamerConfig τ) (s : Streamer τ) : Prop where
  inv : Inv cfg s
  sent : ∀ l r, s.pending.lookup l = some (some r) → r.tensors = some (cfg.tensors l)
  counts : ∀ l, s.fetched l = s.consumed l + s.outstanding l
  error : ∀ e, s.error = some e → e = .outOfRange ∨ e = .compute
  phase : ∃ ph, Ordered ph s.todo
  receiving : ∀ l rest, s.todo = .receive l :: rest → (s.pending.lookup l).isSome = true
  retrying : ∀ instr l rest, s.todo = instr :: .receive l :: rest → ¬ s.Known l
  noReceive : ∀ l, Instr.receive l ∉ s.todo.tail.tail
  settles : s.running = true → s.error = none → ∀ l, l < cfg.layers.length →
    Leftover.Le (s.todo.foldl (Leftover.after l) (s.leftover l)) ⟨false, false⟩

theorem Served.newStreamer : Served cfg (newStreamer cfg) :=
  ⟨.newStreamer, fun _ _ hr => (by cases hr), fun _ => rfl, fun _ he => (by cases he),
    ⟨.idle, trivial⟩, fun _ _ ht => (by cases ht), fun _ _ _ ht => (by cases ht),
    fun _ => List.not_mem_nil, fun hr => (by cases hr)⟩

/-- A call or a step of a call that ends in an error. -/
theorem Served.fail (h : Served cfg s) {e : StreamError} (he : e = .outOfRange ∨ e = .compute) :
    Served cfg (s.fail e) :=
  ⟨h.inv.fail e, h.sent, h.counts, fun _ he' => Option.some.inj he' ▸ he,
    ⟨.idle, trivial⟩, fun _ _ ht => (by cases ht), fun _ _ _ ht => (by cases ht),
    fun _ => List.not_mem_nil, fun _ hnone => (by cases hnone)⟩

theorem Served.call (h : Served cfg s) {todo : List Instr} {running : Bool}
    (htodo : ∀ instr ∈ todo, instr.InRange cfg.layers.length) (hordered : Ordered .idle todo)
    (hnoReceive : ∀ l, Instr.receive l ∉ todo)
    (hsettles : running = true → ∀ l, l < cfg.layers.length →
      Leftover.Le (todo.foldl (Leftover.after l) ⟨true, true⟩) ⟨false, false⟩) :
    Served cfg (s.call todo running) := by
  refine ⟨h.inv.call htodo running, h.sent, h.counts, fun _ he => (by cases he),
    ⟨.idle, hordered⟩, fun l rest ht => ?_, fun instr l rest ht => ?_,
    fun l hl => hnoReceive l (List.mem_of_mem_tail (List.mem_of_mem_tail hl)), fun hr _ l hl => ?_⟩
  · have ht' : todo = .receive l :: rest := ht
    exact absurd (ht' ▸ List.mem_cons_self) (hnoReceive l)
  · have ht' : todo = instr :: .receive l :: rest := ht
    exact absurd (ht' ▸ List.mem_cons_of_mem _ List.mem_cons_self) (hnoReceive l)
  · exact (Leftover.Le.foldl ⟨fun _ => rfl, fun _ => rfl⟩ l todo).trans (hsettles hr l hl)

/-- Only a kick or a wait comes before a receive. -/
theorem Ordered.not_receive {ph : Phase} {rest : List Instr} (h : Ordered ph rest)
    (hph : ∀ l, ph ≠ .kicked l) (l : Nat) (rest' : List Instr) : rest ≠ .receive l :: rest' := by
  rintro rfl
  cases ph with
  | idle => exact h
  | kicked l' => exact hph l' rfl
  | ready l' => exact h

/-- The next instruction is done, and what it left is what its `after` says. -/
theorem Served.advance (h : Served cfg s) {instr : Instr} {rest : List Instr} {s' : Streamer τ}
    (htodo : s.todo = instr :: rest) (hinv : Inv cfg s')
    (hsent : ∀ l r, s'.pending.lookup l = some (some r) → s.pending.lookup l = some (some r))
    (hcounts : ∀ l, s'.fetched l = s'.consumed l + s'.outstanding l)
    (htodo' : s'.todo = rest) (herror : s'.error = s.error) (hrunning : s'.running = s.running)
    {ph : Phase} (hphase : Ordered ph rest)
    (hreceiving : ∀ l rest', rest = .receive l :: rest' → (s'.pending.lookup l).isSome = true)
    (hleft : ∀ l, Leftover.Le (s'.leftover l) (Leftover.after l (s.leftover l) instr)) :
    Served cfg s' := by
  have hno : ∀ l, Instr.receive l ∉ rest.tail := fun l hl => h.noReceive l (by rw [htodo]; exact hl)
  refine ⟨hinv, fun l r hr => h.sent l r (hsent l r hr), hcounts, fun e he => ?_, ⟨ph, ?_⟩,
    fun l rest' ht => ?_, fun instr' l rest' ht => ?_, fun l hl => ?_, fun hr he l hl => ?_⟩
  · exact h.error e (herror ▸ he)
  · rw [htodo']
    exact hphase
  · exact hreceiving l rest' (htodo' ▸ ht)
  · rw [htodo'] at ht
    rw [ht] at hno
    exact absurd List.mem_cons_self (hno l)
  · rw [htodo'] at hl
    exact hno l (List.mem_of_mem_tail hl)
  · have hsettles := h.settles (hrunning ▸ hr) (herror ▸ he) l hl
    rw [htodo, List.foldl_cons] at hsettles
    rw [htodo']
    exact ((hleft l).foldl l rest).trans hsettles

theorem Kicked.counts_kept {l : Nat} {s' : Streamer τ} (h : Kicked l s s')
    (hs : ∀ l', s.fetched l' = s.consumed l' + s.outstanding l') (l' : Nat) :
    s'.fetched l' = s'.consumed l' + s'.outstanding l' := by
  have hcounts := h.counts l'
  have hbefore := hs l'
  omega

theorem Kicked.leftover {l : Nat} {s' : Streamer τ} (h : Kicked l s s') (l' : Nat) :
    Leftover.Le (s'.leftover l') (Leftover.after l' (s.leftover l') (.kick l)) := by
  simp only [Leftover.after]
  split
  · exact ⟨fun _ => rfl, h.held l'⟩
  · rename_i hne
    refine ⟨fun hp => ?_, h.held l'⟩
    exact (congrArg Option.isSome (h.others l' (Ne.symm hne))).symm.trans hp

/-- A received result is counted, and only its data is left. -/
theorem Served.receive (hsizes : ∀ size ∈ cfg.layers, size ≤ cfg.budgetBytes) (h : Served cfg s)
    {l : Nat} {rest : List Instr} (htodo : s.todo = .receive l :: rest)
    (hordered : Ordered (.ready l) rest) {result : PrefetchResult τ}
    (hp : s.pending.lookup l = some (some result)) :
    Served cfg (accept (Streamer.consume { s with todo := rest } l) l result) := by
  have hrest : Inv cfg { s with todo := rest } := by
    refine h.inv.setTodo fun i hi => h.inv.todo i ?_
    rw [htodo]
    exact List.mem_cons_of_mem _ hi
  have hok := h.sent l result hp
  have hfit : cfg.layers.getD l 0 ≤ cfg.budgetBytes := by
    rw [List.getD_eq_getElem?_getD]
    cases hl : cfg.layers[l]? with
    | none => exact Nat.zero_le _
    | some size => exact hsizes size (List.mem_of_getElem? hl)
  obtain ⟨heq, hinv, -⟩ := hrest.accept_ok hp hok hfit
  rw [heq] at hinv ⊢
  refine h.advance htodo hinv (fun l' r hr => ?_) (fun l' => ?_) rfl rfl rfl hordered
    (fun _ _ ht => absurd ht (hordered.not_receive (fun _ hl => (by cases hl)) _ _)) (fun l' => ?_)
  · have hr' : (s.pending.erase l).lookup l' = some (some r) := hr
    rw [GoMap.lookup_erase_ite] at hr'
    split at hr'
    · cases hr'
    · exact hr'
  · have hcounts := h.counts l'
    show s.fetched l' = Function.update s.consumed l (s.consumed l + 1) l' +
      if ((s.pending.erase l).lookup l').isSome then 1 else 0
    rw [outstanding] at hcounts
    rw [GoMap.lookup_erase_ite]
    by_cases hl : l' = l
    · subst hl
      rw [hp] at hcounts
      rw [Function.update_self, if_pos rfl]
      exact hcounts
    · rw [Function.update_of_ne hl, if_neg hl]
      exact hcounts
  · simp only [Leftover.after]
    by_cases hl : l' = l
    · subst hl
      rw [if_pos rfl]
      refine ⟨fun hpend => ?_, fun _ => rfl⟩
      have hpend' : ((s.pending.erase l').lookup l').isSome = true := hpend
      rw [AList.lookup_erase] at hpend'
      exact hpend'
    · rw [if_neg (Ne.symm hl)]
      refine ⟨fun hpend => ?_, fun hres => ?_⟩
      · have hpend' : ((s.pending.erase l).lookup l').isSome = true := hpend
        rwa [AList.lookup_erase_ne hl] at hpend'
      · have hres' : ((s.residentData.insert l (cfg.tensors l)).lookup l').isSome = true := hres
        rwa [AList.lookup_insert_ne hl] at hres'

/-- A wait for a pending result is a receive. -/
theorem Served.waits (h : Served cfg s) {l : Nat} {rest : List Instr}
    (htodo : s.todo = .wait l :: rest) (hl : l < cfg.layers.length)
    (hordered : Ordered (.ready l) rest) (hpending : (s.pending.lookup l).isSome = true) :
    Served cfg { s with todo := .receive l :: rest } := by
  refine ⟨h.inv.setTodo fun i hi => ?_, h.sent, h.counts, h.error, ⟨.kicked l, ⟨rfl, hordered⟩⟩,
    fun l' rest' ht => ?_, fun _ l' rest' ht => ?_, fun l' hmem => ?_, fun hr he l' hl' => ?_⟩
  · rcases List.mem_cons.mp hi with rfl | hi
    · exact hl
    · exact h.inv.todo i (htodo ▸ List.mem_cons_of_mem _ hi)
  · obtain ⟨hhead, -⟩ := List.cons.inj ht
    exact Instr.receive.inj hhead ▸ hpending
  · obtain ⟨-, hrest⟩ := List.cons.inj ht
    exact absurd hrest (hordered.not_receive (fun _ hl => (by cases hl)) _ _)
  · refine h.noReceive l' ?_
    rw [htodo]
    exact hmem
  · have hsettles := h.settles hr he l' hl'
    rw [htodo] at hsettles
    exact hsettles

/-- A wait for a layer that is neither there nor on its way is a kick and a receive. -/
theorem Served.retries (h : Served cfg s) {l : Nat} {rest : List Instr}
    (htodo : s.todo = .wait l :: rest) (hl : l < cfg.layers.length)
    (hordered : Ordered (.ready l) rest) (hunknown : ¬ s.Known l) :
    Served cfg { s with todo := .kick l :: .receive l :: rest } := by
  have hno : ∀ l', Instr.receive l' ∉ rest := by
    intro l' hmem
    cases rest with
    | nil => cases hmem
    | cons instr rest =>
      rcases List.mem_cons.mp hmem with rfl | hmem
      · exact hordered
      · refine h.noReceive l' ?_
        rw [htodo]
        exact hmem
  refine ⟨h.inv.setTodo fun i hi => ?_, h.sent, h.counts, h.error, ⟨.idle, ⟨rfl, hordered⟩⟩,
    fun l' rest' ht => (by cases ht), fun _ l' rest' ht => ?_, fun l' hmem => hno l' hmem,
    fun hr he l' hl' => ?_⟩
  · rcases List.mem_cons.mp hi with rfl | hi
    · exact hl
    rcases List.mem_cons.mp hi with rfl | hi
    · exact hl
    · exact h.inv.todo i (htodo ▸ List.mem_cons_of_mem _ hi)
  · obtain ⟨-, hrest⟩ := List.cons.inj ht
    obtain ⟨hhead, -⟩ := List.cons.inj hrest
    exact Instr.receive.inj hhead ▸ hunknown
  · have hsettles := h.settles hr he l' hl'
    rw [htodo, List.foldl_cons] at hsettles
    rw [List.foldl_cons, List.foldl_cons]
    refine Leftover.Le.trans (Leftover.Le.foldl ?_ l' rest) hsettles
    simp only [Leftover.after]
    split
    · exact Leftover.Le.refl _
    · exact Leftover.Le.refl _

theorem Served.exec (hsizes : ∀ size ∈ cfg.layers, size ≤ cfg.budgetBytes) (h : Served cfg s)
    {instr : Instr} {rest : List Instr} (htodo : s.todo = instr :: rest)
    (hblocked : s.blocked = false) (hquiet : Undisturbed s .next) :
    Served cfg (Streamer.exec cfg { s with todo := rest } instr) := by
  have hrange := h.inv.todo
  rw [htodo] at hrange
  have hrest : Inv cfg { s with todo := rest } :=
    h.inv.setTodo fun i hi => hrange i (List.mem_cons_of_mem _ hi)
  have hinstr := hrange instr List.mem_cons_self
  obtain ⟨ph, hordered⟩ := h.phase
  rw [htodo] at hordered
  cases instr with
  | kick l =>
    cases ph <;> first | exact hordered.elim | skip
    have hk := hrest.kicked hinstr
    refine h.advance htodo (hrest.kickPrefetch hinstr).1 hk.sent (hk.counts_kept h.counts) hk.todo
      hk.error hk.running hordered (fun l' rest' ht => ?_) hk.leftover
    -- the kick in `waitForLayer`
    subst ht
    obtain ⟨rfl, -⟩ := hordered
    have hunknown := h.retrying _ _ _ htodo
    have hchannel := hquiet l' (by rw [htodo]; rfl)
    exact hk.opened hunknown (hchannel.resolve_left hunknown)
  | wait l =>
    cases ph <;> first | exact hordered.elim | skip
    obtain ⟨rfl, hordered⟩ := hordered
    by_cases hheld : (s.residentData.lookup l).isSome = true
    · have heq : Streamer.exec cfg { s with todo := rest } (.wait l) = { s with todo := rest } :=
        if_pos hheld
      rw [heq]
      refine h.advance htodo hrest (fun _ _ => id) h.counts rfl rfl rfl hordered
        (fun _ _ ht => absurd ht (hordered.not_receive (fun _ hl => (by cases hl)) _ _))
        fun l' => ?_
      simp only [Leftover.after]
      split
      · rename_i hl
        subst hl
        refine ⟨fun hpend => ?_, fun _ => rfl⟩
        rw [(h.inv.awaited l hpend).2] at hheld
        cases hheld
      · exact Leftover.Le.refl _
    · by_cases hpending : (s.pending.lookup l).isSome = true
      · have heq : Streamer.exec cfg { s with todo := rest } (.wait l) =
            { s with todo := .receive l :: rest } := (if_neg hheld).trans (if_pos hpending)
        rw [heq]
        exact h.waits htodo hinstr hordered hpending
      · have heq : Streamer.exec cfg { s with todo := rest } (.wait l) =
            { s with todo := .kick l :: .receive l :: rest } :=
          (if_neg hheld).trans (if_neg hpending)
        rw [heq]
        exact h.retries htodo hinstr hordered (not_or.mpr ⟨hheld, hpending⟩)
  | receive l =>
    cases ph <;> first | exact hordered.elim | skip
    obtain ⟨rfl, hordered⟩ := hordered
    have hreceiving := h.receiving l rest htodo
    cases hp : s.pending.lookup l with
    | none =>
      rw [hp] at hreceiving
      cases hreceiving
    | some sent =>
      cases sent with
      | none =>
        simp only [blocked, htodo, hp] at hblocked
        cases hblocked
      | some result =>
        rw [exec_receive_sent (s := { s with todo := rest }) hp]
        exact h.receive hsizes htodo hordered hp
  | ahead l next =>
    cases ph <;> first | exact hordered.elim | skip
    obtain ⟨rfl, hordered⟩ := hordered
    have hk := hrest.kicked hinstr
    exact h.advance htodo (hrest.kickPrefetch hinstr).1 hk.sent (hk.counts_kept h.counts) hk.todo
      hk.error hk.running hordered
      (fun _ _ ht => absurd ht (hordered.not_receive (fun _ hl => (by cases hl)) _ _)) hk.leftover
  | prepared l =>
    cases ph <;> first | exact hordered.elim | skip
    exact h.advance htodo hrest (fun _ _ => id) h.counts rfl rfl rfl hordered.2
      (fun _ _ ht => absurd ht (hordered.2.not_receive (fun _ hl => (by cases hl)) _ _))
      fun _ => Leftover.Le.refl _
  | compute l =>
    cases ph <;> first | exact hordered.elim | skip
    have hidle : Ordered .idle rest := hordered
    exact h.advance htodo hrest (fun _ _ => id) h.counts rfl rfl rfl hidle
      (fun _ _ ht => absurd ht (hidle.not_receive (fun _ hl => (by cases hl)) _ _))
      fun _ => Leftover.Le.refl _
  | release l =>
    cases ph <;> first | exact hordered.elim | skip
    obtain ⟨hinv, hrel⟩ := hrest.releaseLayer l
    have hidle : Ordered .idle rest := hordered
    refine h.advance htodo hinv (fun _ _ => id) h.counts rfl rfl rfl hidle
      (fun _ _ ht => absurd ht (hidle.not_receive (fun _ hl => (by cases hl)) _ _)) fun l' => ?_
    simp only [Leftover.after]
    split
    · rename_i heq
      subst heq
      refine ⟨id, fun hres => ?_⟩
      have hgone := congrArg Option.isSome (hrel.gone l List.mem_cons_self)
      exact hgone.symm.trans hres
    · exact ⟨id, hrel.held⟩

theorem receive_not_mem_prepare (l i : Nat) : Instr.receive l ∉ prepare cfg i := by
  simp [prepare]

theorem receive_not_mem_runAllLayers (l : Nat) : Instr.receive l ∉ runAllLayers cfg := by
  simp only [runAllLayers, runLayer, List.mem_append, List.mem_flatMap, List.mem_cons,
    List.mem_map, not_or, not_exists, not_and]
  refine ⟨fun i _ => ⟨receive_not_mem_prepare l i, fun h => (by cases h), ?_⟩,
    fun _ _ h => (by cases h)⟩
  split
  · simp
  · exact List.not_mem_nil

theorem Served.send (h : Served cfg s) {l : Nat} (hl : s.inflight.lookup l = some .reading) :
    Served cfg (Streamer.apply cfg s (.send l true)) := by
  have hpending := h.inv.reading l hl
  have hsome : ∀ l', ((s.pending.insert l (some ⟨l, some (cfg.tensors l)⟩)).lookup l').isSome =
      (s.pending.lookup l').isSome := by
    intro l'
    rw [GoMap.lookup_insert_ite]
    split
    · rename_i heq
      rw [heq, hpending]
      rfl
    · rfl
  have hleft : ∀ l', (Streamer.apply cfg s (.send l true)).leftover l' = s.leftover l' :=
    fun l' => congrArg (Leftover.mk · _) (hsome l')
  refine ⟨h.inv.send hl true, fun l' r hr => ?_, fun l' => ?_, h.error, h.phase,
    fun l' rest ht => ?_, fun instr l' rest ht => ?_, h.noReceive, fun hr he l' hl' => ?_⟩
  · have hr' : (s.pending.insert l (some ⟨l, some (cfg.tensors l)⟩)).lookup l' = some (some r) := hr
    rw [GoMap.lookup_insert_ite] at hr'
    split at hr'
    · rename_i heq
      subst heq
      obtain rfl := Option.some.inj (Option.some.inj hr')
      rfl
    · exact h.sent l' r hr'
  · have hcounts := h.counts l'
    rw [outstanding, ← hsome l'] at hcounts
    exact hcounts
  · exact (hsome l').trans (h.receiving l' rest ht)
  · refine fun hknown => h.retrying instr l' rest ht (hknown.imp id fun hp => ?_)
    exact (hsome l').symm.trans hp
  · rw [hleft]
    exact h.settles hr he l' hl'

theorem Served.apply (hsizes : ∀ size ∈ cfg.layers, size ≤ cfg.budgetBytes) (h : Served cfg s)
    {a : Label} (hquiet : Undisturbed s a) (ha : s.Enabled a) :
    Served cfg (Streamer.apply cfg s a) := by
  cases a with
  | prepare l =>
    show Served cfg (if 0 ≤ l ∧ l < cfg.layers.length then _ else _)
    split
    · rename_i hl
      exact h.call (prepare_inRange (by omega)) (ordered_prepare _)
        (fun _ => receive_not_mem_prepare _ _) fun hr => (by cases hr)
    · refine Served.fail (h.call (fun _ hi => absurd hi List.not_mem_nil) trivial
        (fun _ => List.not_mem_nil) fun hr => (by cases hr)) (.inl rfl)
  | release l =>
    refine h.call (releaseCall_inRange l) ?_ (fun l' hmem => ?_) fun hr => (by cases hr)
    · split
      · trivial
      · trivial
    · split at hmem
      · cases List.mem_singleton.mp hmem
      · cases hmem
  | runAllLayers =>
    exact h.call runAllLayers_inRange ordered_runAllLayers receive_not_mem_runAllLayers
      fun _ _ hl => Leftover.foldl_runAllLayers hl
  | next =>
    cases htodo : s.todo with
    | nil => exact absurd htodo ha.1
    | cons instr rest =>
      have heq : Streamer.apply cfg s .next = Streamer.exec cfg { s with todo := rest } instr := by
        simp only [Streamer.apply, htodo]
      rw [heq]
      exact h.exec hsizes htodo ha.2 hquiet
  | cancelled => exact hquiet.elim
  | callbackFails => exact h.fail (.inr rfl)
  | send l ok =>
    obtain rfl : ok = true := hquiet
    exact h.send ha
  | remove l => exact ⟨h.inv.remove l, h.sent, h.counts, h.error, h.phase, h.receiving,
      h.retrying, h.noReceive, h.settles⟩

theorem served_invariant (hsizes : ∀ size ∈ cfg.layers, size ≤ cfg.budgetBytes) :
    ((sys cfg).restrict Undisturbed).Invariant (Served cfg) := by
  refine TSys.Inductive.invariant ⟨fun s hs => ?_, fun s a s' h hstep => ?_⟩
  · rw [show s = newStreamer cfg from hs]
    exact .newStreamer
  · obtain ⟨hquiet, ha, rfl⟩ := hstep
    exact h.apply hsizes hquiet ha

/-- Nothing of any layer is left at the end of `RunAllLayers`. -/
theorem Served.settled (h : Served cfg s) (htodo : s.todo = []) (hrunning : s.running = true)
    (herror : s.error = none) :
    s.budget.usedBytes = 0 ∧ s.residentData = ∅ ∧ s.pending = ∅ := by
  have hpending : ∀ l, s.pending.lookup l = none := by
    intro l
    by_contra hne
    have hsome := Option.isSome_iff_ne_none.mpr hne
    have hle := h.settles hrunning herror l (h.inv.awaited l hsome).1
    rw [htodo] at hle
    exact absurd (hle.1 hsome) Bool.false_ne_true
  have hresident : ∀ l, s.residentData.lookup l = none := by
    intro l
    by_contra hne
    have hsome := Option.isSome_iff_ne_none.mpr hne
    have hle := h.settles hrunning herror l (h.inv.books.lt_of_held hsome)
    rw [htodo] at hle
    exact absurd (hle.2 hsome) Bool.false_ne_true
  refine ⟨?_, GoMap.eq_empty hresident, GoMap.eq_empty hpending⟩
  have hbytes : s.budget.residentBytes = 0 := by
    rw [BudgetTracker.residentBytes, List.sum_eq_zero_iff]
    intro n hn
    obtain ⟨e, he, rfl⟩ := List.mem_map.mp hn
    obtain ⟨l, hl⟩ := List.mem_iff_getElem?.mp he
    refine if_neg fun hres => ?_
    have hstate : s.budget.state l = .resident := by
      rw [BudgetTracker.state, hl]
      exact hres
    have hsome := (h.inv.books.resident l).mpr hstate
    rw [hresident l] at hsome
    cases hsome
  rw [h.inv.books.used, hbytes]
  rfl

/-- In an undisturbed run with layers that fit the budget, a call only fails for
a layer out of range or in its callback, every result is consumed once or still
pending and is that of its layer, and `RunAllLayers` leaves nothing. -/
theorem prefetch_served (hsizes : ∀ size ∈ cfg.layers, size ≤ cfg.budgetBytes) (s : Streamer τ)
    (hs : ((sys cfg).restrict Undisturbed).Reachable s) :
    (∀ e, s.error = some e → e = .outOfRange ∨ e = .compute) ∧
      (∀ l, s.fetched l = s.consumed l + if (s.pending.lookup l).isSome then 1 else 0) ∧
      (∀ l r, s.pending.lookup l = some (some r) →
        r.layerIndex = l ∧ r.tensors = some (cfg.tensors l)) ∧
      (∀ l tensors, s.residentData.lookup l = some tensors → tensors = cfg.tensors l) ∧
      (s.todo = [] → s.running = true → s.error = none →
        s.budget.usedBytes = 0 ∧ s.residentData = ∅ ∧ s.pending = ∅) := by
  have h := served_invariant hsizes s hs
  exact ⟨h.error, h.counts, fun l r hr => ⟨(h.inv.results l r hr).1, h.sent l r hr⟩,
    h.inv.books.data, h.settled⟩

/-- `RunAllLayers` over three layers, each read as soon as it is fetched. -/
theorem prefetch_served_threeLayers :
    let cfg := threeLayers 600 1 (by decide)
    let s := [Label.runAllLayers, .next, .send 0 true, .remove 0, .next, .next, .next, .send 1 true,
      .remove 1, .next, .next, .next, .next, .next, .next, .send 2 true, .remove 2, .next, .next,
      .next, .next, .next, .next, .next, .next, .next, .next].foldl (apply cfg) (newStreamer cfg)
    (∀ e, s.error = some e → e = .outOfRange ∨ e = .compute) ∧
      (∀ l, s.fetched l = s.consumed l + if (s.pending.lookup l).isSome then 1 else 0) ∧
      (∀ l r, s.pending.lookup l = some (some r) →
        r.layerIndex = l ∧ r.tensors = some (cfg.tensors l)) ∧
      (∀ l tensors, s.residentData.lookup l = some tensors → tensors = cfg.tensors l) ∧
      (s.todo = [] → s.running = true → s.error = none →
        s.budget.usedBytes = 0 ∧ s.residentData = ∅ ∧ s.pending = ∅) := by
  intro cfg s
  have hinit : ((sys cfg).restrict Undisturbed).Reachable (newStreamer cfg) := .init rfl
  exact prefetch_served (by decide) s (TSys.Reachable.run_restrict hinit _ (by decide))

/-- Every read succeeds and no context is cancelled. -/
def ReadsSucceed (_ : Streamer τ) : Label → Prop
  | .send _ ok => ok = true
  | .cancelled => False
  | _ => True

instance (s : Streamer τ) : (a : Label) → Decidable (ReadsSucceed s a)
  | .send _ ok => inferInstanceAs (Decidable (ok = true))
  | .cancelled => .isFalse id
  | .prepare _ | .release _ | .runAllLayers | .next | .callbackFails | .remove _ => .isTrue trivial

/-- With good reads only, `Prepare` fails for a layer that is larger than the
budget, and for one whose goroutine has sent but not yet removed its entry. -/
theorem prepare_fails :
    (∃ s, ((sys (threeLayers 100 1 (by decide))).restrict ReadsSucceed).Reachable s ∧
      s.error = some .exceedsBudget) ∧
    ∃ s, ((sys (threeLayers 600 0 (by decide))).restrict ReadsSucceed).Reachable s ∧
      s.error = some .notStarted := by
  let large : List Label := [.prepare 0, .next, .send 0 true, .remove 0, .next, .next]
  let stale : List Label := [.prepare 0, .next, .send 0 true, .next, .next, .next, .release 0,
    .next, .prepare 0, .next, .next, .next, .next]
  constructor
  · let cfg := threeLayers 100 1 (by decide)
    have hinit : ((sys cfg).restrict ReadsSucceed).Reachable (newStreamer cfg) := .init rfl
    refine ⟨large.foldl (apply cfg) (newStreamer cfg), TSys.Reachable.run_restrict hinit large ?_,
      ?_⟩
    · decide
    · decide
  · let cfg := threeLayers 600 0 (by decide)
    have hinit : ((sys cfg).restrict ReadsSucceed).Reachable (newStreamer cfg) := .init rfl
    refine ⟨stale.foldl (apply cfg) (newStreamer cfg), TSys.Reachable.run_restrict hinit stale ?_,
      ?_⟩
    · decide
    · decide

end Streamer

end Prismalama.Streaming
