import Prismalama.Mlxrunner.Speculation

/-!
# Speculative and plain greedy decoding

`runGreedyMTPDecode` against the loop of `TextGenerationPipeline`. Both are compared with
the greedy sequence of the target (`greedy`): what is emitted, and what the caches hold,
is a matter of that sequence alone, whatever the drafts (`runGreedyMTPDecode_eq`).
-/

namespace Prismalama.Mlxrunner

universe u

/-- What the session records of a decode loop, and what its client sees. -/
structure Emission (T D R : Type u) where
  outputs : List T
  generated : Nat
  doneReason : Nat
  dec : D
  responses : List R

def Decoding.emission {T D R : Type u} (s : Decoding T D R) : Emission T D R :=
  ⟨s.outputs, s.generated, s.doneReason, s.dec, s.responses⟩

namespace Runner

variable {T H D R : Type u} (r : Runner T H D R)

/-! ## The greedy sequence -/

/-- The next token of the target, when the hidden states that the target computes from
caches of these kinds are those of the sequence they hold. -/
def Computes [Inhabited T] (kinds : List CacheKind) (g : List T → T) : Prop :=
  ∀ (caches : List (Cache T)) (seq tokens : List T), caches.map Cache.kind = kinds →
    (∀ c ∈ caches, c.Holds seq) → ∀ i < tokens.length,
      r.unembed (r.forward caches seq.length tokens i) = g (seq ++ tokens.take (i + 1))

/-- The tokens that greedy decoding records after `seq`, `n` of them at most. -/
def greedy (g : List T → T) : Nat → List T → List T
  | 0, _ => []
  | n + 1, seq => g seq :: if r.isEOS (g seq) then [] else greedy g n (seq ++ [g seq])

/-- The tokens that are streamed. -/
def kept (ts : List T) : List T := ts.filter fun t => !r.isEOS t

def speak (p : D × List R) (t : T) : D × List R :=
  ((r.decode p.1 t).1, p.2 ++ (r.decode p.1 t).2.toList)

/-- What is emitted once the tokens `ts` are. -/
def after (e : Emission T D R) (ts : List T) : Emission T D R where
  outputs := e.outputs ++ ts
  generated := e.generated + (r.kept ts).length
  doneReason := if ts.any r.isEOS then 0 else e.doneReason
  dec := ((r.kept ts).foldl r.speak (e.dec, e.responses)).1
  responses := ((r.kept ts).foldl r.speak (e.dec, e.responses)).2

variable {r}

@[simp] theorem after_nil (e : Emission T D R) : r.after e [] = e := by
  simp [after, kept]

theorem after_append (e : Emission T D R) (ts ts' : List T) :
    r.after (r.after e ts) ts' = r.after e (ts ++ ts') := by
  unfold after kept
  simp only [List.append_assoc, List.filter_append, List.length_append, List.any_append,
    List.foldl_append, Nat.add_assoc, Prod.mk.eta, Emission.mk.injEq, true_and, and_true]
  cases ts.any r.isEOS <;> cases ts'.any r.isEOS <;> rfl

theorem kept_eq {ts : List T} (h : ts.any r.isEOS = false) : r.kept ts = ts := by
  refine List.filter_eq_self.mpr fun t ht => ?_
  rw [List.any_eq_false] at h
  simpa using h t ht

/-! ## What `emitTokens` does -/

/-- An end of the sequence comes last. -/
def Ends (r : Runner T H D R) (ts : List T) : Prop := ∀ t ∈ ts.dropLast, r.isEOS t = false

theorem record_eq {ts : List T} (h : r.Ends ts) (s : Decoding T D R) :
    r.record ts s =
      ({ s with
          outputs := s.outputs ++ ts
          generated := s.generated + (r.kept ts).length
          doneReason := if ts.any r.isEOS then 0 else s.doneReason },
        r.kept ts, ts.any r.isEOS) := by
  induction ts generalizing s with
  | nil => simp [record, kept]
  | cons t ts ih =>
    unfold record
    by_cases ht : r.isEOS t = true
    · have hnil : ts = [] := by
        by_contra hne
        have := h t (by rw [List.dropLast_cons_of_ne_nil hne]; exact List.mem_cons_self)
        rw [ht] at this
        cases this
      subst hnil
      simp [ht, kept]
    · have htail : r.Ends ts := by
        intro t' ht'
        refine h t' ?_
        rw [List.dropLast_cons_of_ne_nil (by rintro rfl; cases ht')]
        exact List.mem_cons_of_mem t ht'
      have htail' := ih htail { s with outputs := s.outputs ++ [t], generated := s.generated + 1 }
      simp only [if_neg ht]
      rw [htail']
      have hf := Bool.eq_false_iff.mpr ht
      simp [kept, hf, Nat.add_assoc, Nat.add_comm 1]

/-- What a stream of responses changes. -/
structure Streamed (r : Runner T H D R) (s : Decoding T D R) (ts : List T)
    (out : Decoding T D R × Bool) : Prop where
  caches : out.1.caches = s.caches
  position : out.1.position = s.position
  outputs : out.1.outputs = s.outputs
  generated : out.1.generated = s.generated
  doneReason : out.1.doneReason = s.doneReason
  sent : out.2 = false → (out.1.dec, out.1.responses) = ts.foldl r.speak (s.dec, s.responses)
  cancelled : out.2 = true → ∃ n, r.ctx n = true

theorem send_streamed (s : Decoding T D R) (t : T) : Streamed r s [t] (r.send s t) := by
  unfold send cancelled
  cases hdec : (r.decode s.dec t).2 with
  | none =>
    simp only [hdec]
    exact ⟨rfl, rfl, rfl, rfl, rfl, fun _ => by simp [speak, hdec], nofun⟩
  | some resp =>
    cases hctx : r.ctx s.clock with
    | true =>
      simp only [hdec, hctx, if_true]
      exact ⟨rfl, rfl, rfl, rfl, rfl, nofun, fun _ => ⟨_, hctx⟩⟩
    | false =>
      simp only [hdec, hctx, Bool.false_eq_true, if_false]
      exact ⟨rfl, rfl, rfl, rfl, rfl, fun _ => by simp [speak, hdec], nofun⟩

theorem stream_streamed (s : Decoding T D R) (ts : List T) : Streamed r s ts (r.stream ts s) := by
  induction ts generalizing s with
  | nil => exact ⟨rfl, rfl, rfl, rfl, rfl, fun _ => rfl, nofun⟩
  | cons t ts ih =>
    have hsend := send_streamed (r := r) s t
    unfold stream
    cases herr : (r.send s t).2 with
    | true =>
      simp only [herr, if_true]
      refine ⟨hsend.caches, hsend.position, hsend.outputs, hsend.generated, hsend.doneReason,
        fun h => ?_, fun _ => hsend.cancelled herr⟩
      rw [herr] at h
      cases h
    | false =>
      have hrest := ih (r.send s t).1
      have hsent := hsend.sent herr
      simp only [herr, Bool.false_eq_true, if_false]
      refine ⟨hrest.caches.trans hsend.caches, hrest.position.trans hsend.position,
        hrest.outputs.trans hsend.outputs, hrest.generated.trans hsend.generated,
        hrest.doneReason.trans hsend.doneReason, fun h => ?_, hrest.cancelled⟩
      rw [hrest.sent h, hsent]
      rfl

/-- What `emitTokens` does with these tokens. -/
structure Emits (r : Runner T H D R) (s : Decoding T D R) (ts : List T) (out : Emitted T D R) :
    Prop where
  caches : out.state.caches = s.caches
  position : out.state.position = s.position
  outputs : out.state.outputs = s.outputs ++ ts
  generated : out.state.generated = s.generated + (r.kept ts).length
  done : out.done =
    (ts.any r.isEOS || decide (r.numPredict ≤ s.generated + (r.kept ts).length))
  emitted : out.err = false → out.state.emission = r.after s.emission ts
  cancelled : out.err = true → ∃ n, r.ctx n = true

theorem emitTokens_emits (s : Decoding T D R) {ts : List T} (h : r.Ends ts) :
    Emits r s ts (r.emitTokens s ts) := by
  unfold emitTokens
  rw [record_eq h]
  have hstream := stream_streamed (r := r) { s with
    outputs := s.outputs ++ ts
    generated := s.generated + (r.kept ts).length
    doneReason := if ts.any r.isEOS then 0 else s.doneReason } (r.kept ts)
  refine ⟨hstream.caches, hstream.position, hstream.outputs, hstream.generated, rfl, fun herr => ?_,
    hstream.cancelled⟩
  have hsent := hstream.sent herr
  unfold Decoding.emission after
  rw [hstream.outputs, hstream.generated, hstream.doneReason, ← hsent]

/-! ## What the caches hold -/

variable [Inhabited T]

/-- The caches, of these kinds, hold `seq`, with nothing scheduled. -/
structure CachesHold (kinds : List CacheKind) (seq : List T) (s : Decoding T D R) : Prop where
  kinds : s.caches.map Cache.kind = kinds
  holds : ∀ c ∈ s.caches, c.Holds seq
  idle : ∀ c ∈ s.caches, c.Idle
  position : s.position = seq.length

variable {kinds : List CacheKind} {g : List T → T} {inputs : List T}

omit [Inhabited T] in
theorem CachesHold.congr {seq seq' : List T} {s s' : Decoding T D R} (h : CachesHold kinds seq s)
    (hcaches : s'.caches = s.caches) (hposition : s'.position = s.position) (hseq : seq' = seq) :
    CachesHold kinds seq' s' := by
  subst hseq
  refine ⟨?_, ?_, ?_, hposition.trans h.position⟩
  · rw [hcaches]
    exact h.kinds
  · rw [hcaches]
    exact h.holds
  · rw [hcaches]
    exact h.idle

theorem targetForward_holds {seq tokens : List T} {s : Decoding T D R} (h : CachesHold kinds seq s)
    (htokens : tokens ≠ []) : CachesHold kinds (seq ++ tokens) (r.targetForward s tokens).1 := by
  refine ⟨?_, ?_, ?_, ?_⟩
  · rw [← h.kinds]
    simp [targetForward, Cache.kind_update]
  · rintro _ hc
    obtain ⟨c, hmem, rfl⟩ := List.mem_map.mp hc
    exact (h.holds c hmem).update htokens
  · rintro _ hc
    obtain ⟨c, hmem, rfl⟩ := List.mem_map.mp hc
    exact (h.idle c hmem).update tokens
  · rw [List.length_append, ← h.position]
    rfl

theorem lastToken_eq (hr : r.Computes kinds g) {seq tokens : List T} {s : Decoding T D R}
    (h : CachesHold kinds seq s) (htokens : tokens ≠ []) :
    r.lastToken (r.targetForward s tokens).2 tokens = g (seq ++ tokens) := by
  have hpos := List.length_pos_of_ne_nil htokens
  show r.unembed (r.forward s.caches s.position tokens (tokens.length - 1)) = _
  rw [h.position, hr s.caches seq tokens h.kinds h.holds _ (by omega),
    List.take_of_length_le (by omega)]

/-! ## The plain loop -/

/-- A decode loop that emits `ts` behind `e`, unless it is cancelled. -/
structure Decodes (r : Runner T H D R) (kinds : List CacheKind) (inputs : List T)
    (e : Emission T D R) (ts : List T) (d : Decoded T D R) : Prop where
  holds : CachesHold kinds (inputs ++ d.state.outputs) d.state
  cancelled : d.final = none → ∃ n, r.ctx n = true
  finished : ∀ f, d.final = some f →
    d.state.emission = r.after e ts ∧ f = (d.state.doneReason, d.state.generated)

omit [Inhabited T] in
theorem finish_decodes {e : Emission T D R} {ts : List T} {s : Decoding T D R}
    (h : CachesHold kinds (inputs ++ s.outputs) s) (he : s.emission = r.after e ts) {k : Nat}
    (hk : k = s.generated) : Decodes r kinds inputs e ts (r.finish s k) := by
  refine ⟨h.congr rfl rfl rfl, ?_, ?_⟩
  · unfold finish Runner.cancelled
    cases hctx : r.ctx s.clock with
    | true => exact fun _ => ⟨_, hctx⟩
    | false => exact nofun
  · unfold finish Runner.cancelled
    cases r.ctx s.clock with
    | true => exact nofun
    | false =>
      rintro f hf
      obtain rfl := Option.some.inj hf
      exact ⟨he, by rw [hk]⟩

omit [Inhabited T] in
/-- A loop that goes on behind `ts`. -/
theorem Decodes.append {e : Emission T D R} {ts ts' : List T} {s : Decoding T D R}
    {d : Decoded T D R} (he : s.emission = r.after e ts)
    (h : Decodes r kinds inputs s.emission ts' d) : Decodes r kinds inputs e (ts ++ ts') d := by
  refine ⟨h.holds, h.cancelled, fun f hf => ?_⟩
  obtain ⟨hemit, hfinal⟩ := h.finished f hf
  exact ⟨by rw [hemit, he, after_append], hfinal⟩

theorem decodeLoop_decodes [DecidableEq T] (hr : r.Computes kinds g) {n : Nat} {s : Decoding T D R}
    (h : CachesHold kinds (inputs ++ s.outputs) s) (hn : s.generated + n = r.numPredict) :
    Decodes r kinds inputs s.emission (r.greedy g n (inputs ++ s.outputs))
      (r.decodeLoop r.numPredict n (g (inputs ++ s.outputs)) s) := by
  induction n generalizing s with
  | zero => exact finish_decodes h (after_nil _).symm (by omega)
  | succ n ih =>
    unfold decodeLoop Runner.cancelled
    generalize ht : g (inputs ++ s.outputs) = t
    cases hctx : r.ctx s.clock with
    | true =>
      simp only [if_true]
      exact ⟨h.congr rfl rfl rfl, fun _ => ⟨_, hctx⟩, nofun⟩
    | false =>
      have hc : CachesHold kinds (inputs ++ s.outputs) { s with clock := s.clock + 1 } :=
        h.congr rfl rfl rfl
      have hstep := targetForward_holds (r := r) hc (List.cons_ne_nil t [])
      have hnext := lastToken_eq hr hc (List.cons_ne_nil t [])
      simp only [Bool.false_eq_true, if_false]
      have hout : (r.targetForward { s with clock := s.clock + 1 } [t]).1.emission = s.emission := rfl
      generalize r.targetForward { s with clock := s.clock + 1 } [t] = step at hstep hnext hout ⊢
      obtain ⟨s₁, hidden⟩ := step
      obtain ⟨ho, hg, hd, hdec, hresp⟩ := Emission.mk.inj hout
      simp only at ho hg hd hdec hresp
      have hseq : inputs ++ (s₁.outputs ++ [t]) = inputs ++ s.outputs ++ [t] := by
        rw [ho, List.append_assoc]
      rw [greedy, ht]
      by_cases hend : r.isEOS t = true
      · simp only [hend, if_true]
        have hsteady : CachesHold kinds (inputs ++ (s₁.outputs ++ [t]))
            { s₁ with outputs := s₁.outputs ++ [t], doneReason := 0 } :=
          hstep.congr rfl rfl hseq
        refine finish_decodes hsteady ?_ rfl
        simp [Decoding.emission, after, kept, hend, ho, hg, hdec, hresp]
      · have hend := Bool.eq_false_iff.mpr hend
        have hsend := send_streamed (r := r) { s₁ with outputs := s₁.outputs ++ [t] } t
        simp only [hend, Bool.false_eq_true, if_false]
        generalize r.send { s₁ with outputs := s₁.outputs ++ [t] } t = sent at hsend ⊢
        obtain ⟨s₂, err⟩ := sent
        have hseq' : inputs ++ s₂.outputs = inputs ++ s.outputs ++ [t] :=
          (congrArg (inputs ++ ·) hsend.outputs).trans hseq
        have hsteady : CachesHold kinds (inputs ++ s₂.outputs) s₂ :=
          hstep.congr hsend.caches hsend.position hseq'
        cases err with
        | true =>
          simp only [if_true]
          exact ⟨hsteady, fun _ => hsend.cancelled rfl, nofun⟩
        | false =>
          have hemit : ({ s₂ with generated := s₂.generated + 1 } : Decoding T D R).emission =
              r.after s.emission [t] := by
            have hspoken := Prod.mk.inj (hsend.sent rfl)
            have hfields := And.intro hsend.outputs (And.intro hsend.generated hsend.doneReason)
            simp only at hspoken hfields
            simp [Decoding.emission, after, kept, speak, hend, hfields, hspoken, ho, hg, hd, hdec,
              hresp]
          have hgen : s₂.generated + 1 + n = r.numPredict := by
            have := hsend.generated
            simp only at this
            omega
          have hrest := ih (s := { s₂ with generated := s₂.generated + 1 })
            (hsteady.congr rfl rfl rfl) hgen
          simp only [hseq'] at hrest
          simp only [Bool.false_eq_true, if_false, hnext]
          exact hrest.append hemit

/-! ## The drafts that are accepted -/

variable [DecidableEq T]

/-- How many of the drafts the target would have chosen itself, up to an end. -/
def accepts (r : Runner T H D R) (g : List T → T) : List T → List T → Nat
  | _, [] => 0
  | seq, id :: drafts =>
    if g seq ≠ id then 0
    else if r.isEOS id then 1
    else accepts r g (seq ++ [id]) drafts + 1

omit [Inhabited T] in
theorem accepts_le (seq drafts : List T) : r.accepts g seq drafts ≤ drafts.length := by
  induction drafts generalizing seq with
  | nil => exact Nat.le_refl 0
  | cons id drafts ih =>
    have := ih (seq ++ [id])
    unfold accepts
    split
    · exact Nat.zero_le _
    · split <;> simp only [List.length_cons] <;> omega

/-- The drafts that are accepted. -/
def accepted (r : Runner T H D R) (g : List T → T) (seq drafts : List T) : List T :=
  drafts.take (r.accepts g seq drafts)

omit [Inhabited T] in
theorem accepted_cons {seq : List T} {id : T} (h : g seq = id) (hend : r.isEOS id = false)
    (drafts : List T) :
    r.accepted g seq (id :: drafts) = id :: r.accepted g (seq ++ [id]) drafts := by
  simp [accepted, accepts, h, hend]

omit [Inhabited T] in
theorem accepted_end {seq drafts : List T} {id : T} (h : g seq = id) (hend : r.isEOS id = true) :
    r.accepted g seq (id :: drafts) = [id] := by
  simp [accepted, accepts, h, hend]

omit [Inhabited T] in
theorem accepted_ne {seq drafts : List T} {id : T} (h : g seq ≠ id) :
    r.accepted g seq (id :: drafts) = [] := by
  simp [accepted, accepts, h]

omit [Inhabited T] in
theorem length_accepted (seq drafts : List T) :
    (r.accepted g seq drafts).length = r.accepts g seq drafts :=
  List.length_take_of_le (accepts_le seq drafts)

omit [Inhabited T] in
theorem ends_accepted (seq drafts : List T) : r.Ends (r.accepted g seq drafts) := by
  induction drafts generalizing seq with
  | nil => exact fun t ht => nomatch ht
  | cons id drafts ih =>
    by_cases h : g seq = id
    · cases hend : r.isEOS id with
      | true =>
        rw [accepted_end h hend]
        exact fun t ht => nomatch ht
      | false =>
        rw [accepted_cons h hend drafts]
        intro t ht
        by_cases hnil : r.accepted g (seq ++ [id]) drafts = []
        · rw [hnil] at ht
          exact nomatch ht
        · rw [List.dropLast_cons_of_ne_nil hnil] at ht
          rcases List.mem_cons.mp ht with rfl | ht
          · exact hend
          · exact ih (seq ++ [id]) t ht
    · rw [accepted_ne h]
      exact fun t ht => nomatch ht

omit [Inhabited T] in
/-- Greedy decoding goes through the accepted drafts. -/
theorem greedy_accepted {n : Nat} (seq : List T) {drafts : List T} (hn : drafts.length ≤ n) :
    r.greedy g n seq = r.accepted g seq drafts ++
      if (r.accepted g seq drafts).any r.isEOS then []
      else r.greedy g (n - r.accepts g seq drafts) (seq ++ r.accepted g seq drafts) := by
  induction drafts generalizing seq n with
  | nil => simp [accepted, accepts]
  | cons id drafts ih =>
    obtain ⟨n, rfl⟩ : ∃ m, n = m + 1 := ⟨n - 1, by rw [List.length_cons] at hn; omega⟩
    by_cases h : g seq = id
    · cases hend : r.isEOS id with
      | true =>
        rw [accepted_end h hend, greedy, h]
        simp [hend]
      | false =>
        have hrest := @ih n (seq ++ [id]) (by rw [List.length_cons] at hn; omega)
        rw [accepted_cons h hend drafts, greedy, h, accepts]
        simp only [hend, Bool.false_eq_true, if_false, h, ne_eq, not_true_eq_false, List.any_cons,
          Bool.false_or, List.cons_append, Nat.add_sub_add_right]
        rw [hrest, List.append_assoc]
        rfl
    · rw [accepted_ne h, accepts]
      simp [h]

/-- A validation of drafts that are behind `inputs` and the outputs of `s`. -/
structure Validates (r : Runner T H D R) (kinds : List CacheKind) (g : List T → T)
    (inputs : List T) (s : Decoding T D R) (drafts : List T) (before : Nat)
    (out : Accepted T D R) : Prop where
  holds : CachesHold kinds (inputs ++ out.state.outputs) out.state
  cancelled : out.err = true → ∃ n, r.ctx n = true
  accepted : out.err = false → out.accepted = before + r.accepts g (inputs ++ s.outputs) drafts
  emitted : out.err = false → out.state.emission =
    r.after s.emission (r.accepted g (inputs ++ s.outputs) drafts)
  done : out.err = false → (out.done = true ↔
    (r.accepted g (inputs ++ s.outputs) drafts).any r.isEOS = true ∨
      r.numPredict ≤ out.state.generated)
  next : out.err = false → out.done = false → out.next =
    some (g (inputs ++ s.outputs ++ r.accepted g (inputs ++ s.outputs) drafts))

omit [Inhabited T] in
/-- Nothing is accepted of drafts that the target disagrees with. -/
theorem validates_none {s : Decoding T D R} (h : CachesHold kinds (inputs ++ s.outputs) s)
    (hopen : s.generated < r.numPredict) {drafts : List T} {before : Nat}
    (hnil : r.accepted g (inputs ++ s.outputs) drafts = []) :
    Validates r kinds g inputs s drafts before
      ⟨s, some (g (inputs ++ s.outputs)), before, false, false⟩ := by
  have hzero := congrArg List.length hnil
  rw [length_accepted, List.length_nil] at hzero
  refine ⟨h, nofun, fun _ => ?_, fun _ => ?_, fun _ => ?_, fun _ _ => ?_⟩
  · rw [hzero, Nat.add_zero]
  · rw [hnil, after_nil]
  · rw [hnil]
    simpa using hopen
  · rw [hnil, List.append_nil]

omit [Inhabited T] [DecidableEq T] in
theorem ends_singleton (t : T) : r.Ends [t] := fun _ ht => nomatch ht

omit [DecidableEq T] in
/-- A token that is fed and emitted. -/
theorem emit_one {s : Decoding T D R} (h : CachesHold kinds (inputs ++ s.outputs) s) (t : T) :
    CachesHold kinds (inputs ++ (r.emitTokens (r.targetForward s [t]).1 [t]).state.outputs)
        (r.emitTokens (r.targetForward s [t]).1 [t]).state ∧
      inputs ++ (r.emitTokens (r.targetForward s [t]).1 [t]).state.outputs =
        inputs ++ s.outputs ++ [t] := by
  have hstep := targetForward_holds (r := r) h (List.cons_ne_nil t [])
  have hemit := emitTokens_emits (r := r) (r.targetForward s [t]).1 (ends_singleton t)
  have hseq : inputs ++ (r.emitTokens (r.targetForward s [t]).1 [t]).state.outputs =
      inputs ++ s.outputs ++ [t] := by
    rw [hemit.outputs, List.append_assoc]
    rfl
  exact ⟨hstep.congr hemit.caches hemit.position hseq, hseq⟩

theorem acceptMTPDraftsSerial_validates (hr : r.Computes kinds g) {drafts : List T}
    {s : Decoding T D R} (h : CachesHold kinds (inputs ++ s.outputs) s)
    (hopen : s.generated < r.numPredict) (hlen : s.generated + drafts.length ≤ r.numPredict)
    (before : Nat) :
    Validates r kinds g inputs s drafts before
      (r.acceptMTPDraftsSerial s (g (inputs ++ s.outputs)) drafts before) := by
  induction drafts generalizing s before with
  | nil => exact validates_none h hopen rfl
  | cons id drafts ih =>
    unfold acceptMTPDraftsSerial
    by_cases hid : g (inputs ++ s.outputs) = id
    · have hnext := lastToken_eq hr h (List.cons_ne_nil id [])
      have hemit := emitTokens_emits (r := r) (r.targetForward s [id]).1 (ends_singleton id)
      obtain ⟨hsteady, hseq⟩ := emit_one (r := r) h id
      have hstart : (r.targetForward s [id]).1.emission = s.emission := rfl
      have hgen : (r.targetForward s [id]).1.generated = s.generated := rfl
      simp only [hid, ne_eq, not_true_eq_false, if_false]
      generalize r.emitTokens (r.targetForward s [id]).1 [id] = emitted at hemit hsteady hseq ⊢
      rw [List.length_cons] at hlen
      obtain ⟨s₁, done, err⟩ := emitted
      cases err with
      | true =>
        simp only [if_true]
        exact ⟨hsteady, fun _ => hemit.cancelled rfl, nofun, nofun, nofun, nofun⟩
      | false =>
        have hemitted := hemit.emitted rfl
        have hdone := hemit.done
        have hcount := hemit.generated
        simp only [hstart, hgen] at hemitted hdone hcount
        simp only [Bool.false_eq_true, if_false]
        cases hend : r.isEOS id with
        | true =>
          have haccepts : r.accepts g (inputs ++ s.outputs) (id :: drafts) = 1 := by
            simp [accepts, hid, hend]
          have htrue : done = true := by simp [hdone, hend]
          rw [if_pos htrue]
          refine ⟨hsteady, nofun, fun _ => by rw [haccepts], fun _ => ?_, fun _ => ?_, nofun⟩
          · rw [accepted_end hid hend]
            exact hemitted
          · rw [accepted_end hid hend]
            simp [hend]
        | false =>
          have hkept : (r.kept [id]).length = 1 := by simp [kept, hend]
          rw [hkept] at hdone hcount
          have haccepted := accepted_cons hid hend drafts
          have haccepts : r.accepts g (inputs ++ s.outputs) (id :: drafts) =
              r.accepts g (inputs ++ s.outputs ++ [id]) drafts + 1 := by
            simp [accepts, hid, hend]
          by_cases hlimit : r.numPredict ≤ s.generated + 1
          · have hnil : drafts = [] := List.length_eq_zero_iff.mp (by omega)
            subst hnil
            have htrue : done = true := by simp [hdone, hlimit]
            rw [if_pos htrue]
            refine ⟨hsteady, nofun, fun _ => by rw [haccepts]; rfl, fun _ => ?_, fun _ => ?_, nofun⟩
            · rw [haccepted]
              exact hemitted
            · simp only [true_iff]
              exact .inr (by rw [hcount]; exact hlimit)
          · have hfalse : ¬done = true := by simp [hdone, hend, hlimit]
            rw [if_neg hfalse, hnext, ← hseq]
            have hrest := ih (s := s₁) hsteady (by omega) (by omega) (before + 1)
            refine ⟨hrest.holds, hrest.cancelled, fun herr => ?_, fun herr => ?_, fun herr => ?_,
              fun herr hopen' => ?_⟩
            · rw [hrest.accepted herr, haccepts, hseq]
              omega
            · rw [hrest.emitted herr, hemitted, after_append, haccepted, hseq]
              rfl
            · rw [hrest.done herr, haccepted, hseq, List.any_cons, hend, Bool.false_or]
            · rw [hrest.next herr hopen', haccepted, hseq, List.append_assoc (inputs ++ s.outputs)]
              rfl
    · simp only [ne_eq, hid, not_false_eq_true, if_true]
      exact validates_none h hopen (accepted_ne hid)

/-- What the target selects at each draft and behind the last. -/
def selections (g : List T → T) : List T → List T → List T
  | seq, [] => [g seq]
  | seq, id :: drafts => g seq :: selections g (seq ++ [id]) drafts

omit [Inhabited T] [DecidableEq T] in
theorem selections_eq (seq drafts : List T) :
    selections g seq drafts =
      g seq :: (List.range drafts.length).map fun i => g (seq ++ drafts.take (i + 1)) := by
  induction drafts generalizing seq with
  | nil => rfl
  | cons id drafts ih =>
    rw [selections, ih, List.length_cons, List.range_succ_eq_map, List.map_cons, List.map_map]
    simp [Function.comp_def]

omit [Inhabited T] in
/-- The validation finds the accepted drafts, and the correction behind them. -/
theorem validate_selections (seq drafts : List T) :
    ∃ next, r.validate drafts (selections g seq drafts) =
        (r.accepts g seq drafts, next, (r.accepted g seq drafts).any r.isEOS) ∧
      ((r.accepted g seq drafts).any r.isEOS = false → ∀ base,
        next.getD ((selections g seq drafts).getLastD base) =
          g (seq ++ r.accepted g seq drafts)) := by
  induction drafts generalizing seq with
  | nil => exact ⟨none, rfl, fun _ base => by simp [selections, accepted]⟩
  | cons id drafts ih =>
    unfold selections validate
    by_cases hid : g seq = id
    · cases hend : r.isEOS id with
      | true =>
        rw [accepted_end hid hend]
        exact ⟨none, by simp [hid, hend, accepts], fun h => by simp [hend] at h⟩
      | false =>
        obtain ⟨next, hvalid, hnext⟩ := ih (seq ++ [id])
        rw [accepted_cons hid hend drafts]
        refine ⟨next, by simp [hid, hend, accepts, hvalid], fun h base => ?_⟩
        rw [List.any_cons, hend, Bool.false_or] at h
        rw [List.getLastD_cons, hnext h, List.append_assoc]
        rfl
    · rw [accepted_ne hid]
      exact ⟨some (g seq), by simp [hid, accepts], fun _ base => by simp⟩

omit [DecidableEq T] in
/-- The caches of a speculation, one by one. -/
theorem speculate_caches {caches : List (Cache T)} {seq drafts : List T} {accepted : Nat}
    (h : ∀ c ∈ caches, c.Speculates seq drafts accepted) :
    ∃ scheduled, scheduleSpeculation caches seq.length drafts.length = some scheduled ∧
      scheduled.map Cache.kind = caches.map Cache.kind ∧ (∀ c ∈ scheduled, c.Holds seq) ∧
      ∃ committed, ((scheduled.map fun c => c.update drafts).mapM fun c =>
          c.commitSpeculation accepted drafts.length seq.length) = some committed ∧
        committed.map Cache.kind = caches.map Cache.kind ∧
        ∀ c ∈ committed, c.Holds (seq ++ drafts.take accepted) ∧ c.Idle := by
  induction caches with
  | nil => exact ⟨[], rfl, rfl, nofun, [], rfl, rfl, nofun⟩
  | cons c caches ih =>
    obtain ⟨scheduled, hsched, hkinds, hholds, committed, hcommit, hkinds', hholds'⟩ :=
      ih fun c' hc' => h c' (List.mem_cons_of_mem c hc')
    obtain ⟨c₁, hc₁, hkind, hhold, c₂, hc₂, hkind', hhold', hidle'⟩ :=
      (h c List.mem_cons_self).scheduled
    refine ⟨c₁ :: scheduled, ?_, ?_, ?_, c₂ :: committed, ?_, ?_, ?_⟩
    · unfold scheduleSpeculation at hsched ⊢
      rw [List.mapM_cons, hsched]
      show (c.prepareSnapshots (Cache.draftOffsets seq.length drafts.length)).bind _ = _
      rw [hc₁]
      rfl
    · rw [List.map_cons, List.map_cons, hkind, hkinds]
    · exact List.forall_mem_cons.mpr ⟨hhold, hholds⟩
    · rw [List.map_cons, List.mapM_cons, hcommit, hc₂]
      rfl
    · rw [List.map_cons, List.map_cons, hkind', hkinds']
    · exact List.forall_mem_cons.mpr ⟨⟨hhold', hidle'⟩, hholds'⟩

theorem acceptMTPDraftsBatched_validates (hr : r.Computes kinds g) {drafts : List T}
    {s : Decoding T D R} (h : CachesHold kinds (inputs ++ s.outputs) s)
    (hne : inputs ++ s.outputs ≠ []) (hdrafts : drafts ≠ []) :
    ∃ out, r.acceptMTPDraftsBatched s (g (inputs ++ s.outputs)) drafts = some out ∧
      out.accepted = r.accepts g (inputs ++ s.outputs) drafts ∧
      Validates r kinds g inputs s drafts 0 out := by
  generalize hseq : inputs ++ s.outputs = seq at h hne ⊢
  obtain ⟨scheduled, hsched, hkinds, hholds, committed, hcommit, hkinds', hholds'⟩ :=
    speculate_caches fun c hc =>
      (h.holds c hc).speculates (h.idle c hc) hne hdrafts (accepts_le (r := r) (g := g) seq drafts)
  have hselected : (g seq :: (List.range drafts.length).map fun i =>
      r.unembed (r.forward scheduled seq.length drafts i)) = selections g seq drafts := by
    rw [selections_eq]
    refine congrArg (g seq :: ·) (List.map_congr_left fun i hi => ?_)
    exact hr scheduled seq drafts (hkinds.trans h.kinds) hholds i (List.mem_range.mp hi)
  obtain ⟨next, hvalid, hnext⟩ := validate_selections (r := r) (g := g) seq drafts
  have hemit := emitTokens_emits (r := r) { s with
    caches := committed, position := seq.length + r.accepts g seq drafts }
    (ends_accepted (g := g) seq drafts)
  have hcaches : CachesHold kinds (seq ++ r.accepted g seq drafts) { s with
      caches := committed, position := seq.length + r.accepts g seq drafts } := by
    refine ⟨hkinds'.trans h.kinds, fun c hc => (hholds' c hc).1, fun c hc => (hholds' c hc).2, ?_⟩
    rw [List.length_append, length_accepted]
  unfold acceptMTPDraftsBatched
  simp only [h.position, hsched, Option.bind_eq_bind, Option.bind_some, hselected, hvalid, hcommit,
    ← accepted.eq_def]
  generalize r.emitTokens { s with
    caches := committed, position := seq.length + r.accepts g seq drafts }
    (r.accepted g seq drafts) = emitted at hemit ⊢
  obtain ⟨s₁, done, err⟩ := emitted
  have hout : inputs ++ s₁.outputs = seq ++ r.accepted g seq drafts := by
    rw [← hseq, List.append_assoc]
    exact congrArg (inputs ++ ·) (hemit.outputs.trans (by rw [hseq]))
  have hsteady : CachesHold kinds (inputs ++ s₁.outputs) s₁ :=
    hcaches.congr hemit.caches hemit.position hout
  have hdone : (done || (r.accepted g seq drafts).any r.isEOS) = true ↔
      (r.accepted g seq drafts).any r.isEOS = true ∨ r.numPredict ≤ s₁.generated := by
    have hd := hemit.done
    have hg := hemit.generated
    simp only at hd hg
    rw [hd, hg]
    simp only [Bool.or_eq_true, decide_eq_true_eq]
    tauto
  cases err with
  | true =>
    simp only [if_true]
    refine ⟨_, rfl, rfl, hsteady, fun _ => hemit.cancelled rfl, nofun, nofun, nofun, nofun⟩
  | false =>
    have hemitted := hemit.emitted rfl
    simp only [Bool.false_eq_true, if_false]
    cases hend : (done || (r.accepted g seq drafts).any r.isEOS) with
    | true =>
      rw [hend] at hdone
      simp only [if_true]
      refine ⟨_, rfl, rfl, hsteady, nofun, fun _ => ?_, fun _ => ?_, fun _ => ?_, nofun⟩
      · rw [hseq, Nat.zero_add]
      · rw [hseq]
        exact hemitted
      · rw [hseq]
        exact hdone
    | false =>
      rw [hend] at hdone
      simp only [Bool.false_eq_true, if_false]
      refine ⟨_, rfl, rfl, hsteady, nofun, fun _ => ?_, fun _ => ?_, fun _ => ?_, fun _ _ => ?_⟩
      · rw [hseq, Nat.zero_add]
      · rw [hseq]
        exact hemitted
      · rw [hseq]
        exact hdone
      · rw [hseq]
        exact congrArg some (hnext (Bool.or_eq_false_iff.mp hend).2 _)

theorem acceptMTPDrafts_validates (opts : MtpOptions) (hr : r.Computes kinds g) {drafts : List T}
    {s : Decoding T D R} (h : CachesHold kinds (inputs ++ s.outputs) s)
    (hne : inputs ++ s.outputs ≠ []) (hdrafts : drafts ≠ []) (hopen : s.generated < r.numPredict)
    (hlen : s.generated + drafts.length ≤ r.numPredict) :
    ∃ out, r.acceptMTPDrafts opts s (g (inputs ++ s.outputs)) drafts = some out ∧
      Validates r kinds g inputs s drafts 0 out := by
  unfold acceptMTPDrafts
  split
  · exact ⟨_, rfl, acceptMTPDraftsSerial_validates hr h hopen hlen 0⟩
  · obtain ⟨out, hout, -, hvalid⟩ := acceptMTPDraftsBatched_validates hr h hne hdrafts
    exact ⟨out, hout, hvalid⟩

omit [Inhabited T] in
/-- The loop stops behind validated drafts where the greedy sequence does. -/
theorem Validates.stops {s : Decoding T D R} {drafts : List T} {out : Accepted T D R}
    (h : Validates r kinds g inputs s drafts 0 out) (herr : out.err = false)
    (hlen : s.generated + drafts.length ≤ r.numPredict)
    (hstop : out.done = true ∨ r.numPredict ≤ out.state.generated) :
    r.greedy g (r.numPredict - s.generated) (inputs ++ s.outputs) =
      r.accepted g (inputs ++ s.outputs) drafts := by
  rw [greedy_accepted _ (show drafts.length ≤ _ by omega)]
  cases hend : (r.accepted g (inputs ++ s.outputs) drafts).any r.isEOS with
  | true => rw [if_pos rfl, List.append_nil]
  | false =>
    have hlimit : r.numPredict ≤ out.state.generated := by
      rcases hstop with hdone | hlimit
      · rw [h.done herr, hend] at hdone
        simpa using hdone
      · exact hlimit
    have hgen : out.state.generated =
        s.generated + (r.kept (r.accepted g (inputs ++ s.outputs) drafts)).length :=
      congrArg Emission.generated (h.emitted herr)
    rw [kept_eq hend, length_accepted] at hgen
    rw [show r.numPredict - s.generated - r.accepts g (inputs ++ s.outputs) drafts = 0 by omega]
    simp [greedy]

omit [Inhabited T] in
/-- Else it goes on with the token the greedy sequence goes on with. -/
theorem Validates.continues {s : Decoding T D R} {drafts : List T} {out : Accepted T D R}
    (h : Validates r kinds g inputs s drafts 0 out) (herr : out.err = false)
    (hlen : s.generated + drafts.length ≤ r.numPredict) (hdone : out.done = false)
    (hopen : out.state.generated < r.numPredict) :
    out.next = some (g (inputs ++ out.state.outputs)) ∧ s.generated ≤ out.state.generated ∧
      r.greedy g (r.numPredict - s.generated) (inputs ++ s.outputs) =
        r.accepted g (inputs ++ s.outputs) drafts ++
          r.greedy g (r.numPredict - out.state.generated) (inputs ++ out.state.outputs) := by
  have hend : (r.accepted g (inputs ++ s.outputs) drafts).any r.isEOS = false := by
    have hiff := h.done herr
    rw [hdone] at hiff
    simpa [Nat.not_le.mpr hopen] using hiff
  have hout : out.state.outputs = s.outputs ++ r.accepted g (inputs ++ s.outputs) drafts :=
    congrArg Emission.outputs (h.emitted herr)
  have hgen : out.state.generated =
      s.generated + (r.kept (r.accepted g (inputs ++ s.outputs) drafts)).length :=
    congrArg Emission.generated (h.emitted herr)
  rw [kept_eq hend, length_accepted] at hgen
  have hseq : inputs ++ out.state.outputs =
      inputs ++ s.outputs ++ r.accepted g (inputs ++ s.outputs) drafts := by
    rw [hout, List.append_assoc]
  refine ⟨by rw [h.next herr hdone, hseq], by omega, ?_⟩
  rw [greedy_accepted _ (show drafts.length ≤ _ by omega), hend, hseq, hgen, Nat.sub_add_eq]
  simp

/-! ## The loop that drafts -/

omit [Inhabited T] in
omit [DecidableEq T] in
theorem length_generateMTPDrafts (caches : List (Cache T)) (position n : Nat) (t : T) (hidden : H) :
    (r.generateMTPDrafts caches position n t hidden).length = n := by
  induction n generalizing t hidden with
  | zero => rfl
  | succ n ih => exact congrArg (· + 1) (ih _ _)

/-- Whatever is drafted, the loop emits the greedy sequence. -/
theorem mtpLoop_decodes (opts : MtpOptions) (hr : r.Computes kinds g) {fuel draftLimit : Nat}
    {s : Decoding T D R} (h : CachesHold kinds (inputs ++ s.outputs) s)
    (hfuel : r.numPredict ≤ s.generated + fuel) :
    ∃ d, r.mtpLoop opts fuel draftLimit (g (inputs ++ s.outputs)) s = some d ∧
      Decodes r kinds inputs s.emission
        (r.greedy g (r.numPredict - s.generated) (inputs ++ s.outputs)) d := by
  induction fuel generalizing draftLimit s with
  | zero =>
    unfold mtpLoop
    have hle : r.numPredict ≤ s.generated := by omega
    rw [if_pos hle, Nat.sub_eq_zero_of_le hle]
    exact ⟨_, rfl, finish_decodes h (after_nil _).symm rfl⟩
  | succ fuel ih =>
    unfold mtpLoop
    by_cases hle : r.numPredict ≤ s.generated
    · rw [if_pos hle, Nat.sub_eq_zero_of_le hle]
      exact ⟨_, rfl, finish_decodes h (after_nil _).symm rfl⟩
    · obtain ⟨n, hn⟩ : ∃ n, r.numPredict - s.generated = n + 1 :=
        ⟨r.numPredict - s.generated - 1, by omega⟩
      rw [if_neg hle, hn, greedy]
      unfold Runner.cancelled
      generalize ht : g (inputs ++ s.outputs) = t
      cases hctx : r.ctx s.clock with
      | true =>
        simp only [if_true]
        exact ⟨_, rfl, h.congr rfl rfl rfl, fun _ => ⟨_, hctx⟩, nofun⟩
      | false =>
        simp only [Bool.false_eq_true, if_false]
        have hc : CachesHold kinds (inputs ++ s.outputs) { s with clock := s.clock + 1 } :=
          h.congr rfl rfl rfl
        have hbase := lastToken_eq hr hc (List.cons_ne_nil t [])
        have hemit := emitTokens_emits (r := r)
          (r.targetForward { s with clock := s.clock + 1 } [t]).1 (ends_singleton t)
        obtain ⟨hsteady, hseq⟩ := emit_one (r := r) (s := { s with clock := s.clock + 1 }) hc t
        have hstart : (r.targetForward { s with clock := s.clock + 1 } [t]).1.emission =
          s.emission := rfl
        have hgen : (r.targetForward { s with clock := s.clock + 1 } [t]).1.generated =
          s.generated := rfl
        rw [hbase]
        generalize r.emitTokens (r.targetForward { s with clock := s.clock + 1 } [t]).1 [t] =
          emitted at hemit hsteady hseq ⊢
        obtain ⟨s₁, done, err⟩ := emitted
        simp only at hseq hsteady
        cases err with
        | true =>
          simp only [if_true]
          exact ⟨_, rfl, hsteady, fun _ => hemit.cancelled rfl, nofun⟩
        | false =>
          have hemitted := hemit.emitted rfl
          have hdone := hemit.done
          have hcount := hemit.generated
          simp only [hstart, hgen] at hemitted hdone hcount
          simp only [Bool.false_eq_true, if_false]
          cases hend : r.isEOS t with
          | true =>
            have htrue : done = true := by simp [hdone, hend]
            simp only [if_true]
            rw [if_pos htrue]
            exact ⟨_, rfl, finish_decodes hsteady hemitted rfl⟩
          | false =>
            have hkept : (r.kept [t]).length = 1 := by simp [kept, hend]
            rw [hkept] at hdone hcount
            simp only [Bool.false_eq_true, if_false]
            by_cases hlimit : r.numPredict ≤ s.generated + 1
            · have htrue : done = true := by simp [hdone, hlimit]
              have hzero : n = 0 := by omega
              subst hzero
              rw [if_pos htrue]
              exact ⟨_, rfl, finish_decodes hsteady hemitted rfl⟩
            · have hfalse : ¬done = true := by simp [hdone, hend, hlimit]
              have hrem : r.numPredict - s₁.generated = n := by omega
              rw [if_neg hfalse, ← hseq]
              have hlen := length_generateMTPDrafts (r := r) s₁.caches (s₁.position - 1)
                (min draftLimit (r.numPredict - s₁.generated)) t
                ((r.targetForward { s with clock := s.clock + 1 } [t]).2 0)
              generalize r.generateMTPDrafts _ _ _ _ _ = drafts at hlen ⊢
              by_cases hnil : drafts = []
              · obtain ⟨d, hd, hdec⟩ := @ih draftLimit s₁ hsteady (by omega)
                rw [hrem] at hdec
                rw [if_pos hnil]
                exact ⟨d, hd, hdec.append hemitted⟩
              · rw [if_neg hnil]
                have hne : inputs ++ s₁.outputs ≠ [] := by
                  rw [hseq]
                  simp
                obtain ⟨out, hout, hvalid⟩ := acceptMTPDrafts_validates opts hr hsteady hne hnil
                  (by omega) (by omega)
                simp only [hout, Option.bind_eq_bind, Option.bind_some]
                have hroom : s₁.generated + drafts.length ≤ r.numPredict := by omega
                rw [← hrem]
                cases herr : out.err with
                | true =>
                  simp only [if_true]
                  exact ⟨_, rfl, hvalid.holds, fun _ => hvalid.cancelled herr, nofun⟩
                | false =>
                  have hvalidated := hvalid.emitted herr
                  simp only [Bool.false_eq_true, if_false]
                  by_cases hstop : out.done = true ∨ r.numPredict ≤ out.state.generated
                  · have hgreedy := hvalid.stops herr hroom hstop
                    have hdone : (out.done || decide (r.numPredict ≤ out.state.generated)) = true := by
                      simpa using hstop
                    rw [if_pos hdone, hgreedy]
                    refine ⟨_, rfl, finish_decodes hvalid.holds ?_ rfl⟩
                    rw [hvalidated, hemitted, after_append]
                    rfl
                  · obtain ⟨hopen, hlimit⟩ := not_or.mp hstop
                    have hopen := Bool.eq_false_iff.mpr hopen
                    obtain ⟨hnext, hgrown, hgreedy⟩ :=
                      hvalid.continues herr hroom hopen (Nat.not_le.mp hlimit)
                    obtain ⟨d, hd, hdec⟩ := @ih
                      (nextDraftLimit opts draftLimit drafts.length out.accepted) out.state
                      hvalid.holds (by omega)
                    have hgo : ¬(out.done || decide (r.numPredict ≤ out.state.generated)) = true := by
                      simpa using hstop
                    rw [if_neg hgo, hnext, hgreedy]
                    exact ⟨d, hd, (hdec.append hvalidated).append hemitted⟩

/-! ## With and without drafts -/

/-- How many drafts are accepted does not depend on how they are validated. -/
theorem accepted_eq (hr : r.Computes kinds g) {s : Decoding T D R}
    (h : CachesHold kinds (inputs ++ s.outputs) s) (hne : inputs ++ s.outputs ≠ [])
    {drafts : List T} (hdrafts : drafts ≠ []) (hlen : s.generated + drafts.length ≤ r.numPredict) :
    ∃ out, r.acceptMTPDraftsBatched s (g (inputs ++ s.outputs)) drafts = some out ∧
      ((r.acceptMTPDraftsSerial s (g (inputs ++ s.outputs)) drafts 0).err = false →
        (r.acceptMTPDraftsSerial s (g (inputs ++ s.outputs)) drafts 0).accepted = out.accepted) := by
  obtain ⟨out, hout, haccepted, -⟩ := acceptMTPDraftsBatched_validates hr h hne hdrafts
  have hpos := List.length_pos_of_ne_nil hdrafts
  have hserial := acceptMTPDraftsSerial_validates hr h (by omega) hlen 0
  exact ⟨out, hout, fun herr => by rw [hserial.accepted herr, haccepted, Nat.zero_add]⟩

/-- Decoding with drafts is plain greedy decoding. Both end with caches that hold what was
read and recorded. Unless one of them is cancelled, they record and send the same, with
the same final response; and the drafts of a round that are accepted are as many, whether
they are validated in one pass or one by one. -/
theorem runGreedyMTPDecode_plain (opts : MtpOptions) (hr : r.Computes kinds g)
    {s : Decoding T D R} {cached seed : List T} (h : CachesHold kinds cached s)
    (hout : s.outputs = []) (hseed : seed ≠ []) :
    ∃ d, r.runGreedyMTPDecode opts s seed = some d ∧
      (∀ d' ∈ [d, r.textGenerationPipeline s seed], ∀ c ∈ d'.state.caches,
        c.Holds (cached ++ seed ++ d'.state.outputs) ∧
          c.offset = (cached ++ seed ++ d'.state.outputs).length) ∧
      (d.final ≠ none → (r.textGenerationPipeline s seed).final ≠ none →
        d.final = (r.textGenerationPipeline s seed).final ∧
          d.state.emission = (r.textGenerationPipeline s seed).state.emission) ∧
      ((∀ n, r.ctx n = false) →
        d.final ≠ none ∧ (r.textGenerationPipeline s seed).final ≠ none) ∧
      ∀ (t : Decoding T D R) (draftLimit : Nat) (token : T) (hidden : H),
        CachesHold kinds (cached ++ seed ++ t.outputs) t →
        ∀ drafts, drafts = r.generateMTPDrafts t.caches (t.position - 1)
            (min draftLimit (r.numPredict - t.generated)) token hidden →
          drafts ≠ [] →
          ∃ out, r.acceptMTPDraftsBatched t (g (cached ++ seed ++ t.outputs)) drafts = some out ∧
            ((r.acceptMTPDraftsSerial t (g (cached ++ seed ++ t.outputs)) drafts 0).err = false →
              (r.acceptMTPDraftsSerial t (g (cached ++ seed ++ t.outputs)) drafts 0).accepted =
                out.accepted) := by
  have hstep := targetForward_holds (r := r) h hseed
  have hsample := lastToken_eq hr h hseed
  have hstart : CachesHold kinds (cached ++ seed ++ s.outputs)
      { (r.targetForward s seed).1 with doneReason := 1, generated := 0 } :=
    hstep.congr rfl rfl (by rw [hout, List.append_nil])
  have hseq : cached ++ seed ++ (r.targetForward s seed).1.outputs = cached ++ seed := by
    show cached ++ seed ++ s.outputs = _
    rw [hout, List.append_nil]
  have hplain := @decodeLoop_decodes _ _ _ _ r _ kinds g (cached ++ seed) _ hr r.numPredict
    { (r.targetForward s seed).1 with doneReason := 1, generated := 0 } hstart
    (Nat.zero_add r.numPredict)
  obtain ⟨d, hd, hdecodes⟩ := @mtpLoop_decodes _ _ _ _ r _ kinds g (cached ++ seed) _ opts hr
    r.numPredict opts.initialDraftTokens
    { (r.targetForward s seed).1 with doneReason := 1, generated := 0 } hstart (Nat.le_add_left _ _)
  simp only [hseq, Nat.sub_zero] at hplain hd hdecodes
  rw [← hsample] at hplain hd
  change Decodes r kinds (cached ++ seed) _ _ (r.textGenerationPipeline s seed) at hplain
  generalize r.textGenerationPipeline s seed = p at hplain ⊢
  refine ⟨d, hd, fun d' hd' => ?_, fun hfinal hfinal' => ?_, fun hctx => ⟨fun hnone => ?_,
    fun hnone => ?_⟩, ?_⟩
  · have hholds : CachesHold kinds (cached ++ seed ++ d'.state.outputs) d'.state := by
      rcases List.mem_pair.mp hd' with rfl | rfl
      · exact hdecodes.holds
      · exact hplain.holds
    exact fun c hc => ⟨hholds.holds c hc, (hholds.holds c hc).offset⟩
  · obtain ⟨f, hf⟩ := Option.ne_none_iff_exists'.mp hfinal
    obtain ⟨f', hf'⟩ := Option.ne_none_iff_exists'.mp hfinal'
    obtain ⟨hemit, rfl⟩ := hdecodes.finished f hf
    obtain ⟨hemit', rfl⟩ := hplain.finished f' hf'
    have hsame : d.state.emission = p.state.emission := hemit.trans hemit'.symm
    refine ⟨?_, hsame⟩
    rw [hf, hf']
    exact congrArg (fun e : Emission T D R => some (e.doneReason, e.generated)) hsame
  · obtain ⟨n, hn⟩ := hdecodes.cancelled hnone
    rw [hctx] at hn
    cases hn
  · obtain ⟨n, hn⟩ := hplain.cancelled hnone
    rw [hctx] at hn
    cases hn
  · rintro t draftLimit token hidden ht drafts rfl hdrafts
    have hlen := length_generateMTPDrafts (r := r) t.caches (t.position - 1)
      (min draftLimit (r.numPredict - t.generated)) token hidden
    have hpos := List.length_pos_of_ne_nil hdrafts
    exact accepted_eq hr ht (by simp [hseed]) hdrafts (by omega)

/-- A target that counts what its cache holds and ends after six tokens, and a draft model
that counts too, but for one number. -/
def counting : Runner Nat (List Nat) Unit Nat where
  forward
    | [.kv c], position, tokens, i => c.buffer.take position ++ tokens.take (i + 1)
    | _, _, tokens, i => tokens.take (i + 1)
  unembed h := if h.length < 7 then h.length else 9
  draft t h _ _ := (if t = 4 then 0 else t + 1, h)
  isEOS t := t == 9
  decode d t := (d, some t)
  ctx _ := false
  numPredict := 10

/-- A session that nothing is cached of. -/
def freshSession : Decoding Nat Unit Nat := ⟨[.kv newKVCache], 0, [], 0, 1, (), [], 0⟩

theorem counting_computes :
    counting.Computes [.kv] fun seq => if seq.length < 7 then seq.length else 9 := by
  intro caches seq tokens hkinds hholds i hi
  rcases caches with _ | ⟨c, _ | ⟨c', rest⟩⟩
  · cases hkinds
  · cases c with
    | kv c =>
      have hlive : c.Live seq := hholds _ List.mem_cons_self
      show (fun h : List Nat => if h.length < 7 then h.length else 9)
        (c.buffer.take seq.length ++ tokens.take (i + 1)) = _
      rw [hlive.rows]
    | rotating c => cases hkinds
    | recurrent c => cases hkinds
  · have hlen := congrArg List.length hkinds
    simp at hlen

theorem runGreedyMTPDecode_plain_counting :
    ∃ d, counting.runGreedyMTPDecode ⟨2, 4, .heuristic, false⟩ freshSession [1, 2, 3] = some d ∧
      d.final = (counting.textGenerationPipeline freshSession [1, 2, 3]).final ∧
      d.state.emission = (counting.textGenerationPipeline freshSession [1, 2, 3]).state.emission := by
  have hfresh : CachesHold [.kv] [] freshSession := by
    refine ⟨rfl, fun c hc => ?_, fun c hc => ?_, rfl⟩
    · obtain rfl := List.mem_singleton.mp hc
      exact ⟨by decide, rfl, rfl⟩
    · obtain rfl := List.mem_singleton.mp hc
      rfl
  obtain ⟨d, hd, -, hsame, hfinal, -⟩ := runGreedyMTPDecode_plain ⟨2, 4, .heuristic, false⟩
    counting_computes hfresh rfl (List.cons_ne_nil 1 [2, 3])
  obtain ⟨hdone, hdone'⟩ := hfinal fun _ => rfl
  exact ⟨d, hd, hsame hdone hdone'⟩

end Runner

end Prismalama.Mlxrunner
