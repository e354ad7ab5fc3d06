import Prismalama.Server.Sched

/-!
# How long a runner lives

A runner is counted by the requests that it was delivered to, and it goes when none of
them is left. The count is raised after the runner was found to be usable, and in
between it may go; the next request to finish under its key is then taken off another
runner. Runs without this (`Timely`) keep the books (`run_lifetime`); the runs of
`runner_gone` do not.
-/

namespace Prismalama.Server

open Prismalama.Lib

/-! ## What is to hold -/

/-- A runner that was found and is to be looked at or used. -/
def Phase.found : Phase → Option RunnerId
  | .check r | .use r | .scheduleCheck r | .scheduleUse r => some r
  | _ => none

/-- A runner that is about to be used. -/
def Phase.using : Phase → Option RunnerId
  | .use r | .scheduleUse r => some r
  | _ => none

/-- A runner that was delivered and not yet given back. -/
def Phase.held : Phase → Option RunnerId
  | .delivered r | .notified r | .finishing r => some r
  | _ => none

/-- `processPending` is at the request. -/
def Phase.scheduled : Phase → Bool
  | .schedule | .scheduleCheck _ | .scheduleUse _ | .findRunner | .load _ | .expire _ | .waitUnload
  | .evictAll _ _ | .waitAll _ => true
  | _ => false

/-- The request was delivered the runner and has not finished. -/
def LlmRequest.outstanding (r : RunnerId) (y : LlmRequest) : Bool :=
  y.phase.held.isSome && y.successCh == some r

/-- The runner an expired event is about. -/
def CompletedLoop.expire? : CompletedLoop → Option RunnerId
  | .expire r => some r
  | _ => none

/-- A runner is used before it can be unloaded, and no two runners of a model have the
same process when one of them expires. -/
def Timely (s : State) : Label → Prop
  | .caller q _ => ∀ y ∈ s.requests[q]?, ∀ r ∈ y.phase.using, ∀ x ∈ s.runners[r]?, x.unloaded = false
  | .schedule _ _ => ∀ q ∈ s.pending, ∀ y ∈ s.requests[q]?, ∀ r ∈ y.phase.using,
      ∀ x ∈ s.runners[r]?, x.unloaded = false
  | .complete => ∀ r ∈ s.completed.expire?, ∀ x ∈ s.runners[r]?,
      ∀ r' ∈ AList.lookup x.modelKey s.loaded, r' ≠ r → ∀ x' ∈ s.runners[r']?, x.pid ≠ x'.pid
  | _ => True

instance (s : State) : DecidablePred (Timely s)
  | .caller q _ => inferInstanceAs (Decidable (∀ y ∈ s.requests[q]?, _))
  | .schedule _ _ => inferInstanceAs (Decidable (∀ q ∈ s.pending, _))
  | .complete => inferInstanceAs (Decidable (∀ r ∈ s.completed.expire?, _))
  | .getRunner _ _ | .receive _ | .findRunner _ | .load _ | .evict _ | .recvUnloaded | .loaded _ _
  | .cancel _ | .notify _ | .recvFinished _ | .recvExpired | .fire _ | .callback _ | .retry _
  | .expireRunner _ | .expireCaller _ => .isTrue trivial

/-- The books of the runners. -/
structure Lifetime (s : State) : Prop where
  /-- A runner that was delivered is loaded until the request has finished. -/
  loaded : ∀ (q : RequestId) (y : LlmRequest) (r : RunnerId), s.requests[q]? = some y → y.outstanding r = true →
    ∃ x : RunnerRef, s.runners[r]? = some x ∧ x.unloaded = false ∧ AList.lookup y.model s.loaded = some r
  refCount : ∀ (r : RunnerId) (x : RunnerRef), s.runners[r]? = some x →
    x.refCount = s.requests.countP (LlmRequest.outstanding r)
  /-- A request that has finished was taken off once, from its own runner. -/
  settled : ∀ (q : RequestId) (y : LlmRequest), s.requests[q]? = some y →
    y.settled = if y.phase = .finished then y.successCh.toList else []
  /-- What is taken off is there. -/
  positive : ∀ (q : RequestId) (y : LlmRequest) (r : RunnerId), s.requests[q]? = some y → y.phase = .finishing r →
    y.successCh = some r ∧ ∃ x : RunnerRef, s.runners[r]? = some x ∧ 0 < x.refCount

/-! ## The invariant -/

structure RequestOk (s : State) (q : RequestId) (y : LlmRequest) : Prop where
  pending : y.phase.scheduled = true → s.pending = some q
  found : ∀ r, y.phase.found = some r → ∃ x : RunnerRef, s.runners[r]? = some x ∧ x.modelKey = y.model
  load : ∀ first, y.phase = .load first → AList.lookup y.model s.loaded = none
  loading : ∀ r, y.phase = .loading r → ∃ x : RunnerRef, s.runners[r]? = some x ∧ x.modelKey = y.model ∧
    x.loader = some q ∧ x.unloaded = false
  held : ∀ r, y.phase.held = some r → y.successCh = some r ∧
    ∃ x : RunnerRef, s.runners[r]? = some x ∧ x.modelKey = y.model ∧ x.unloaded = false
  settled : y.settled = if y.phase = .finished then y.successCh.toList else []

structure Inv (s : State) : Prop where
  loaded : ∀ k r, AList.lookup k s.loaded = some r →
    ∃ x : RunnerRef, s.runners[r]? = some x ∧ x.modelKey = k ∧ x.unloaded = false
  alive : ∀ (r : RunnerId) (x : RunnerRef), s.runners[r]? = some x → x.unloaded = false →
    AList.lookup x.modelKey s.loaded = some r
  count : ∀ (r : RunnerId) (x : RunnerRef), s.runners[r]? = some x →
    x.refCount = s.requests.countP (LlmRequest.outstanding r)
  request : ∀ (q : RequestId) (y : LlmRequest), s.requests[q]? = some y → RequestOk s q y

theorem LlmRequest.outstanding_iff {r : RunnerId} {y : LlmRequest} (hheld : ∀ r,
    y.phase.held = some r → y.successCh = some r) :
    y.outstanding r = true ↔ y.phase.held = some r := by
  rw [outstanding, Bool.and_eq_true, beq_iff_eq, Option.isSome_iff_exists]
  constructor
  · rintro ⟨⟨r', hr'⟩, hsucc⟩
    rw [hheld r' hr'] at hsucc
    rwa [Option.some.inj hsucc] at hr'
  · intro hr
    exact ⟨⟨r, hr⟩, hheld r hr⟩

theorem Inv.outstanding_iff {s : State} (hinv : Inv s) {q : RequestId} {y : LlmRequest}
    (hy : s.requests[q]? = some y) (r : RunnerId) :
    y.outstanding r = true ↔ y.phase.held = some r :=
  LlmRequest.outstanding_iff fun r hr => ((hinv.request q y hy).held r hr).1

theorem Inv.positive {s : State} (hinv : Inv s) {q : RequestId} {y : LlmRequest} {r : RunnerId}
    {x : RunnerRef} (hy : s.requests[q]? = some y) (hr : y.phase.held = some r)
    (hx : s.runners[r]? = some x) : 0 < x.refCount := by
  rw [hinv.count r x hx, List.countP_pos_iff]
  exact ⟨y, List.mem_of_getElem? hy, (hinv.outstanding_iff hy r).mpr hr⟩

theorem Inv.lifetime {s : State} (hinv : Inv s) : Lifetime s where
  loaded q y r hy hout := by
    obtain ⟨-, x, hx, hkey, hunloaded⟩ :=
      (hinv.request q y hy).held r ((hinv.outstanding_iff hy r).mp hout)
    refine ⟨x, hx, hunloaded, ?_⟩
    rw [← hkey]
    exact hinv.alive r x hx hunloaded
  refCount := hinv.count
  settled q y hy := (hinv.request q y hy).settled
  positive q y r hy hphase := by
    have hheld : y.phase.held = some r := by
      rw [hphase]
      rfl
    obtain ⟨hsucc, x, hx, -⟩ := (hinv.request q y hy).held r hheld
    exact ⟨hsucc, x, hx, hinv.positive hy hheld hx⟩

/-! ## Frames -/

/-- Nothing about a runner changes that others rely on; the lock may change hands where
`keep` does not hold. -/
structure SameRunner (keep : RequestId → Prop) (x x' : RunnerRef) : Prop where
  modelKey : x'.modelKey = x.modelKey
  unloaded : x'.unloaded = x.unloaded
  loader : ∀ q, keep q → x.loader = some q → x'.loader = some q

structure Frame (keep : RequestId → Prop) (s s' : State) : Prop where
  loaded : s'.loaded = s.loaded
  length : s'.runners.length = s.runners.length
  runners : ∀ (r : RunnerId) (x x' : RunnerRef), s.runners[r]? = some x → s'.runners[r]? = some x' → SameRunner keep x x'

theorem SameRunner.refl (keep : RequestId → Prop) (x : RunnerRef) : SameRunner keep x x :=
  ⟨rfl, rfl, fun _ _ => id⟩

theorem frame_setRunner {keep : RequestId → Prop} {s s' : State} {r : RunnerId}
    {x x' : RunnerRef} (hx : s.runners[r]? = some x)
    (hrunners : s'.runners = s.runners.set r x') (hloaded : s'.loaded = s.loaded)
    (h : SameRunner keep x x') : Frame keep s s' := by
  refine ⟨hloaded, by rw [hrunners, List.length_set], fun r' y y' hy hy' => ?_⟩
  rw [hrunners] at hy'
  by_cases hr : r = r'
  · subst hr
    rw [List.getElem?_set_self (List.getElem?_eq_some_iff.mp hx).1] at hy'
    rw [hx] at hy
    obtain rfl := Option.some.inj hy
    obtain rfl := Option.some.inj hy'
    exact h
  · rw [List.getElem?_set_ne hr, hy] at hy'
    obtain rfl := Option.some.inj hy'
    exact .refl keep y

theorem frame_refl (keep : RequestId → Prop) {s s' : State} (hrunners : s'.runners = s.runners)
    (hloaded : s'.loaded = s.loaded) : Frame keep s s' := by
  refine ⟨hloaded, by rw [hrunners], fun r x x' hx hx' => ?_⟩
  rw [hrunners, hx] at hx'
  obtain rfl := Option.some.inj hx'
  exact .refl keep x

theorem Frame.exists_runner {keep : RequestId → Prop} {s s' : State} (h : Frame keep s s')
    {r : RunnerId} {x : RunnerRef} (hx : s.runners[r]? = some x) :
    ∃ x' : RunnerRef, s'.runners[r]? = some x' ∧ SameRunner keep x x' := by
  have hlt := (List.getElem?_eq_some_iff.mp hx).1
  rw [← h.length] at hlt
  exact ⟨_, List.getElem?_eq_getElem hlt, h.runners r x _ hx (List.getElem?_eq_getElem hlt)⟩

theorem Frame.exists_back {keep : RequestId → Prop} {s s' : State} (h : Frame keep s s')
    {r : RunnerId} {x' : RunnerRef} (hx' : s'.runners[r]? = some x') :
    ∃ x : RunnerRef, s.runners[r]? = some x ∧ SameRunner keep x x' := by
  have hlt := (List.getElem?_eq_some_iff.mp hx').1
  rw [h.length] at hlt
  exact ⟨_, List.getElem?_eq_getElem hlt, h.runners r _ x' (List.getElem?_eq_getElem hlt) hx'⟩

/-- A request that a step does not move. -/
theorem RequestOk.frame {keep : RequestId → Prop} {s s' : State} {q : RequestId} {y : LlmRequest}
    (h : RequestOk s q y) (hframe : Frame keep s s') (hkeep : keep q)
    (hpending : s.pending = some q → s'.pending = some q) : RequestOk s' q y := by
  refine ⟨fun hs => hpending (h.pending hs), fun r hr => ?_, fun first hload => ?_, fun r hr => ?_,
    fun r hr => ?_, h.settled⟩
  · obtain ⟨x, hx, hkey⟩ := h.found r hr
    obtain ⟨x', hx', hsame⟩ := hframe.exists_runner hx
    exact ⟨x', hx', hsame.modelKey.trans hkey⟩
  · rw [hframe.loaded]
    exact h.load first hload
  · obtain ⟨x, hx, hkey, hloader, hunloaded⟩ := h.loading r hr
    obtain ⟨x', hx', hsame⟩ := hframe.exists_runner hx
    exact ⟨x', hx', hsame.modelKey.trans hkey, hsame.loader q hkeep hloader,
      hsame.unloaded.trans hunloaded⟩
  · obtain ⟨hsucc, x, hx, hkey, hunloaded⟩ := h.held r hr
    obtain ⟨x', hx', hsame⟩ := hframe.exists_runner hx
    exact ⟨hsucc, x', hx', hsame.modelKey.trans hkey, hsame.unloaded.trans hunloaded⟩

theorem Frame.inv_loaded {keep : RequestId → Prop} {s s' : State} (hinv : Inv s)
    (hframe : Frame keep s s') (k : Key) (r : RunnerId) (h : AList.lookup k s'.loaded = some r) :
    ∃ x, s'.runners[r]? = some x ∧ x.modelKey = k ∧ x.unloaded = false := by
  rw [hframe.loaded] at h
  obtain ⟨x, hx, hkey, hunloaded⟩ := hinv.loaded k r h
  obtain ⟨x', hx', hsame⟩ := hframe.exists_runner hx
  exact ⟨x', hx', hsame.modelKey.trans hkey, hsame.unloaded.trans hunloaded⟩

theorem Frame.inv_alive {keep : RequestId → Prop} {s s' : State} (hinv : Inv s)
    (hframe : Frame keep s s') (r : RunnerId) (x' : RunnerRef) (hx' : s'.runners[r]? = some x')
    (hunloaded : x'.unloaded = false) : AList.lookup x'.modelKey s'.loaded = some r := by
  obtain ⟨x, hx, hsame⟩ := hframe.exists_back hx'
  rw [hframe.loaded, hsame.modelKey]
  exact hinv.alive r x hx (hsame.unloaded.symm.trans hunloaded)

/-- A step that moves no request. -/
theorem Inv.frame {s s' : State} (hinv : Inv s) (hframe : Frame (fun _ => True) s s')
    (hrequests : s'.requests = s.requests) (hpending : s'.pending = s.pending)
    (hcount : ∀ (r : RunnerId) (x x' : RunnerRef), s.runners[r]? = some x → s'.runners[r]? = some x' →
      x'.refCount = x.refCount) : Inv s' := by
  refine ⟨hframe.inv_loaded hinv, hframe.inv_alive hinv, fun r x' hx' => ?_, fun q y hy => ?_⟩
  · obtain ⟨x, hx, -⟩ := hframe.exists_back hx'
    rw [hcount r x x' hx hx', hrequests]
    exact hinv.count r x hx
  · rw [hrequests] at hy
    exact (hinv.request q y hy).frame hframe trivial fun h => hpending.trans h

/-- A step that moves one request. -/
theorem Inv.move {s s' : State} (hinv : Inv s) {q : RequestId} {y y' : LlmRequest}
    (hy : s.requests[q]? = some y) (hframe : Frame (· ≠ q) s s')
    (hrequests : s'.requests = s.requests.set q y')
    (hpending : ∀ q', q' ≠ q → s.pending = some q' → s'.pending = some q')
    (hok : RequestOk s' q y')
    (hcount : ∀ (r : RunnerId) (x x' : RunnerRef), s.runners[r]? = some x → s'.runners[r]? = some x' →
      x'.refCount + (y.outstanding r).toNat = x.refCount + (y'.outstanding r).toNat) : Inv s' := by
  refine ⟨hframe.inv_loaded hinv, hframe.inv_alive hinv, fun r x' hx' => ?_, fun q' z hz => ?_⟩
  · obtain ⟨x, hx, -⟩ := hframe.exists_back hx'
    have hlt := (List.getElem?_eq_some_iff.mp hy).1
    have hsum := hcount r x x' hx hx'
    have hold := hinv.count r x hx
    have hy' : s.requests[q] = y := (List.getElem?_eq_some_iff.mp hy).2
    have hpos : (y.outstanding r).toNat ≤ s.requests.countP (LlmRequest.outstanding r) := by
      cases hout : y.outstanding r with
      | false => exact Nat.zero_le _
      | true => exact List.countP_pos_iff.mpr ⟨y, List.mem_of_getElem? hy, hout⟩
    have hif : ∀ b : Bool, (if b = true then 1 else 0) = b.toNat := by decide
    rw [hrequests, List.countP_set hlt, hy', hif, hif]
    omega
  · rw [hrequests] at hz
    by_cases hq : q = q'
    · subst hq
      rw [List.getElem?_set_self (List.getElem?_eq_some_iff.mp hy).1] at hz
      obtain rfl := Option.some.inj hz
      exact hok
    · rw [List.getElem?_set_ne hq] at hz
      exact (hinv.request q' z hz).frame hframe (Ne.symm hq) (hpending q' (Ne.symm hq))

/-! ## The steps -/

theorem lock_eq {s : State} {r : RunnerId} {x : RunnerRef} (h : s.lock r = some x) :
    s.runners[r]? = some x ∧ x.loader = none := by
  obtain ⟨hx, hloader⟩ := Option.filter_eq_some_iff.mp h
  exact ⟨hx, Option.isNone_iff_eq_none.mp hloader⟩

/-- A phase in which a request has no runner. -/
def Phase.unserved : Phase → Bool
  | .loading _ | .delivered _ | .notified _ | .finishing _ | .finished => false
  | _ => true

/-- A phase before a runner is delivered. -/
def Phase.waiting : Phase → Bool
  | .delivered _ | .notified _ | .finishing _ | .finished => false
  | _ => true

theorem Phase.held_of_unserved {ph : Phase} (h : ph.unserved = true) : ph.held = none := by
  cases ph <;> first | rfl | cases h

theorem Phase.held_of_waiting {ph : Phase} (h : ph.waiting = true) : ph.held = none := by
  cases ph <;> first | rfl | cases h

theorem Phase.ne_finished {ph : Phase} (h : ph.waiting = true) : ph ≠ .finished := by
  rintro rfl
  cases h

theorem outstanding_of_held {y : LlmRequest} (h : y.phase.held = none) (r : RunnerId) :
    y.outstanding r = false := by
  rw [LlmRequest.outstanding, h]
  rfl

theorem Inv.settled_nil {s : State} (hinv : Inv s) {q : RequestId} {y : LlmRequest}
    (hy : s.requests[q]? = some y) (h : y.phase ≠ .finished) : y.settled = [] := by
  rw [(hinv.request q y hy).settled, if_neg h]

/-- A request without a runner goes to a place without one. -/
theorem Inv.goTo {s s' : State} (hinv : Inv s) {q : RequestId} {y y' : LlmRequest}
    (hy : s.requests[q]? = some y) (hwaiting : y.phase.waiting = true)
    (hframe : Frame (· ≠ q) s s')
    (hcount : ∀ (r : RunnerId) (x x' : RunnerRef), s.runners[r]? = some x →
      s'.runners[r]? = some x' → x'.refCount = x.refCount)
    (hrequests : s'.requests = s.requests.set q y')
    (hpending : ∀ q', q' ≠ q → s.pending = some q' → s'.pending = some q')
    (hsettled : y'.settled = y.settled) (hunserved : y'.phase.unserved = true)
    (hscheduled : y'.phase.scheduled = true → s'.pending = some q)
    (hfound : ∀ r, y'.phase.found = some r →
      ∃ x : RunnerRef, s.runners[r]? = some x ∧ x.modelKey = y'.model)
    (hload : ∀ first, y'.phase = .load first → AList.lookup y'.model s.loaded = none) : Inv s' := by
  have hheld' := Phase.held_of_unserved hunserved
  refine hinv.move hy hframe hrequests hpending ⟨hscheduled, fun r hr => ?_, fun first h => ?_,
    fun r hr => ?_, fun r hr => ?_, ?_⟩ fun r x x' hx hx' => ?_
  · obtain ⟨x, hx, hkey⟩ := hfound r hr
    obtain ⟨x', hx', hsame⟩ := hframe.exists_runner hx
    exact ⟨x', hx', hsame.modelKey.trans hkey⟩
  · rw [hframe.loaded]
    exact hload first h
  · rw [hr] at hunserved
    cases hunserved
  · rw [hheld'] at hr
    cases hr
  · have hfin' : y'.phase ≠ .finished := by
      intro h
      rw [h] at hunserved
      cases hunserved
    rw [hsettled, hinv.settled_nil hy (Phase.ne_finished hwaiting), if_neg hfin']
  · rw [hcount r x x' hx hx', outstanding_of_held (Phase.held_of_waiting hwaiting),
      outstanding_of_held hheld']

theorem refCount_frame_refl {s s' : State} (h : s'.runners = s.runners) (r : RunnerId)
    (x x' : RunnerRef) (hx : s.runners[r]? = some x) (hx' : s'.runners[r]? = some x') :
    x'.refCount = x.refCount := by
  rw [h, hx] at hx'
  rw [Option.some.inj hx']

theorem refCount_setRunner {s s' : State} {r : RunnerId} {x x' : RunnerRef}
    (hx : s.runners[r]? = some x) (hrunners : s'.runners = s.runners.set r x')
    (h : x'.refCount = x.refCount) (r' : RunnerId) (z z' : RunnerRef)
    (hz : s.runners[r']? = some z) (hz' : s'.runners[r']? = some z') :
    z'.refCount = z.refCount := by
  rw [hrunners] at hz'
  by_cases hr : r = r'
  · subst hr
    rw [List.getElem?_set_self (List.getElem?_eq_some_iff.mp hx).1] at hz'
    rw [hx] at hz
    rw [← Option.some.inj hz, ← Option.some.inj hz', h]
  · rw [List.getElem?_set_ne hr, hz] at hz'
    rw [Option.some.inj hz']

theorem outstanding_deliver (y : LlmRequest) (r r' : RunnerId) :
    (y.deliver r).outstanding r' = (r == r') := by
  simp [LlmRequest.outstanding, LlmRequest.deliver, Phase.held]

/-- The runner that is delivered is counted once more. -/
theorem refCount_setRunner_succ {s s' : State} {r : RunnerId} {x x' : RunnerRef}
    (hx : s.runners[r]? = some x) (hrunners : s'.runners = s.runners.set r x')
    (h : x'.refCount = x.refCount + 1) (r' : RunnerId) (z z' : RunnerRef)
    (hz : s.runners[r']? = some z) (hz' : s'.runners[r']? = some z') :
    z'.refCount = z.refCount + (r == r').toNat := by
  rw [hrunners] at hz'
  by_cases hr : r = r'
  · subst hr
    rw [List.getElem?_set_self (List.getElem?_eq_some_iff.mp hx).1] at hz'
    rw [hx] at hz
    rw [← Option.some.inj hz, ← Option.some.inj hz', h, beq_self_eq_true]
    rfl
  · rw [List.getElem?_set_ne hr, hz] at hz'
    rw [Option.some.inj hz', beq_false_of_ne hr]
    rfl

/-- The request moves and the runners stay as they are. -/
theorem Inv.setRequest {s : State} (hinv : Inv s) {q : RequestId} {y y' : LlmRequest}
    (hy : s.requests[q]? = some y) (hwaiting : y.phase.waiting = true)
    (hsettled : y'.settled = y.settled) (hunserved : y'.phase.unserved = true)
    (hscheduled : y'.phase.scheduled = true → s.pending = some q)
    (hfound : ∀ r, y'.phase.found = some r →
      ∃ x : RunnerRef, s.runners[r]? = some x ∧ x.modelKey = y'.model)
    (hload : ∀ first, y'.phase = .load first → AList.lookup y'.model s.loaded = none) :
    Inv (s.setRequest q y') :=
  hinv.goTo hy hwaiting (frame_refl _ rfl rfl) (refCount_frame_refl rfl) rfl (fun _ _ => id)
    hsettled hunserved hscheduled hfound hload

/-- A runner that is loaded is delivered and counted. -/
theorem Inv.deliver {s s' : State} (hinv : Inv s) {q : RequestId} {y : LlmRequest} {r : RunnerId}
    {x x' : RunnerRef} (hy : s.requests[q]? = some y) (hwaiting : y.phase.waiting = true)
    (hx : s.runners[r]? = some x) (hkey : x.modelKey = y.model) (hunloaded : x.unloaded = false)
    (hrunners : s'.runners = s.runners.set r x') (hloaded : s'.loaded = s.loaded)
    (hrequests : s'.requests = s.requests.set q (y.deliver r))
    (hpending : ∀ q', q' ≠ q → s.pending = some q' → s'.pending = some q')
    (hsame : SameRunner (· ≠ q) x x') (hcount : x'.refCount = x.refCount + 1) : Inv s' := by
  have hframe : Frame (· ≠ q) s s' := frame_setRunner hx hrunners hloaded hsame
  have hok : RequestOk s' q (y.deliver r) := by
    refine ⟨nofun, nofun, nofun, nofun, fun r' hr' => ?_, ?_⟩
    · obtain rfl := Option.some.inj hr'
      refine ⟨rfl, x', ?_, hsame.modelKey.trans hkey, hsame.unloaded.trans hunloaded⟩
      rw [hrunners, List.getElem?_set_self (List.getElem?_eq_some_iff.mp hx).1]
    · show y.settled = _
      rw [hinv.settled_nil hy (Phase.ne_finished hwaiting)]
      rfl
  refine hinv.move hy hframe hrequests hpending hok fun r' z z' hz hz' => ?_
  rw [outstanding_of_held (Phase.held_of_waiting hwaiting), outstanding_deliver, Bool.toNat_false,
    Nat.add_zero]
  exact refCount_setRunner_succ hx hrunners hcount r' z z' hz hz'

theorem Inv.useLoadedRunner {s s' : State} (hinv : Inv s) {q : RequestId} {y : LlmRequest}
    {r : RunnerId} {x : RunnerRef} (hy : s.requests[q]? = some y) (hfound : y.phase.found = some r)
    (hx : s.runners[r]? = some x) (hunloaded : x.unloaded = false)
    (hpending : ∀ q', q' ≠ q → s.pending = some q' → s'.pending = some q')
    (hs' : s' = { useLoadedRunner s q y r x with pending := s'.pending }) : Inv s' := by
  have hwaiting : y.phase.waiting = true := by
    cases hph : y.phase <;> first | rfl | (rw [hph] at hfound; cases hfound)
  obtain ⟨x₀, hx₀, hkey⟩ := (hinv.request q y hy).found r hfound
  rw [hx] at hx₀
  obtain rfl := Option.some.inj hx₀
  have hrunners : s'.runners = s.runners.set r (x.use y) := by
    rw [hs']
    rfl
  exact hinv.deliver hy hwaiting hx hkey hunloaded hrunners (by rw [hs']; rfl) (by rw [hs']; rfl)
    hpending ⟨rfl, rfl, fun _ _ => id⟩ rfl

/-- `getRunner` -/
theorem Inv.caller {maxQueue : Nat} {s s' : State} (hinv : Inv s) {q : RequestId}
    {y : LlmRequest} {needsReload : Bool} (hy : s.requests[q]? = some y)
    (htimely : ∀ r ∈ y.phase.using, ∀ x ∈ s.runners[r]?, x.unloaded = false)
    (h : stepCaller maxQueue s q y needsReload = some s') : Inv s' := by
  simp only [stepCaller] at h
  split at h
  · rename_i hphase
    have hwaiting : y.phase.waiting = true := by rw [hphase]; rfl
    split at h
    · obtain rfl := Option.some.inj h
      exact hinv.setRequest hy hwaiting rfl rfl nofun nofun nofun
    · rename_i r hr
      obtain rfl := Option.some.inj h
      refine hinv.setRequest hy hwaiting rfl rfl nofun (fun r' hr' => ?_) nofun
      obtain rfl := Option.some.inj hr'
      obtain ⟨x, hx, hkey, -⟩ := hinv.loaded _ r hr
      exact ⟨x, hx, hkey⟩
  · rename_i r hphase
    have hwaiting : y.phase.waiting = true := by rw [hphase]; rfl
    obtain ⟨x, hx, rfl⟩ := Option.map_eq_some_iff.mp h
    split
    · exact hinv.setRequest hy hwaiting rfl rfl nofun nofun nofun
    · refine hinv.setRequest hy hwaiting rfl rfl nofun (fun r' hr' => ?_) nofun
      obtain rfl := Option.some.inj hr'
      exact (hinv.request q y hy).found r (by rw [hphase]; rfl)
  · rename_i r hphase
    obtain ⟨x, hx, rfl⟩ := Option.map_eq_some_iff.mp h
    have hx := (lock_eq hx).1
    have husing : y.phase.using = some r := by rw [hphase]; rfl
    exact hinv.useLoadedRunner hy (by rw [hphase]; rfl) hx (htimely r husing x hx) (fun _ _ => id)
      rfl
  · rename_i hphase
    have hwaiting : y.phase.waiting = true := by rw [hphase]; rfl
    split at h
    · obtain rfl := Option.some.inj h
      exact hinv.setRequest hy hwaiting rfl rfl nofun nofun nofun
    · obtain rfl := Option.some.inj h
      exact hinv.setRequest hy hwaiting rfl rfl nofun nofun nofun
  · cases h

/-! ### `processPending` -/

/-- A request that the loop is at is the only one there. -/
theorem pending_others {s : State} {q : RequestId} (hq : s.pending = some q) {p : Option RequestId}
    (q' : RequestId) (hne : q' ≠ q) (h : s.pending = some q') : p = some q' := by
  rw [hq] at h
  exact absurd (Option.some.inj h).symm hne

theorem Inv.expireNow {s : State} (hinv : Inv s) {q : RequestId} {y : LlmRequest} {r : RunnerId}
    {x : RunnerRef} (hy : s.requests[q]? = some y) (hx : s.runners[r]? = some x)
    (hwaiting : y.phase.waiting = true) {ph : Phase} (hunserved : ph.unserved = true)
    (hscheduled : ph.scheduled = true → s.pending = some q) (hfound : ph.found = none)
    (hload : ∀ first, ph ≠ .load first) :
    Inv ((Server.expireNow s r x).setRequest q { y with phase := ph }) := by
  refine hinv.goTo hy hwaiting (frame_setRunner hx rfl rfl ⟨rfl, rfl, fun _ _ => id⟩)
    (refCount_setRunner hx rfl rfl) rfl (fun _ _ => id) rfl hunserved hscheduled (fun r' hr' => ?_)
    fun first h => absurd h (hload first)
  · rw [show ph.found = some r' from hr'] at hfound
    cases hfound

theorem Inv.schedule {s s' : State} (hinv : Inv s) {q : RequestId} {y : LlmRequest}
    {needsReload full : Bool} (hq : s.pending = some q) (hy : s.requests[q]? = some y)
    (htimely : ∀ r ∈ y.phase.using, ∀ x ∈ s.runners[r]?, x.unloaded = false)
    (h : stepSchedule s q y needsReload full = some s') : Inv s' := by
  simp only [stepSchedule] at h
  split at h
  · rename_i hphase
    have hwaiting : y.phase.waiting = true := by rw [hphase]; rfl
    split at h
    · rename_i r hr
      obtain rfl := Option.some.inj h
      refine hinv.setRequest hy hwaiting rfl rfl (fun _ => hq) (fun r' hr' => ?_) nofun
      obtain rfl := Option.some.inj hr'
      obtain ⟨x, hx, hkey, -⟩ := hinv.loaded _ r hr
      exact ⟨x, hx, hkey⟩
    · rename_i hnone
      split at h
      · obtain rfl := Option.some.inj h
        exact hinv.setRequest hy hwaiting rfl rfl (fun _ => hq) nofun nofun
      · obtain rfl := Option.some.inj h
        exact hinv.setRequest hy hwaiting rfl rfl (fun _ => hq) nofun fun _ _ => hnone
  · rename_i r hphase
    have hwaiting : y.phase.waiting = true := by rw [hphase]; rfl
    obtain ⟨x, hx, rfl⟩ := Option.map_eq_some_iff.mp h
    split
    · exact hinv.setRequest hy hwaiting rfl rfl (fun _ => hq) nofun nofun
    · refine hinv.setRequest hy hwaiting rfl rfl (fun _ => hq) (fun r' hr' => ?_) nofun
      obtain rfl := Option.some.inj hr'
      exact (hinv.request q y hy).found r (by rw [hphase]; rfl)
  · rename_i r hphase
    obtain ⟨x, hx, rfl⟩ := Option.map_eq_some_iff.mp h
    have hx := (lock_eq hx).1
    have husing : y.phase.using = some r := by rw [hphase]; rfl
    exact hinv.useLoadedRunner hy (by rw [hphase]; rfl) hx (htimely r husing x hx)
      (pending_others hq) rfl
  · rename_i r hphase
    obtain ⟨x, hx, rfl⟩ := Option.map_eq_some_iff.mp h
    exact hinv.expireNow hy (lock_eq hx).1 (by rw [hphase]; rfl) rfl (fun _ => hq) rfl nofun
  · cases h

theorem Inv.findRunner {s s' : State} (hinv : Inv s) {q : RequestId} {y : LlmRequest}
    {r : Option RunnerId} (hq : s.pending = some q) (hy : s.requests[q]? = some y)
    (h : stepFindRunner s q y r = some s') : Inv s' := by
  simp only [stepFindRunner] at h
  split at h
  · rename_i hphase
    split at h
    · obtain rfl := Option.some.inj h
      exact hinv.setRequest hy (by rw [hphase]; rfl) rfl rfl (fun _ => hq) nofun nofun
    · cases h
  · rename_i hphase
    split at h
    · obtain rfl := Option.some.inj h
      exact hinv.setRequest hy (by rw [hphase]; rfl) rfl rfl (fun _ => hq) nofun nofun
    · cases h
  · cases h

theorem Inv.evict {s s' : State} (hinv : Inv s) {q : RequestId} {y : LlmRequest} {i : Nat}
    (hq : s.pending = some q) (hy : s.requests[q]? = some y) (h : stepEvict s q y i = some s') :
    Inv s' := by
  simp only [stepEvict] at h
  split at h
  · rename_i todo n hphase
    split at h
    · obtain ⟨x, hx, rfl⟩ := Option.map_eq_some_iff.mp h
      exact hinv.expireNow hy (lock_eq hx).1 (by rw [hphase]; rfl) rfl (fun _ => hq) rfl nofun
    · split at h
      · obtain rfl := Option.some.inj h
        exact hinv.setRequest hy (by rw [hphase]; rfl) rfl rfl (fun _ => hq) nofun nofun
      · cases h
  · rename_i hphase
    obtain rfl := Option.some.inj h
    exact hinv.setRequest hy (by rw [hphase]; rfl) rfl rfl (fun _ => hq) nofun nofun
  · cases h

theorem Inv.recvUnloaded {s s' : State} (hinv : Inv s) (h : stepUnloaded s = some s') : Inv s' := by
  simp only [stepUnloaded] at h
  split at h
  · cases h
  · split at h
    · obtain rfl := Option.some.inj h
      exact hinv.frame (frame_refl _ rfl rfl) rfl rfl (refCount_frame_refl rfl)
    · rename_i q hq
      obtain ⟨y, hy, h⟩ := Option.bind_eq_some_iff.mp h
      split at h
      · rename_i hphase
        obtain rfl := Option.some.inj h
        exact hinv.goTo hy (by rw [hphase]; rfl) (frame_refl _ rfl rfl) (refCount_frame_refl rfl) rfl
          (fun _ _ => id) rfl rfl (fun _ => hq) nofun nofun
      · rename_i hphase
        obtain rfl := Option.some.inj h
        exact hinv.goTo hy (by rw [hphase]; rfl) (frame_refl _ rfl rfl) (refCount_frame_refl rfl) rfl
          (fun _ _ => id) rfl rfl (fun _ => hq) nofun nofun
      · cases h

theorem getElem?_append_old {α : Type*} {l : List α} {b x : α} {i : Nat} (h : l[i]? = some x) :
    (l ++ [b])[i]? = some x := by
  rw [List.getElem?_append_left (List.getElem?_eq_some_iff.mp h).1, h]

theorem getElem?_append_new {α : Type*} {l : List α} {b x : α} {i : Nat}
    (h : (l ++ [b])[i]? = some x) : l[i]? = some x ∨ i = l.length ∧ x = b := by
  by_cases hi : i < l.length
  · rw [List.getElem?_append_left hi] at h
    exact .inl h
  · rw [List.getElem?_append_right (by omega)] at h
    cases hd : i - l.length with
    | zero =>
      rw [hd] at h
      exact .inr ⟨by omega, (Option.some.inj h).symm⟩
    | succ n =>
      rw [hd] at h
      cases h

theorem getElem?_set_cases {α : Type*} {l : List α} {b x : α} {i j : Nat} (h : (l.set i b)[j]? = some x) :
    j = i ∧ x = b ∨ j ≠ i ∧ l[j]? = some x := by
  by_cases hij : i = j
  · subst hij
    have hlt := (List.getElem?_eq_some_iff.mp h).1
    rw [List.length_set] at hlt
    rw [List.getElem?_set_self hlt] at h
    exact .inl ⟨rfl, (Option.some.inj h).symm⟩
  · rw [List.getElem?_set_ne hij] at h
    exact .inr ⟨Ne.symm hij, h⟩

/-- A request that `load` is not at, when the new runner is there. -/
theorem RequestOk.addRunner {s s' : State} {q : RequestId} {y : LlmRequest} {x : RunnerRef}
    (h : RequestOk s q y) (hne : s.pending ≠ some q) (hrunners : s'.runners = s.runners ++ [x]) :
    RequestOk s' q y := by
  refine ⟨fun hs => absurd (h.pending hs) hne, fun r hr => ?_, fun first hload => ?_,
    fun r hr => ?_, fun r hr => ?_, h.settled⟩
  · obtain ⟨z, hz, hkey⟩ := h.found r hr
    rw [hrunners]
    exact ⟨z, getElem?_append_old hz, hkey⟩
  · refine absurd (h.pending ?_) hne
    rw [hload]
    rfl
  · obtain ⟨z, hz, hkey⟩ := h.loading r hr
    rw [hrunners]
    exact ⟨z, getElem?_append_old hz, hkey⟩
  · obtain ⟨hsucc, z, hz, hkey⟩ := h.held r hr
    rw [hrunners]
    exact ⟨hsucc, z, getElem?_append_old hz, hkey⟩

/-- A runner for a model that has none. -/
theorem Inv.addRunner {s : State} (hinv : Inv s) {q : RequestId} {y : LlmRequest} {first : Bool}
    {pid keepAlive : Int} (hq : s.pending = some q) (hy : s.requests[q]? = some y)
    (hphase : y.phase = .load first) : Inv (Server.addRunner s q y pid keepAlive) := by
  have hnone := (hinv.request q y hy).load first hphase
  have hwaiting : y.phase.waiting = true := by rw [hphase]; rfl
  obtain ⟨x, hrunners, hkey, hcount, hloader, hunloaded⟩ : ∃ x : RunnerRef,
      (Server.addRunner s q y pid keepAlive).runners = s.runners ++ [x] ∧ x.modelKey = y.model ∧
        x.refCount = 0 ∧ x.loader = some q ∧ x.unloaded = false := by
    simp only [Server.addRunner, hnone]
    exact ⟨_, rfl, rfl, rfl, rfl, rfl⟩
  have hnew : (s.runners ++ [x])[s.runners.length]? = some x := List.getElem?_concat_length
  refine ⟨fun k r h => ?_, fun r z hz hz' => ?_, fun r z hz => ?_, fun q' z hz => ?_⟩
  · rw [Server.addRunner, GoMap.lookup_insert_ite] at h
    rw [hrunners]
    split at h
    · obtain rfl := Option.some.inj h
      exact ⟨x, hnew, hkey.trans (Eq.symm ‹_›), hunloaded⟩
    · obtain ⟨z, hz, hzkey⟩ := hinv.loaded k r h
      exact ⟨z, getElem?_append_old hz, hzkey⟩
  · rw [hrunners] at hz
    rw [Server.addRunner, GoMap.lookup_insert_ite]
    rcases getElem?_append_new hz with hz | ⟨rfl, rfl⟩
    · have hold := hinv.alive r z hz hz'
      rw [if_neg]
      · exact hold
      · intro heq
        rw [heq, hnone] at hold
        cases hold
    · rw [if_pos hkey]
  · rw [hrunners] at hz
    have hlt := (List.getElem?_eq_some_iff.mp hy).1
    have hself : s.requests[q] = y := (List.getElem?_eq_some_iff.mp hy).2
    have hcountP : (Server.addRunner s q y pid keepAlive).requests.countP
        (LlmRequest.outstanding r) = s.requests.countP (LlmRequest.outstanding r) := by
      rw [Server.addRunner, List.countP_set hlt, hself,
        outstanding_of_held (Phase.held_of_waiting hwaiting), outstanding_of_held rfl]
      rfl
    rw [hcountP]
    rcases getElem?_append_new hz with hz | ⟨rfl, rfl⟩
    · exact hinv.count r z hz
    · rw [hcount]
      refine (List.countP_eq_zero.mpr fun w hw hout => ?_).symm
      obtain ⟨q', hq'⟩ := List.mem_iff_getElem?.mp hw
      obtain ⟨-, v, hv, -⟩ :=
        (hinv.request q' w hq').held _ ((hinv.outstanding_iff hq' _).mp hout)
      exact absurd (List.getElem?_eq_some_iff.mp hv).1 (Nat.lt_irrefl _)
  · rcases getElem?_set_cases hz with ⟨rfl, rfl⟩ | ⟨hne, hz⟩
    · refine ⟨nofun, nofun, nofun, fun r hr => ?_, nofun, ?_⟩
      · obtain rfl := Phase.loading.inj hr
        rw [hrunners]
        exact ⟨x, hnew, hkey, hloader, hunloaded⟩
      · show y.settled = _
        rw [hinv.settled_nil hy (Phase.ne_finished hwaiting)]
        rfl
    · refine (hinv.request q' z hz).addRunner ?_ hrunners
      rw [hq]
      exact fun h => hne (Option.some.inj h).symm

theorem Inv.load {s s' : State} (hinv : Inv s) {q : RequestId} {y : LlmRequest} {o : LoadOutcome}
    (hq : s.pending = some q) (hy : s.requests[q]? = some y) (h : stepLoad s q y o = some s') :
    Inv s' := by
  cases o with
  | failed =>
    simp only [stepLoad] at h
    split at h
    · rename_i first hphase
      obtain rfl := Option.some.inj h
      exact hinv.goTo hy (by rw [hphase]; rfl) (frame_refl _ rfl rfl) (refCount_frame_refl rfl) rfl
        (pending_others hq) rfl rfl nofun nofun nofun
    · cases h
  | evict oom =>
    simp only [stepLoad] at h
    split at h
    · rename_i first hphase
      have hwaiting : y.phase.waiting = true := by rw [hphase]; rfl
      split at h
      · obtain rfl := Option.some.inj h
        exact hinv.setRequest hy hwaiting rfl rfl (fun _ => hq) nofun nofun
      split at h
      · obtain rfl := Option.some.inj h
        exact hinv.setRequest hy hwaiting rfl rfl (fun _ => hq) nofun nofun
      · obtain rfl := Option.some.inj h
        exact hinv.setRequest hy hwaiting rfl rfl (fun _ => hq) nofun nofun
    · cases h
  | started pid keepAlive =>
    simp only [stepLoad] at h
    split at h
    · rename_i first hphase
      split at h
      · obtain rfl := Option.some.inj h
        exact hinv.addRunner hq hy hphase
      · cases h
    · cases h

/-- The load ends, and the lock of the runner is free. -/
theorem Inv.loaded_step {s s' : State} (hinv : Inv s) {q : RequestId} {y : LlmRequest}
    {pid : Option Int} (hy : s.requests[q]? = some y) (h : stepLoaded s q y pid = some s') :
    Inv s' := by
  simp only [stepLoaded] at h
  split at h
  · rename_i r hphase
    have hwaiting : y.phase.waiting = true := by rw [hphase]; rfl
    obtain ⟨x, hx, rfl⟩ := Option.map_eq_some_iff.mp h
    obtain ⟨x₀, hx₀, hkey, hloader, hunloaded⟩ := (hinv.request q y hy).loading r hphase
    rw [hx] at hx₀
    obtain rfl := Option.some.inj hx₀
    have hothers : ∀ q', q' ≠ q → x.loader = some q' → (none : Option RequestId) = some q' := by
      intro q' hne hq'
      rw [hloader] at hq'
      exact absurd (Option.some.inj hq').symm hne
    split
    · exact hinv.goTo hy hwaiting (frame_setRunner hx rfl rfl ⟨rfl, rfl, hothers⟩)
        (refCount_setRunner hx rfl rfl) rfl (fun _ _ => id) rfl rfl nofun nofun nofun
    · exact hinv.deliver hy hwaiting hx hkey hunloaded rfl rfl rfl (fun _ _ => id)
        ⟨rfl, rfl, hothers⟩ rfl
  · cases h

/-! ### `processCompleted` -/

theorem Inv.cancel {s : State} (hinv : Inv s) {q : RequestId} {y : LlmRequest}
    (hy : s.requests[q]? = some y) : Inv (s.setRequest q { y with done := true }) := by
  have hok := hinv.request q y hy
  refine hinv.move hy (frame_refl _ rfl rfl) rfl (fun _ _ => id)
    ⟨hok.pending, hok.found, hok.load, hok.loading, hok.held, hok.settled⟩
    fun r x x' hx hx' => ?_
  rw [refCount_frame_refl rfl r x x' hx hx']
  rfl

/-- A request that was delivered a runner goes on to the loop. -/
theorem Inv.goToHeld {s s' : State} (hinv : Inv s) {q : RequestId} {y : LlmRequest} {r : RunnerId}
    {ph : Phase} (hy : s.requests[q]? = some y) (hheld : y.phase.held = some r)
    (hph : ph = .notified r ∨ ph = .finishing r) (hframe : Frame (· ≠ q) s s')
    (hcount : ∀ (r : RunnerId) (x x' : RunnerRef), s.runners[r]? = some x →
      s'.runners[r]? = some x' → x'.refCount = x.refCount)
    (hpending : s'.pending = s.pending)
    (hrequests : s'.requests = s.requests.set q { y with phase := ph }) : Inv s' := by
  have hok := hinv.request q y hy
  have hfin : y.phase ≠ .finished := by
    intro h
    rw [h] at hheld
    cases hheld
  obtain ⟨hsucc, x, hx, hkey, hunloaded⟩ := hok.held r hheld
  obtain ⟨x', hx', hsame⟩ := hframe.exists_runner hx
  have hheld' : ph.held = some r := by rcases hph with rfl | rfl <;> rfl
  have hok' : RequestOk s' q { y with phase := ph } := by
    refine ⟨fun h => ?_, fun r h => ?_, fun first h => ?_, fun r h => ?_, fun r' hr' => ?_, ?_⟩
    · rcases hph with rfl | rfl <;> cases h
    · rcases hph with rfl | rfl <;> cases h
    · rcases hph with rfl | rfl <;> cases h
    · rcases hph with rfl | rfl <;> cases h
    · rw [show ph.held = some r' from hr'] at hheld'
      obtain rfl := Option.some.inj hheld'
      exact ⟨hsucc, x', hx', hsame.modelKey.trans hkey, hsame.unloaded.trans hunloaded⟩
    · show y.settled = _
      rw [hinv.settled_nil hy hfin]
      rcases hph with rfl | rfl <;> rfl
  refine hinv.move hy hframe hrequests (fun _ _ h => hpending.trans h) hok'
    fun r' z z' hz hz' => ?_
  rw [hcount r' z z' hz hz', LlmRequest.outstanding, LlmRequest.outstanding, hheld, hheld']

theorem Inv.recvFinished {s s' : State} (hinv : Inv s) {q : RequestId} {y : LlmRequest}
    (hy : s.requests[q]? = some y) (h : stepRecvFinished s q y = some s') : Inv s' := by
  simp only [stepRecvFinished] at h
  split at h
  · rename_i r hselect hphase
    have hheld : y.phase.held = some r := by rw [hphase]; rfl
    obtain ⟨-, x, hx, hkey, hunloaded⟩ := (hinv.request q y hy).held r hheld
    -- the runner under the key is the one that was delivered
    have hlookup := hinv.alive r x hx hunloaded
    rw [hkey] at hlookup
    rw [hlookup] at h
    obtain rfl := Option.some.inj h
    exact hinv.goToHeld hy hheld (.inr rfl) (frame_refl _ rfl rfl) (refCount_frame_refl rfl) rfl rfl
  · cases h

theorem finish_eq (s : State) (q : RequestId) (y : LlmRequest) (r : RunnerId) (x : RunnerRef) :
    ∃ x' : RunnerRef, (finish s q y r x).runners = s.runners.set r x' ∧
      (finish s q y r x).loaded = s.loaded ∧ (finish s q y r x).pending = s.pending ∧
      (finish s q y r x).requests =
        s.requests.set q { y with phase := .finished, settled := y.settled ++ [r] } ∧
      SameRunner (· ≠ q) x x' ∧ x'.refCount = decr x.refCount := by
  simp only [finish]
  split
  · split
    · exact ⟨_, rfl, rfl, rfl, rfl, ⟨rfl, rfl, fun _ _ => id⟩, rfl⟩
    · exact ⟨_, rfl, rfl, rfl, rfl, ⟨rfl, rfl, fun _ _ => id⟩, rfl⟩
  · exact ⟨_, rfl, rfl, rfl, rfl, ⟨rfl, rfl, fun _ _ => id⟩, rfl⟩

theorem Inv.finish {s : State} (hinv : Inv s) {q : RequestId} {y : LlmRequest} {r : RunnerId}
    {x : RunnerRef} (hy : s.requests[q]? = some y) (hphase : y.phase = .finishing r)
    (hx : s.runners[r]? = some x) : Inv (Server.finish s q y r x) := by
  have hheld : y.phase.held = some r := by rw [hphase]; rfl
  have hpos := hinv.positive hy hheld hx
  have hsucc := ((hinv.request q y hy).held r hheld).1
  obtain ⟨x', hrunners, hloaded, hpending, hrequests, hsame, hcount⟩ := finish_eq s q y r x
  have hnil := hinv.settled_nil hy (by rw [hphase]; nofun)
  refine hinv.move hy (frame_setRunner hx hrunners hloaded hsame) hrequests
    (fun _ _ h => hpending.trans h) ⟨nofun, nofun, nofun, nofun, nofun, ?_⟩
    fun r' z z' hz hz' => ?_
  · show y.settled ++ [r] = if Phase.finished = .finished then y.successCh.toList else []
    rw [hnil, hsucc]
    rfl
  · rw [hrunners] at hz'
    have hout : y.outstanding r' = (r == r') := by
      rw [LlmRequest.outstanding, hheld, hsucc]
      rfl
    have hout' : LlmRequest.outstanding r'
        { y with phase := .finished, settled := y.settled ++ [r] } = false := rfl
    rw [hout, hout', Bool.toNat_false, Nat.add_zero]
    by_cases hr : r = r'
    · subst hr
      rw [List.getElem?_set_self (List.getElem?_eq_some_iff.mp hx).1] at hz'
      rw [hx] at hz
      obtain rfl := Option.some.inj hz
      rw [← Option.some.inj hz', hcount, decr, if_neg (by omega), beq_self_eq_true, Bool.toNat_true]
      omega
    · rw [List.getElem?_set_ne hr, hz] at hz'
      rw [Option.some.inj hz', beq_false_of_ne hr]
      rfl

/-- A runner that nobody holds is unloaded and forgotten. -/
theorem Inv.unload {s s' : State} (hinv : Inv s) {r : RunnerId} {x : RunnerRef}
    (hx : s.runners[r]? = some x) (hloader : x.loader = none) (hzero : x.refCount = 0)
    (hrunners : s'.runners = s.runners.set r x.unload)
    (hloaded : s'.loaded = AList.erase x.modelKey s.loaded)
    (hself : x.unloaded = false) (hrequests : s'.requests = s.requests)
    (hpending : s'.pending = s.pending) : Inv s' := by
  have hlookup := hinv.alive r x hx hself
  have hnone : ∀ (q : RequestId) (y : LlmRequest), s.requests[q]? = some y → y.phase.held ≠ some r := by
    intro q y hy hheld
    have := hinv.positive hy hheld hx
    omega
  have hothers : ∀ (r' : RunnerId) (z : RunnerRef), s.runners[r']? = some z → r' ≠ r →
      s'.runners[r']? = some z := by
    intro r' z hz hne
    rw [hrunners, List.getElem?_set_ne (Ne.symm hne), hz]
  refine ⟨fun k r' h => ?_, fun r' z hz hz' => ?_, fun r' z hz => ?_, fun q y hy => ?_⟩
  · rw [hloaded, GoMap.lookup_erase_ite] at h
    split at h
    · cases h
    · rename_i hk
      obtain ⟨z, hz, hkey, hunloaded⟩ := hinv.loaded k r' h
      refine ⟨z, hothers r' z hz ?_, hkey, hunloaded⟩
      rintro rfl
      rw [hx] at hz
      obtain rfl := Option.some.inj hz
      exact hk hkey.symm
  · rw [hrunners] at hz
    rcases getElem?_set_cases hz with ⟨rfl, rfl⟩ | ⟨hne, hz⟩
    · cases hz'
    · have hold := hinv.alive r' z hz hz'
      rw [hloaded, GoMap.lookup_erase_ite, if_neg]
      · exact hold
      · intro heq
        rw [heq, hlookup] at hold
        exact hne (Option.some.inj hold).symm
  · rw [hrunners] at hz
    rw [hrequests]
    rcases getElem?_set_cases hz with ⟨rfl, rfl⟩ | ⟨hne, hz⟩
    · exact hinv.count _ x hx
    · exact hinv.count r' z hz
  · rw [hrequests] at hy
    have hok := hinv.request q y hy
    refine ⟨fun h => hpending.trans (hok.pending h), fun r' hr' => ?_, fun first h => ?_,
      fun r' hr' => ?_, fun r' hr' => ?_, hok.settled⟩
    · obtain ⟨z, hz, hkey⟩ := hok.found r' hr'
      by_cases hne : r' = r
      · subst hne
        rw [hx] at hz
        obtain rfl := Option.some.inj hz
        refine ⟨x.unload, ?_, hkey⟩
        rw [hrunners, List.getElem?_set_self (List.getElem?_eq_some_iff.mp hx).1]
      · exact ⟨z, hothers r' z hz hne, hkey⟩
    · rw [hloaded, GoMap.lookup_erase_ite]
      split
      · rfl
      · exact hok.load first h
    · obtain ⟨z, hz, hkey, hzloader, hunloaded⟩ := hok.loading r' hr'
      refine ⟨z, hothers r' z hz ?_, hkey, hzloader, hunloaded⟩
      rintro rfl
      rw [hx] at hz
      obtain rfl := Option.some.inj hz
      rw [hloader] at hzloader
      cases hzloader
    · obtain ⟨hsucc, z, hz, hkey, hunloaded⟩ := hok.held r' hr'
      refine ⟨hsucc, z, hothers r' z hz ?_, hkey, hunloaded⟩
      rintro rfl
      exact hnone q y hy hr'

theorem Inv.expired {s : State} (hinv : Inv s) {r : RunnerId} {x : RunnerRef}
    (hx : s.runners[r]? = some x) (hloader : x.loader = none)
    (htimely : ∀ r' ∈ AList.lookup x.modelKey s.loaded, r' ≠ r →
      ∀ x' ∈ s.runners[r']?, x.pid ≠ x'.pid) : Inv (Server.expired s r x) := by
  simp only [Server.expired]
  split
  · exact hinv.frame (frame_refl _ rfl rfl) rfl rfl (refCount_frame_refl rfl)
  rename_i hzero
  split
  · exact hinv.frame (frame_refl _ rfl rfl) rfl rfl (refCount_frame_refl rfl)
  rename_i x' hfind
  obtain ⟨r', hr', hx'⟩ := Option.bind_eq_some_iff.mp hfind
  split
  · -- an orphan: it is unloaded already, or it would be under its key
    rename_i hpid
    have hunloaded : x.unloaded = true := by
      by_contra hload
      have hself := hinv.alive r x hx (Bool.eq_false_iff.mpr hload)
      rw [hr'] at hself
      obtain rfl := Option.some.inj hself
      rw [hx] at hx'
      obtain rfl := Option.some.inj hx'
      exact hpid rfl
    exact hinv.frame (frame_setRunner hx rfl rfl ⟨rfl, hunloaded.symm, fun _ _ => id⟩) rfl rfl
      (refCount_setRunner hx rfl rfl)
  · rename_i hpid
    rw [not_not] at hpid
    have hsame : r' = r := by
      by_contra hne
      exact htimely r' hr' hne x' hx' hpid
    subst hsame
    obtain ⟨z, hz, -, hunloaded⟩ := hinv.loaded _ _ hr'
    rw [hx] at hz
    obtain rfl := Option.some.inj hz
    exact hinv.unload hx hloader (by omega) rfl rfl hunloaded rfl rfl

theorem Inv.complete {s s' : State} (hinv : Inv s) (htimely : Timely s .complete)
    (h : stepComplete s = some s') : Inv s' := by
  simp only [stepComplete] at h
  split at h
  · cases h
  · obtain ⟨y, hy, h⟩ := Option.bind_eq_some_iff.mp h
    split at h
    · rename_i r hphase
      obtain ⟨x, hx, rfl⟩ := Option.map_eq_some_iff.mp h
      exact hinv.finish hy hphase (lock_eq hx).1
    · cases h
  · rename_i r hcompleted
    obtain ⟨x, hx, rfl⟩ := Option.map_eq_some_iff.mp h
    refine hinv.expired (lock_eq hx).1 (lock_eq hx).2 ?_
    exact htimely r (by rw [hcompleted]; rfl) x (lock_eq hx).1
  · obtain rfl := Option.some.inj h
    exact hinv.frame (frame_refl _ rfl rfl) rfl rfl (refCount_frame_refl rfl)

/-! ## Every run -/

theorem Inv.getRunner {s s' : State} (hinv : Inv s) {y : LlmRequest} (hphase : y.phase = .lookup)
    (hsettled : y.settled = []) (hs' : s' = { s with requests := s.requests ++ [y] }) : Inv s' := by
  subst hs'
  refine ⟨hinv.loaded, hinv.alive, fun r x hx => ?_, fun q z hz => ?_⟩
  · have hout : y.outstanding r = false := outstanding_of_held (by rw [hphase]; rfl) r
    show x.refCount = (s.requests ++ [y]).countP _
    rw [List.countP_append, List.countP_singleton, hout]
    exact hinv.count r x hx
  · rcases getElem?_append_new hz with hz | ⟨-, rfl⟩
    · exact (hinv.request q z hz).frame (frame_refl (fun _ => True) rfl rfl) trivial id
    · refine ⟨fun h => ?_, fun r h => ?_, fun first h => ?_, fun r h => ?_, fun r h => ?_, ?_⟩
      · rw [hphase] at h
        cases h
      · rw [hphase] at h
        cases h
      · rw [hphase] at h
        cases h
      · rw [hphase] at h
        cases h
      · rw [hphase] at h
        cases h
      · rw [hphase]
        exact hsettled

theorem Inv.step {maxQueue : Nat} {s s' : State} {a : Label} (hinv : Inv s) (htimely : Timely s a)
    (h : step maxQueue s a = some s') : Inv s' := by
  cases a with
  | getRunner model sessionDuration => exact hinv.getRunner rfl rfl (Option.some.inj h).symm
  | caller q needsReload =>
    obtain ⟨y, hy, h⟩ := Option.bind_eq_some_iff.mp h
    exact hinv.caller hy (htimely y hy) h
  | receive q =>
    obtain ⟨y, hy, h⟩ := Option.bind_eq_some_iff.mp h
    split at h
    · rename_i hcond
      have hwaiting : y.phase.waiting = true := by rw [hcond.2]; rfl
      split at h
      · obtain rfl := Option.some.inj h
        exact hinv.setRequest hy hwaiting rfl rfl nofun nofun nofun
      · obtain rfl := Option.some.inj h
        refine hinv.goTo hy hwaiting (frame_refl _ rfl rfl) (refCount_frame_refl rfl) rfl
          (fun q' _ hq' => ?_) rfl rfl (fun _ => rfl) nofun nofun
        rw [hcond.1] at hq'
        cases hq'
    · cases h
  | schedule needsReload full =>
    obtain ⟨q, hq, h⟩ := Option.bind_eq_some_iff.mp h
    obtain ⟨y, hy, h⟩ := Option.bind_eq_some_iff.mp h
    exact hinv.schedule hq hy (htimely q hq y hy) h
  | findRunner r =>
    obtain ⟨q, hq, h⟩ := Option.bind_eq_some_iff.mp h
    obtain ⟨y, hy, h⟩ := Option.bind_eq_some_iff.mp h
    exact hinv.findRunner hq hy h
  | load o =>
    obtain ⟨q, hq, h⟩ := Option.bind_eq_some_iff.mp h
    obtain ⟨y, hy, h⟩ := Option.bind_eq_some_iff.mp h
    exact hinv.load hq hy h
  | evict i =>
    obtain ⟨q, hq, h⟩ := Option.bind_eq_some_iff.mp h
    obtain ⟨y, hy, h⟩ := Option.bind_eq_some_iff.mp h
    exact hinv.evict hq hy h
  | recvUnloaded => exact hinv.recvUnloaded h
  | loaded q pid =>
    obtain ⟨y, hy, h⟩ := Option.bind_eq_some_iff.mp h
    exact hinv.loaded_step hy h
  | cancel q =>
    obtain ⟨y, hy, rfl⟩ := Option.map_eq_some_iff.mp h
    exact hinv.cancel hy
  | notify q =>
    obtain ⟨y, hy, h⟩ := Option.bind_eq_some_iff.mp h
    split at h
    · rename_i r hphase
      split at h
      · obtain rfl := Option.some.inj h
        exact hinv.goToHeld hy (by rw [hphase]; rfl) (.inl rfl) (frame_refl _ rfl rfl)
          (refCount_frame_refl rfl) rfl rfl
      · cases h
    · cases h
  | recvFinished q =>
    obtain ⟨y, hy, h⟩ := Option.bind_eq_some_iff.mp h
    exact hinv.recvFinished hy h
  | recvExpired =>
    simp only [Server.step] at h
    split at h
    · obtain rfl := Option.some.inj h
      exact hinv.frame (frame_refl _ rfl rfl) rfl rfl (refCount_frame_refl rfl)
    · cases h
  | complete => exact hinv.complete htimely h
  | fire r =>
    obtain ⟨x, hx, h⟩ := Option.bind_eq_some_iff.mp h
    split at h
    · obtain rfl := Option.some.inj h
      exact hinv.frame (frame_setRunner hx rfl rfl ⟨rfl, rfl, fun _ _ => id⟩) rfl rfl
        (refCount_setRunner hx rfl rfl)
    · cases h
  | callback i =>
    obtain ⟨r, -, h⟩ := Option.bind_eq_some_iff.mp h
    obtain ⟨x, hx, rfl⟩ := Option.map_eq_some_iff.mp h
    exact hinv.frame (frame_setRunner (lock_eq hx).1 rfl rfl ⟨rfl, rfl, fun _ _ => id⟩) rfl rfl
      (refCount_setRunner (lock_eq hx).1 rfl rfl)
  | retry i =>
    obtain ⟨r, -, rfl⟩ := Option.map_eq_some_iff.mp h
    exact hinv.frame (frame_refl _ rfl rfl) rfl rfl (refCount_frame_refl rfl)
  | expireRunner model =>
    obtain ⟨r, -, rfl⟩ := Option.map_eq_some_iff.mp h
    exact hinv.frame (frame_refl _ rfl rfl) rfl rfl (refCount_frame_refl rfl)
  | expireCaller i =>
    obtain ⟨r, -, h⟩ := Option.bind_eq_some_iff.mp h
    obtain ⟨x, hx, rfl⟩ := Option.map_eq_some_iff.mp h
    exact hinv.frame (frame_setRunner (lock_eq hx).1 rfl rfl ⟨rfl, rfl, fun _ _ => id⟩) rfl rfl
      (refCount_setRunner (lock_eq hx).1 rfl rfl)

theorem inv_initial : Inv initial := by
  refine ⟨fun k r h => ?_, nofun, nofun, nofun⟩
  rw [initial, GoMap.lookup_empty] at h
  cases h

theorem run_inv (maxQueue : Nat) : ((system maxQueue).restrict Timely).Invariant Inv := by
  refine TSys.Inductive.invariant ⟨?_, ?_⟩
  · rintro s rfl
    exact inv_initial
  · rintro s a s' hinv ⟨htimely, hstep⟩
    exact hinv.step htimely hstep

/-- In every timely run the runners that were delivered are loaded and counted. -/
theorem run_lifetime (maxQueue : Nat) (s : State)
    (hs : ((system maxQueue).restrict Timely).Reachable s) : Lifetime s :=
  (run_inv maxQueue s hs).lifetime

/-- A request for a model that is not loaded, up to the delivery of the runner. -/
def loadFor (model : Key) (q : RequestId) (pid : Int) : List Label :=
  [.getRunner model (some 5), .caller q false, .caller q false, .receive q, .schedule false false,
    .load (.started pid 5), .loaded q (some pid)]

/-- The end of a request. -/
def endOf (q : RequestId) : List Label := [.cancel q, .notify q, .recvFinished q, .complete]

/-- The timer of a runner fires and the runner goes. -/
def timeOut (r : RunnerId) : List Label :=
  [.fire r, .callback 0, .recvExpired, .complete, .complete, .recvUnloaded]

theorem run_lifetime_oneRequest : ∃ s, ((system 1).restrict Timely).Reachable s ∧
    (s.requests.map LlmRequest.phase = [.finished] ∧ s.loaded.keys = []) ∧ Lifetime s := by
  obtain ⟨s, hs, hend⟩ := TSys.Reachable.exists_of_run_restrict (T := system 1) (G := Timely)
    (P := fun s => s.requests.map LlmRequest.phase = [.finished] ∧ s.loaded.keys = [])
    (fun _ _ _ hstep => hstep) (.init rfl) (loadFor [] 0 100 ++ endOf 0 ++ timeOut 0) (by decide)
  exact ⟨s, hs, hend, run_lifetime 1 s hs⟩

/-- Runner 0 goes between the check that it can be used and its delivery to request 1. -/
def lateUse : List Label :=
  loadFor [] 0 100 ++ endOf 0 ++ [.getRunner [] (some 5), .caller 1 false, .caller 1 false] ++
    timeOut 0 ++ [.caller 1 false]

/-- A request is delivered a runner that was unloaded; its end is then taken off the next
runner of the model, which goes while it is used, or whose count goes below zero. A
second expired event takes the runner of another process with the same number out of
the map, and the request that has it is not taken off at all. -/
theorem runner_gone :
    (∃ s, (system 1).Reachable s ∧ s.requests[1]?.map (LlmRequest.outstanding 0) = some true ∧
      s.runners[0]?.map RunnerRef.unloaded = some true) ∧
    (∃ s, (system 1).Reachable s ∧
      s.requests[2]?.map (fun (y : LlmRequest) => (y.done, y.outstanding 1)) = some (false, true) ∧
        s.runners[1]?.map (fun (x : RunnerRef) => (x.refCount, x.unloaded)) = some (0, true)) ∧
    (∃ s, (system 1).Reachable s ∧
      s.runners[1]?.map RunnerRef.refCount = some 18446744073709551615) ∧
    (∃ s, (system 1).Reachable s ∧
      s.requests[1]?.map (fun (y : LlmRequest) => (y.phase, y.settled)) = some (Phase.finished, []) ∧
        s.runners[1]?.map (fun (x : RunnerRef) => (x.refCount, x.unloaded)) = some (1, false)) ∧
    ¬ ∀ s, (system 1).Reachable s → Lifetime s := by
  have hnext : ∀ s a s', step 1 s a = some s' → (system 1).step s a s' := fun _ _ _ hstep => hstep
  have hlate : ∃ s, (system 1).Reachable s ∧
      s.requests[1]?.map (LlmRequest.outstanding 0) = some true ∧
        s.runners[0]?.map RunnerRef.unloaded = some true :=
    TSys.Reachable.exists_of_run hnext (.init rfl) lateUse (by decide)
  refine ⟨hlate, ?_, ?_, ?_, ?_⟩
  · exact TSys.Reachable.exists_of_run hnext (.init rfl)
      (lateUse ++ loadFor [] 2 101 ++ endOf 1 ++ timeOut 1) (by decide)
  · exact TSys.Reachable.exists_of_run hnext (.init rfl)
      (lateUse ++ loadFor [] 2 101 ++ endOf 2 ++ endOf 1) (by decide)
  · exact TSys.Reachable.exists_of_run hnext (.init rfl)
      ([.getRunner [] none, .caller 0 false, .caller 0 false, .receive 0, .schedule false false,
        .load (.started (-1) 5), .loaded 0 none, .expireRunner [], .expireCaller 0, .recvExpired,
        .complete, .complete, .recvUnloaded, .getRunner [] none, .caller 1 false, .caller 1 false,
        .receive 1, .schedule false false, .load (.started (-1) 5), .recvExpired, .complete,
        .complete, .loaded 1 (some 200), .cancel 1, .notify 1, .recvFinished 1]) (by decide)
  · intro hall
    obtain ⟨s, hs, hout, hunloaded⟩ := hlate
    obtain ⟨y, hy, hout⟩ := Option.map_eq_some_iff.mp hout
    obtain ⟨x, hx, hself, -⟩ := (hall s hs).loaded 1 y 0 hy hout
    rw [hx, Option.map_some, hself] at hunloaded
    cases hunloaded

end Prismalama.Server
