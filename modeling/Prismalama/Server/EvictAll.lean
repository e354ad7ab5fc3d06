import Prismalama.Server.SchedLifetime

/-!
# Evicting all runners (`evictAllAndWait` of `server/sched.go`)

The runners that are loaded are told to go, and as many unload events are awaited. An event does
not say whose it is. When none is there as the runners are listed, each one that comes is of a
runner that was listed, as nothing is loaded while `processPending` waits; an event that was there
is counted all the same.
-/

namespace Prismalama.Server

open Prismalama.Lib

/-- The unload events that were not received: those in the channel, and the one that
`processCompleted` is about to send. -/
def State.signals (s : State) : Nat := s.unloadedCh + if s.completed = .unloaded then 1 else 0

/-- The events that `evictAllAndWait` waits for. -/
def Phase.awaited : Phase → Option Nat
  | .evictAll _ n => some n
  | .waitAll n => some n
  | _ => none

/-- `processPending` is in `evictAllAndWait`. -/
def State.evicting (s : State) : Bool :=
  (s.pending.bind fun q => s.requests[q]?).any fun y => y.phase.awaited.isSome

def State.isLoaded (s : State) (r : RunnerId) : Prop := ∃ k, AList.lookup k s.loaded = some r

def State.isUnloaded (s : State) (r : RunnerId) : Prop :=
  ∃ x : RunnerRef, s.runners[r]? = some x ∧ x.unloaded = true

/-- No unload event is there when runners are listed, and a runner that expires meanwhile has the
process of the one that is loaded under its key only if it is that one. -/
def Calm (s : State) : Label → Prop
  | .load (.evict oom) => ∀ q ∈ s.pending, ∀ y ∈ s.requests[q]?, y.phase = .load false →
      (y.oomRetryAttempted || oom) = true → s.loaded.keys ≠ [] → s.signals = 0
  | .complete => s.evicting = true → ∀ r ∈ s.completed.expire?, ∀ x ∈ s.runners[r]?,
      ∀ r' ∈ AList.lookup x.modelKey s.loaded, r' ≠ r → ∀ x' ∈ s.runners[r']?, x.pid ≠ x'.pid
  | _ => True

instance (s : State) : DecidablePred (Calm s)
  | .load (.evict _) => inferInstanceAs (Decidable (∀ q ∈ s.pending, _))
  | .complete => inferInstanceAs (Decidable (s.evicting = true → _))
  | .load .failed | .load (.started _ _) => .isTrue trivial
  | .getRunner _ _ | .caller _ _ | .receive _ | .schedule _ _ | .findRunner _ | .evict _
  | .recvUnloaded | .loaded _ _ | .cancel _ | .notify _ | .recvFinished _ | .recvExpired | .fire _
  | .callback _ | .retry _ | .expireRunner _ | .expireCaller _ => .isTrue trivial

/-! ## What the steps of the others do -/

/-- What is not loaded stays so, an unload sends its event, and, while runners are evicted, what
is no longer loaded is unloaded. -/
structure Steady (s s' : State) : Prop where
  free : ∀ k, AList.lookup k s.loaded = none → AList.lookup k s'.loaded = none
  count : s'.loaded.keys.length + s'.signals = s.loaded.keys.length + s.signals
  gone : s.evicting = true → ∀ r, s.isLoaded r ∨ s.isUnloaded r → s'.isLoaded r ∨ s'.isUnloaded r

theorem steady_refl {s s' : State} (hrunners : s'.runners = s.runners)
    (hloaded : s'.loaded = s.loaded) (hsignals : s'.signals = s.signals) : Steady s s' := by
  refine ⟨fun k h => hloaded ▸ h, by rw [hloaded, hsignals], fun _ r h => ?_⟩
  unfold State.isLoaded State.isUnloaded at *
  rwa [hloaded, hrunners]

theorem isUnloaded_set {s s' : State} {r r' : RunnerId} {x x' : RunnerRef}
    (hx : s.runners[r]? = some x) (hrunners : s'.runners = s.runners.set r x')
    (hun : x.unloaded = true → x'.unloaded = true) (h : s.isUnloaded r') : s'.isUnloaded r' := by
  obtain ⟨z, hz, hzun⟩ := h
  unfold State.isUnloaded
  rw [hrunners]
  by_cases hr : r = r'
  · subst hr
    rw [hx] at hz
    obtain rfl := Option.some.inj hz
    exact ⟨x', List.getElem?_set_self (List.getElem?_eq_some_iff.mp hx).1, hun hzun⟩
  · exact ⟨z, by rw [List.getElem?_set_ne hr, hz], hzun⟩

/-- A step that changes a runner, and not the map. -/
theorem steady_set {s s' : State} {r : RunnerId} {x x' : RunnerRef}
    (hx : s.runners[r]? = some x) (hrunners : s'.runners = s.runners.set r x')
    (hloaded : s'.loaded = s.loaded) (hsignals : s'.signals = s.signals)
    (hun : x.unloaded = true → x'.unloaded = true) : Steady s s' := by
  refine ⟨fun k h => hloaded ▸ h, by rw [hloaded, hsignals], fun _ r' h => ?_⟩
  rcases h with ⟨k, hk⟩ | hr'
  · exact .inl ⟨k, by rw [hloaded, hk]⟩
  · exact .inr (isUnloaded_set hx hrunners hun hr')

/-- A runner that is loaded under its key goes, and its event is to be sent. -/
theorem steady_unload {s s' : State} {r r' : RunnerId} {x : RunnerRef}
    (hx : s.runners[r]? = some x) (hlookup : AList.lookup x.modelKey s.loaded = some r')
    (hown : s.evicting = true → r' = r) (hrunners : s'.runners = s.runners.set r x.unload)
    (hloaded : s'.loaded = AList.erase x.modelKey s.loaded)
    (hsignals : s'.signals = s.signals + 1) : Steady s s' := by
  refine ⟨fun k h => ?_, ?_, fun hevicting i h => ?_⟩
  · rw [hloaded, GoMap.lookup_erase_ite, h, ite_self]
  · have hmem : x.modelKey ∈ s.loaded.keys := (GoMap.mem_keys_iff _ _).mpr ⟨r', hlookup⟩
    have hpos : 0 < s.loaded.keys.length := List.length_pos_of_mem hmem
    rw [hloaded, GoMap.length_keys_erase hmem, hsignals]
    omega
  · obtain rfl := hown hevicting
    rcases h with ⟨k, hk⟩ | hi
    · by_cases hkey : k = x.modelKey
      · rw [hkey, hlookup] at hk
        obtain rfl := Option.some.inj hk
        refine .inr ⟨x.unload, ?_, rfl⟩
        rw [hrunners, List.getElem?_set_self (List.getElem?_eq_some_iff.mp hx).1]
      · exact .inl ⟨k, by rw [hloaded, GoMap.lookup_erase_ite, if_neg hkey, hk]⟩
    · exact .inr (isUnloaded_set hx hrunners (fun _ => rfl) hi)

/-! ## The invariant -/

/-- What holds of a request that `processPending` is at; `listed` are the runners that
`evictAllAndWait` has listed. -/
structure ScheduledOk (listed : List RunnerId) (s : State) (q : RequestId) (y : LlmRequest) :
    Prop where
  pending : y.phase.scheduled = true → s.pending = some q
  free : ∀ first, y.phase = .load first → AList.lookup y.model s.loaded = none
  count : ∀ n, y.phase.awaited = some n → listed = [] ∨ n = s.loaded.keys.length + s.signals
  gone : y.phase.awaited.isSome = true → ∀ r ∈ listed, s.isLoaded r ∨ s.isUnloaded r

def EvictOk (listed : List RunnerId) (s : State) : Prop :=
  ∀ (q : RequestId) (y : LlmRequest), s.requests[q]? = some y → ScheduledOk listed s q y

theorem Phase.scheduled_of_awaited {ph : Phase} (h : ph.awaited.isSome = true) :
    ph.scheduled = true := by
  cases ph <;> first | rfl | cases h

theorem scheduledOk_of_unscheduled {listed : List RunnerId} {s : State} {q : RequestId}
    {y : LlmRequest} (h : y.phase.scheduled = false) : ScheduledOk listed s q y := by
  refine ⟨fun hs => ?_, fun first hload => ?_, fun n hn => ?_, fun hs => ?_⟩
  · rw [h] at hs
    cases hs
  · rw [hload] at h
    cases h
  · have hs := Phase.scheduled_of_awaited (Option.isSome_of_eq_some hn)
    rw [h] at hs
    cases hs
  · rw [Phase.scheduled_of_awaited hs] at h
    cases h

/-- A place of `processPending` without a condition of its own. -/
theorem scheduledOk_of_pending {listed : List RunnerId} {s : State} {q : RequestId}
    {y : LlmRequest} (hq : s.pending = some q) (hload : ∀ first, y.phase ≠ .load first)
    (hawaited : y.phase.awaited = none) : ScheduledOk listed s q y := by
  refine ⟨fun _ => hq, fun first h => absurd h (hload first), fun n hn => ?_, fun hs => ?_⟩
  · rw [hawaited] at hn
    cases hn
  · rw [hawaited] at hs
    cases hs

theorem State.evicting_of_awaited {s : State} {q : RequestId} {y : LlmRequest}
    (hq : s.pending = some q) (hy : s.requests[q]? = some y)
    (h : y.phase.awaited.isSome = true) : s.evicting = true := by
  rw [State.evicting, hq, Option.bind_some, hy]
  exact h

theorem ScheduledOk.steady {listed : List RunnerId} {s s' : State} {q : RequestId}
    {y y' : LlmRequest} (h : ScheduledOk listed s q y) (hy : s.requests[q]? = some y)
    (hs : Steady s s') (hpending : s'.pending = s.pending) (hmodel : y'.model = y.model)
    (hscheduled : y'.phase.scheduled = y.phase.scheduled)
    (hload : ∀ first, y'.phase = .load first → y.phase = .load first)
    (hawaited : y'.phase.awaited = y.phase.awaited) : ScheduledOk listed s' q y' := by
  refine ⟨fun hsch => ?_, fun first hl => ?_, fun n hn => ?_, fun hsome r hr => ?_⟩
  · rw [hpending]
    exact h.pending (hscheduled ▸ hsch)
  · rw [hmodel]
    exact hs.free _ (h.free first (hload first hl))
  · rw [hs.count]
    exact h.count n (hawaited ▸ hn)
  · rw [hawaited] at hsome
    have hq := h.pending (Phase.scheduled_of_awaited hsome)
    exact hs.gone (State.evicting_of_awaited hq hy hsome) r (h.gone hsome r hr)

/-- A step that moves no request. -/
theorem EvictOk.steady {listed : List RunnerId} {s s' : State} (h : EvictOk listed s)
    (hs : Steady s s') (hrequests : s'.requests = s.requests) (hpending : s'.pending = s.pending) :
    EvictOk listed s' := by
  intro q y hy
  rw [hrequests] at hy
  exact (h q y hy).steady hy hs hpending rfl rfl (fun _ => id) rfl

/-- A step that moves one request. -/
theorem EvictOk.set {listed : List RunnerId} {s s' : State} {q : RequestId} {y' : LlmRequest}
    (h : EvictOk listed s) (hs : Steady s s') (hrequests : s'.requests = s.requests.set q y')
    (hpending : s'.pending = s.pending) (hok : ScheduledOk listed s' q y') : EvictOk listed s' := by
  intro q' z hz
  rw [hrequests] at hz
  rcases getElem?_set_cases hz with ⟨rfl, rfl⟩ | ⟨hne, hz⟩
  · exact hok
  · exact (h q' z hz).steady hz hs hpending rfl rfl (fun _ => id) rfl

/-- A step of `processPending`; no other request is at a place of it. -/
theorem EvictOk.own {listed listed' : List RunnerId} {s s' : State} {q : RequestId}
    {y' : LlmRequest} (h : EvictOk listed s) (hq : ∀ q', q' ≠ q → s.pending ≠ some q')
    (hrequests : s'.requests = s.requests.set q y') (hok : ScheduledOk listed' s' q y') :
    EvictOk listed' s' := by
  intro q' z hz
  rw [hrequests] at hz
  rcases getElem?_set_cases hz with ⟨rfl, rfl⟩ | ⟨hne, hz⟩
  · exact hok
  · refine scheduledOk_of_unscheduled (Bool.eq_false_iff.mpr fun hsch => ?_)
    exact hq q' hne ((h q' z hz).pending hsch)

/-- `processPending` is at no request. -/
theorem EvictOk.idle {listed listed' : List RunnerId} {s s' : State} (h : EvictOk listed s)
    (hq : s.pending = none) (hrequests : s'.requests = s.requests) : EvictOk listed' s' := by
  intro q y hy
  rw [hrequests] at hy
  refine scheduledOk_of_unscheduled (Bool.eq_false_iff.mpr fun hsch => ?_)
  have hsome := (h q y hy).pending hsch
  rw [hq] at hsome
  cases hsome

/-! ## The steps -/

section Steps

variable {listed : List RunnerId} {s s' : State} {q : RequestId} {y : LlmRequest}

theorem EvictOk.caller (h : EvictOk listed s) {maxQueue : Nat} {needsReload : Bool}
    (hstep : stepCaller maxQueue s q y needsReload = some s') :
    EvictOk listed s' := by
  unfold stepCaller at hstep
  split at hstep
  · split at hstep <;> cases hstep <;>
      exact h.set (steady_refl rfl rfl rfl) rfl rfl (scheduledOk_of_unscheduled rfl)
  · obtain ⟨x, hx, rfl⟩ := Option.map_eq_some_iff.mp hstep
    split <;> exact h.set (steady_refl rfl rfl rfl) rfl rfl (scheduledOk_of_unscheduled rfl)
  · obtain ⟨x, hx, rfl⟩ := Option.map_eq_some_iff.mp hstep
    exact h.set (steady_set (lock_eq hx).1 rfl rfl rfl id) rfl rfl (scheduledOk_of_unscheduled rfl)
  · split at hstep <;> cases hstep <;>
      exact h.set (steady_refl rfl rfl rfl) rfl rfl (scheduledOk_of_unscheduled rfl)
  · cases hstep

theorem others_of_pending (hq : s.pending = some q) (q' : RequestId) (hne : q' ≠ q) :
    s.pending ≠ some q' := by
  rw [hq]
  exact fun heq => hne (Option.some.inj heq).symm

theorem EvictOk.schedule (h : EvictOk listed s) {needsReload full : Bool}
    (hq : s.pending = some q) (hstep : stepSchedule s q y needsReload full = some s') :
    EvictOk listed s' := by
  have hothers := others_of_pending hq
  unfold stepSchedule at hstep
  split at hstep
  · split at hstep
    · cases hstep
      exact h.own hothers rfl (scheduledOk_of_pending hq nofun rfl)
    · next hnone =>
      split at hstep
      · cases hstep
        exact h.own hothers rfl (scheduledOk_of_pending hq nofun rfl)
      · cases hstep
        exact h.own hothers rfl ⟨fun _ => hq, fun _ _ => hnone, nofun, nofun⟩
  · obtain ⟨x, hx, rfl⟩ := Option.map_eq_some_iff.mp hstep
    split <;> exact h.own hothers rfl (scheduledOk_of_pending hq nofun rfl)
  · obtain ⟨x, hx, rfl⟩ := Option.map_eq_some_iff.mp hstep
    exact h.own hothers rfl (scheduledOk_of_unscheduled rfl)
  · obtain ⟨x, hx, rfl⟩ := Option.map_eq_some_iff.mp hstep
    exact h.own hothers rfl (scheduledOk_of_pending hq nofun rfl)
  · cases hstep

theorem EvictOk.findRunner (h : EvictOk listed s) {r : Option RunnerId} (hq : s.pending = some q)
    (hstep : stepFindRunner s q y r = some s') : EvictOk listed s' := by
  have hothers := others_of_pending hq
  unfold stepFindRunner at hstep
  split at hstep
  · split at hstep
    · cases hstep
      exact h.own hothers rfl (scheduledOk_of_pending hq nofun rfl)
    · cases hstep
  · split at hstep
    · cases hstep
      exact h.own hothers rfl (scheduledOk_of_pending hq nofun rfl)
    · cases hstep
  · cases hstep

/-- The runners that are told to go are not unloaded by that. -/
theorem EvictOk.evict (h : EvictOk listed s) {i : Nat} (hq : s.pending = some q)
    (hy : s.requests[q]? = some y) (hstep : stepEvict s q y i = some s') : EvictOk listed s' := by
  have hothers := others_of_pending hq
  unfold stepEvict at hstep
  split at hstep
  · next todo n hphase =>
    split at hstep
    · obtain ⟨x, hx, rfl⟩ := Option.map_eq_some_iff.mp hstep
      refine h.own hothers rfl ((h q y hy).steady hy
        (steady_set (lock_eq hx).1 rfl rfl rfl id) rfl rfl ?_ nofun ?_)
      · rw [hphase]
        rfl
      · rw [hphase]
        rfl
    · split at hstep
      · cases hstep
        refine h.own hothers rfl
          ((h q y hy).steady hy (steady_refl rfl rfl rfl) rfl rfl ?_ nofun ?_)
        · rw [hphase]
          rfl
        · rw [hphase]
          rfl
      · cases hstep
  · cases hstep
    exact h.own hothers rfl (scheduledOk_of_pending hq nofun rfl)
  · cases hstep

/-- Each event that is received is one of those that are awaited. -/
theorem EvictOk.recvUnloaded (h : EvictOk listed s) (hstep : stepUnloaded s = some s') :
    EvictOk listed s' := by
  unfold stepUnloaded at hstep
  split at hstep
  · cases hstep
  · next n hn =>
    split at hstep
    · next hq =>
      cases hstep
      exact h.idle hq rfl
    · next q hq =>
      have hothers := others_of_pending hq
      obtain ⟨y, hy, hstep⟩ := Option.bind_eq_some_iff.mp hstep
      split at hstep
      · cases hstep
        exact h.own hothers rfl (scheduledOk_of_pending hq nofun rfl)
      · next k hphase =>
        cases hstep
        have hok := h q y hy
        have hawaited : y.phase.awaited = some (k + 1) := by rw [hphase]; rfl
        refine h.own hothers rfl ⟨fun _ => hq, nofun, fun n' hn' => ?_, fun _ => ?_⟩
        · obtain rfl := Option.some.inj hn'
          refine (hok.count _ hawaited).imp_right fun heq => ?_
          rw [State.signals, hn] at heq
          show k = s.loaded.keys.length + (n + if s.completed = .unloaded then 1 else 0)
          omega
        · exact hok.gone (Option.isSome_of_eq_some hawaited)
      · cases hstep

theorem EvictOk.loaded_step (h : EvictOk listed s) {pid : Option Int}
    (hstep : stepLoaded s q y pid = some s') : EvictOk listed s' := by
  unfold stepLoaded at hstep
  split at hstep
  · obtain ⟨x, hx, rfl⟩ := Option.map_eq_some_iff.mp hstep
    split <;>
      exact h.set (steady_set hx rfl rfl rfl id) rfl rfl (scheduledOk_of_unscheduled rfl)
  · cases hstep

theorem EvictOk.recvFinished (h : EvictOk listed s) (hstep : stepRecvFinished s q y = some s') :
    EvictOk listed s' := by
  unfold stepRecvFinished at hstep
  split at hstep
  · next hcompleted _ =>
    split at hstep <;> cases hstep
    · exact h.set (steady_refl rfl rfl rfl) rfl rfl (scheduledOk_of_unscheduled rfl)
    · refine h.set (steady_refl rfl rfl ?_) rfl rfl (scheduledOk_of_unscheduled rfl)
      simp [State.signals, hcompleted, State.setRequest]
  · cases hstep

theorem EvictOk.finish (h : EvictOk listed s) {r : RunnerId} {x : RunnerRef}
    (hcompleted : s.completed = .finish q) (hx : s.runners[r]? = some x) :
    EvictOk listed (Server.finish s q y r x) := by
  have hsignals : ∀ s' : State, s'.completed = .select → s'.unloadedCh = s.unloadedCh →
      s'.signals = s.signals := by
    intro s' hselect hch
    rw [State.signals, State.signals, hselect, hch, hcompleted]
    rfl
  simp only [Server.finish]
  split
  · split
    · exact h.set (steady_set hx rfl rfl (hsignals _ rfl rfl) id) rfl rfl
        (scheduledOk_of_unscheduled rfl)
    · exact h.set (steady_set hx rfl rfl (hsignals _ rfl rfl) id) rfl rfl
        (scheduledOk_of_unscheduled rfl)
  · exact h.set (steady_set hx rfl rfl (hsignals _ rfl rfl) id) rfl rfl
      (scheduledOk_of_unscheduled rfl)

/-- An expired event unloads the runner that is loaded, or one that is not. -/
theorem EvictOk.expired (h : EvictOk listed s) {r : RunnerId} {x : RunnerRef}
    (hcompleted : s.completed = .expire r) (hx : s.runners[r]? = some x)
    (hcalm : Calm s .complete) : EvictOk listed (Server.expired s r x) := by
  have hsignals : s.signals = s.unloadedCh := by
    rw [State.signals, hcompleted]
    rfl
  simp only [Server.expired]
  split
  · exact h.steady (steady_refl rfl rfl hsignals.symm) rfl rfl
  · split
    · exact h.steady (steady_refl rfl rfl hsignals.symm) rfl rfl
    · next x' hfind =>
      obtain ⟨r', hlookup, hx'⟩ := Option.bind_eq_some_iff.mp hfind
      split
      · exact h.steady (steady_set hx rfl rfl hsignals.symm fun _ => rfl) rfl rfl
      · next hpid =>
        refine h.steady (steady_unload hx hlookup (fun hevicting => ?_) rfl rfl ?_) rfl rfl
        · by_contra hne
          exact hpid (hcalm hevicting r (by rw [hcompleted]; rfl) x hx r' hlookup hne x' hx')
        · rw [hsignals]
          rfl

theorem EvictOk.complete (h : EvictOk listed s) (hcalm : Calm s .complete)
    (hstep : stepComplete s = some s') : EvictOk listed s' := by
  unfold stepComplete at hstep
  split at hstep
  · cases hstep
  · next q hcompleted =>
    obtain ⟨y, hy, hstep⟩ := Option.bind_eq_some_iff.mp hstep
    split at hstep
    · obtain ⟨x, hx, rfl⟩ := Option.map_eq_some_iff.mp hstep
      exact h.finish hcompleted (lock_eq hx).1
    · cases hstep
  · next r hcompleted =>
    obtain ⟨x, hx, rfl⟩ := Option.map_eq_some_iff.mp hstep
    exact h.expired hcompleted (lock_eq hx).1 hcalm
  · next hcompleted =>
    cases hstep
    refine h.steady (steady_refl rfl rfl ?_) rfl rfl
    rw [State.signals, State.signals, hcompleted]
    rfl

/-- A runner that is loaded anew takes the place of none, and is not one that was listed. -/
theorem EvictOk.load (h : EvictOk listed s) {o : LoadOutcome} (hq : s.pending = some q)
    (hy : s.requests[q]? = some y) (hcalm : Calm s (.load o)) (hstep : stepLoad s q y o = some s') :
    ∃ listed', EvictOk listed' s' ∧ ∀ y' : LlmRequest, s'.requests[q]? = some y' →
      y'.phase.awaited.isSome = true → ∀ k r, k ≠ y.model → AList.lookup k s.loaded = some r →
        r ∈ listed' := by
  have hothers := others_of_pending hq
  have hlt := (List.getElem?_eq_some_iff.mp hy).1
  -- a step to another place
  have hother : ∀ y' : LlmRequest, y'.phase.awaited = none →
      s'.requests = s.requests.set q y' → ScheduledOk [] s' q y' →
      ∃ listed', EvictOk listed' s' ∧ ∀ y' : LlmRequest, s'.requests[q]? = some y' →
        y'.phase.awaited.isSome = true → ∀ k r, k ≠ y.model → AList.lookup k s.loaded = some r →
          r ∈ listed' := by
    intro y' hnone hrequests hok
    refine ⟨[], h.own hothers hrequests hok, fun z hz hsome => ?_⟩
    rw [hrequests, List.getElem?_set_self hlt] at hz
    obtain rfl := Option.some.inj hz
    rw [hnone] at hsome
    cases hsome
  cases o with
  | failed =>
    simp only [stepLoad] at hstep
    split at hstep
    · cases hstep
      exact hother _ rfl rfl (scheduledOk_of_unscheduled rfl)
    · cases hstep
  | started pid keepAlive =>
    simp only [stepLoad] at hstep
    split at hstep
    · split at hstep
      · cases hstep
        exact hother _ rfl rfl (scheduledOk_of_unscheduled rfl)
      · cases hstep
    · cases hstep
  | evict oom =>
    simp only [stepLoad] at hstep
    split at hstep
    · next first hphase =>
      split at hstep
      · cases hstep
        exact hother _ rfl rfl (scheduledOk_of_pending hq (fun _ h => by cases h) rfl)
      · next hfirst =>
        split at hstep
        · next hattempted =>
          cases hstep
          -- no key is left out, as the request's own is not there
          have hfree := (h q y hy).free first hphase
          have hkeys : s.loaded.keys.filter (· ≠ y.model) = s.loaded.keys := by
            refine List.filter_eq_self.mpr fun k hk => decide_eq_true ?_
            rintro rfl
            obtain ⟨r, hr⟩ := (GoMap.mem_keys_iff _ _).mp hk
            rw [hfree] at hr
            cases hr
          have hlisted : ∀ k r, AList.lookup k s.loaded = some r →
              r ∈ s.loaded.keys.filterMap fun k => AList.lookup k s.loaded := fun k r hr =>
            List.mem_filterMap.mpr ⟨k, (GoMap.mem_keys_iff _ _).mpr ⟨r, hr⟩, hr⟩
          rw [hkeys]
          refine ⟨s.loaded.keys.filterMap fun k => AList.lookup k s.loaded,
            h.own hothers rfl
              ⟨fun _ => hq, fun _ h => (by cases h), fun n hn => ?_, fun _ r hr => ?_⟩,
            fun _ _ _ k r _ hr => hlisted k r hr⟩
          · obtain rfl := Option.some.inj hn
            rw [GoMap.length_filterMap_lookup]
            by_cases hnil : s.loaded.keys = []
            · rw [hnil]
              exact .inl rfl
            · right
              have hzero := hcalm q hq y hy (by rw [hphase, Bool.eq_false_iff.mpr hfirst])
                hattempted hnil
              exact (congrArg (s.loaded.keys.length + ·) hzero).symm
          · obtain ⟨k, -, hk⟩ := List.mem_filterMap.mp hr
            exact .inl ⟨k, hk⟩
        · cases hstep
          exact hother _ rfl rfl (scheduledOk_of_pending hq (fun _ h => by cases h) rfl)
    · cases hstep

end Steps

theorem EvictOk.step {listed : List RunnerId} {maxQueue : Nat} {s s' : State} {a : Label}
    (h : EvictOk listed s) (hcalm : Calm s a) (hload : ∀ o, a ≠ .load o)
    (hstep : step maxQueue s a = some s') : EvictOk listed s' := by
  cases a with
  | load o => exact absurd rfl (hload o)
  | getRunner model sessionDuration =>
    cases hstep
    intro q z hz
    rcases getElem?_append_new hz with hz | ⟨-, rfl⟩
    · exact (h q z hz).steady hz (steady_refl rfl rfl rfl) rfl rfl rfl (fun _ => id) rfl
    · exact scheduledOk_of_unscheduled rfl
  | caller q needsReload =>
    obtain ⟨y, hy, hstep⟩ := Option.bind_eq_some_iff.mp hstep
    exact h.caller hstep
  | receive q =>
    obtain ⟨y, hy, hstep⟩ := Option.bind_eq_some_iff.mp hstep
    split at hstep
    · next hcond =>
      split at hstep
      · cases hstep
        exact h.set (steady_refl rfl rfl rfl) rfl rfl (scheduledOk_of_unscheduled rfl)
      · cases hstep
        refine h.own (fun q' _ hq' => ?_) rfl (scheduledOk_of_pending rfl nofun rfl)
        rw [hcond.1] at hq'
        cases hq'
    · cases hstep
  | schedule needsReload full =>
    obtain ⟨q, hq, hstep⟩ := Option.bind_eq_some_iff.mp hstep
    obtain ⟨y, hy, hstep⟩ := Option.bind_eq_some_iff.mp hstep
    exact h.schedule hq hstep
  | findRunner r =>
    obtain ⟨q, hq, hstep⟩ := Option.bind_eq_some_iff.mp hstep
    obtain ⟨y, hy, hstep⟩ := Option.bind_eq_some_iff.mp hstep
    exact h.findRunner hq hstep
  | evict i =>
    obtain ⟨q, hq, hstep⟩ := Option.bind_eq_some_iff.mp hstep
    obtain ⟨y, hy, hstep⟩ := Option.bind_eq_some_iff.mp hstep
    exact h.evict hq hy hstep
  | recvUnloaded => exact h.recvUnloaded hstep
  | loaded q pid =>
    obtain ⟨y, hy, hstep⟩ := Option.bind_eq_some_iff.mp hstep
    exact h.loaded_step hstep
  | cancel q =>
    obtain ⟨y, hy, rfl⟩ := Option.map_eq_some_iff.mp hstep
    have hsteady : Steady s (s.setRequest q { y with done := true }) := steady_refl rfl rfl rfl
    exact h.set hsteady rfl rfl
      ((h q y hy).steady hy hsteady rfl rfl rfl (fun _ => id) rfl)
  | notify q =>
    obtain ⟨y, hy, hstep⟩ := Option.bind_eq_some_iff.mp hstep
    split at hstep
    · split at hstep
      · cases hstep
        exact h.set (steady_refl rfl rfl rfl) rfl rfl (scheduledOk_of_unscheduled rfl)
      · cases hstep
    · cases hstep
  | recvFinished q =>
    obtain ⟨y, hy, hstep⟩ := Option.bind_eq_some_iff.mp hstep
    exact h.recvFinished hstep
  | recvExpired =>
    simp only [Server.step] at hstep
    split at hstep
    · next hcompleted _ =>
      cases hstep
      refine h.steady (steady_refl rfl rfl ?_) rfl rfl
      rw [State.signals, State.signals, hcompleted]
      rfl
    · cases hstep
  | complete => exact h.complete hcalm hstep
  | fire r =>
    obtain ⟨x, hx, hstep⟩ := Option.bind_eq_some_iff.mp hstep
    split at hstep
    · cases hstep
      exact h.steady (steady_set hx rfl rfl rfl id) rfl rfl
    · cases hstep
  | callback i =>
    obtain ⟨r, -, hstep⟩ := Option.bind_eq_some_iff.mp hstep
    obtain ⟨x, hx, rfl⟩ := Option.map_eq_some_iff.mp hstep
    exact h.steady (steady_set (lock_eq hx).1 rfl rfl rfl id) rfl rfl
  | retry i =>
    obtain ⟨r, -, rfl⟩ := Option.map_eq_some_iff.mp hstep
    exact h.steady (steady_refl rfl rfl rfl) rfl rfl
  | expireRunner model =>
    obtain ⟨r, -, rfl⟩ := Option.map_eq_some_iff.mp hstep
    exact h.steady (steady_refl rfl rfl rfl) rfl rfl
  | expireCaller i =>
    obtain ⟨r, -, hstep⟩ := Option.bind_eq_some_iff.mp hstep
    obtain ⟨x, hx, rfl⟩ := Option.map_eq_some_iff.mp hstep
    exact h.steady (steady_set (lock_eq hx).1 rfl rfl rfl id) rfl rfl

/-! ## Every run -/

theorem evictOk_initial : EvictOk [] initial := nofun

theorem run_evictOk (maxQueue : Nat) :
    ((system maxQueue).restrict Calm).Invariant fun s => ∃ listed, EvictOk listed s := by
  refine TSys.Inductive.invariant ⟨?_, ?_⟩
  · rintro s rfl
    exact ⟨[], evictOk_initial⟩
  · rintro s a s' ⟨listed, h⟩ ⟨hcalm, hstep⟩
    cases a with
    | load o =>
      obtain ⟨q, hq, hstep⟩ := Option.bind_eq_some_iff.mp hstep
      obtain ⟨y, hy, hstep⟩ := Option.bind_eq_some_iff.mp hstep
      obtain ⟨listed', h', -⟩ := h.load hq hy hcalm hstep
      exact ⟨listed', h'⟩
    | _ => exact ⟨listed, h.step hcalm nofun hstep⟩

/-- The steps from `s₁` on, as long as `evictAllAndWait` runs for the request `q`. -/
def evictSystem (G : State → Label → Prop) (maxQueue : Nat) (q : RequestId) (s₁ : State) :
    TSys State Label where
  init s := s = s₁
  step s a s' := (s.pending = some q ∧ s.evicting = true) ∧ G s a ∧ step maxQueue s a = some s'

/-- `evictAllAndWait` lists the runners in `s₀`, for the request `q` of the model `keepKey`, and is
about to return true in `s`. The steps are those that `G` lets through. -/
structure EvictAll (G : State → Label → Prop) (maxQueue : Nat) (q : RequestId) (keepKey : Key)
    (s₀ s : State) : Prop where
  pending : s₀.pending = some q
  model : s₀.requests[q]?.map LlmRequest.model = some keepKey
  run : ∃ s₁ oom, G s₀ (.load (.evict oom)) ∧
    step maxQueue s₀ (.load (.evict oom)) = some s₁ ∧ (evictSystem G maxQueue q s₁).Reachable s
  returns : s.requests[q]?.map LlmRequest.phase = some (.waitAll 0)

theorem stepLoad_phase {s s' : State} {q : RequestId} {y : LlmRequest} {o : LoadOutcome}
    (h : stepLoad s q y o = some s') : y.phase.awaited = none := by
  cases o <;> simp only [stepLoad] at h <;> split at h
  all_goals first
    | cases h; done
    | next hphase => rw [hphase]; rfl

/-- What was listed stays so while the events are awaited. -/
theorem evictSystem_evictOk {listed : List RunnerId} {maxQueue : Nat} {q : RequestId} {s₁ : State}
    (h : EvictOk listed s₁) : (evictSystem Calm maxQueue q s₁).Invariant (EvictOk listed) := by
  refine TSys.Inductive.invariant ⟨?_, ?_⟩
  · rintro s rfl
    exact h
  · rintro s a s' hok ⟨⟨hq, hevicting⟩, hcalm, hstep⟩
    refine hok.step hcalm (fun o ho => ?_) hstep
    subst ho
    obtain ⟨q', hq', hstep⟩ := Option.bind_eq_some_iff.mp hstep
    obtain ⟨y, hy, hstep⟩ := Option.bind_eq_some_iff.mp hstep
    rw [State.evicting, hq', Option.bind_some, hy, Option.any_some, stepLoad_phase hstep]
      at hevicting
    cases hevicting

/-- The request waits as soon as the runners are listed, if it waits later. -/
theorem evictSystem_start {G : State → Label → Prop} {maxQueue : Nat} {q : RequestId} {s₁ : State} :
    (evictSystem G maxQueue q s₁).Invariant
      fun s => s = s₁ ∨ s₁.pending = some q ∧ s₁.evicting = true := by
  refine TSys.Inductive.invariant ⟨fun s h => .inl h, ?_⟩
  rintro s a s' (rfl | hstart) ⟨hwaits, -⟩
  · exact .inr hwaits
  · exact .inr hstart

/-- Every runner that was loaded under another key has been unloaded and is not in the map. -/
theorem evictAllAndWait_evicts {maxQueue : Nat} {q : RequestId} {keepKey : Key} {s₀ s : State}
    (hs₀ : ((system maxQueue).restrict Calm).Reachable s₀)
    (h : EvictAll Calm maxQueue q keepKey s₀ s) (k : Key) (r : RunnerId) (hk : k ≠ keepKey)
    (hr : AList.lookup k s₀.loaded = some r) : s.isUnloaded r ∧ ¬s.isLoaded r := by
  obtain ⟨s₁, oom, hcalm, hstep, hrun⟩ := h.run
  obtain ⟨y₀, hy₀, rfl⟩ := Option.map_eq_some_iff.mp h.model
  obtain ⟨y, hy, hphase⟩ := Option.map_eq_some_iff.mp h.returns
  have hawaited : y.phase.awaited = some 0 := by rw [hphase]; rfl
  obtain ⟨listed₀, hok₀⟩ := run_evictOk maxQueue s₀ hs₀
  rw [step, h.pending, Option.bind_some, hy₀, Option.bind_some] at hstep
  obtain ⟨listed, hok₁, hlisted⟩ := hok₀.load h.pending hy₀ hcalm hstep
  have hok := evictSystem_evictOk hok₁ s hrun q y hy
  have hwaits : ∃ y₁ : LlmRequest, s₁.requests[q]? = some y₁ ∧ y₁.phase.awaited.isSome = true := by
    rcases evictSystem_start s hrun with rfl | ⟨hq₁, hevicting⟩
    · exact ⟨y, hy, Option.isSome_of_eq_some hawaited⟩
    · rw [State.evicting, hq₁, Option.bind_some] at hevicting
      exact (Option.any_eq_true _ _).mp hevicting
  obtain ⟨y₁, hy₁, hsome⟩ := hwaits
  have hmem : r ∈ listed := hlisted y₁ hy₁ hsome k r hk hr
  have hzero : 0 = s.loaded.keys.length + s.signals :=
    (hok.count 0 hawaited).resolve_left (List.ne_nil_of_mem hmem)
  have hnone : ¬s.isLoaded r := by
    rintro ⟨k', hk'⟩
    have hpos := List.length_pos_of_mem ((GoMap.mem_keys_iff _ _).mpr ⟨r, hk'⟩)
    omega
  exact ⟨(hok.gone (Option.isSome_of_eq_some hawaited) r hmem).resolve_left hnone, hnone⟩

/-- A request up to the load of another model. -/
def loadNext (model : Key) (q : RequestId) : List Label :=
  [.getRunner model none, .caller q false, .caller q false, .receive q, .schedule false false]

/-- A run of `evictAllAndWait` from a list of its steps. -/
theorem exists_evictAll {G : State → Label → Prop} [∀ s, DecidablePred (G s)] {q : RequestId}
    (keepKey : Key) (as bs : List Label) (P : State → State → Prop) [∀ s, DecidablePred (P s)]
    (h : (as.foldlM (TSys.guarded G (step 1)) initial).any (fun s₀ =>
      decide (s₀.pending = some q ∧ s₀.requests[q]?.map LlmRequest.model = some keepKey) &&
        (TSys.guarded G (step 1) s₀ (.load (.evict true))).any fun s₁ =>
          (bs.foldlM (TSys.guarded (fun s a => (s.pending = some q ∧ s.evicting = true) ∧ G s a)
            (step 1)) s₁).any fun s => decide (s.requests[q]?.map LlmRequest.phase = some (.waitAll 0) ∧ P s₀ s)) =
      true) :
    ∃ s₀ s, ((system 1).restrict G).Reachable s₀ ∧ EvictAll G 1 q keepKey s₀ s ∧ P s₀ s := by
  have hguarded : ∀ s a s', TSys.guarded G (step 1) s a = some s' → G s a ∧ step 1 s a = some s' :=
    fun _ _ _ => TSys.guarded_eq_some.mp
  obtain ⟨s₀, hrun₀, h⟩ := (Option.any_eq_true _ _).mp h
  obtain ⟨hstart, h⟩ := Bool.and_eq_true_iff.mp h
  obtain ⟨hq, hmodel⟩ := of_decide_eq_true hstart
  obtain ⟨s₁, hrun₁, h⟩ := (Option.any_eq_true _ _).mp h
  obtain ⟨s, hrun, h⟩ := (Option.any_eq_true _ _).mp h
  obtain ⟨hreturns, hP⟩ := of_decide_eq_true h
  refine ⟨s₀, s, TSys.Reachable.run_partial hguarded (.init rfl) as hrun₀,
    ⟨hq, hmodel, ⟨s₁, true, (hguarded _ _ _ hrun₁).1, (hguarded _ _ _ hrun₁).2, ?_⟩, hreturns⟩, hP⟩
  refine TSys.Reachable.run_partial (fun t a t' ht => ?_) (.init rfl) bs hrun
  obtain ⟨hcond, ht⟩ := TSys.guarded_eq_some.mp ht
  exact ⟨hcond.1, hcond.2, ht⟩

/-- Of two runners that are listed one is idle and the other one in use: it goes when its request
ends. -/
theorem evictAllAndWait_evicts_two : ∃ s₀ s : State,
    (AList.lookup [97] s₀.loaded = some 0 ∧ AList.lookup [98] s₀.loaded = some 1 ∧
      s₀.runners.map RunnerRef.refCount = [0, 1]) ∧
    (s.isUnloaded 0 ∧ ¬s.isLoaded 0) ∧ s.isUnloaded 1 ∧ ¬s.isLoaded 1 := by
  obtain ⟨s₀, s, hs₀, h, hloaded⟩ := exists_evictAll (G := Calm) (q := 2) [99]
    (loadFor [97] 0 100 ++ loadFor [98] 1 101 ++ endOf 0 ++ loadNext [99] 2)
    [.evict 0, .evict 0, .evict 0, .recvExpired, .complete, .complete, .recvUnloaded,
      .cancel 1, .notify 1, .recvFinished 1, .complete, .recvExpired, .complete, .complete,
      .recvUnloaded]
    (fun s₀ _ => AList.lookup [97] s₀.loaded = some 0 ∧ AList.lookup [98] s₀.loaded = some 1 ∧
      s₀.runners.map RunnerRef.refCount = [0, 1]) (by decide)
  exact ⟨s₀, s, hloaded, evictAllAndWait_evicts hs₀ h [97] 0 (by decide) hloaded.1,
    evictAllAndWait_evicts hs₀ h [98] 1 (by decide) hloaded.2.1⟩

/-- The event of a runner that expired before is still in the channel and is taken for that of the
runner that is listed, which is in use. -/
theorem evictAllAndWait_early : ¬∀ (maxQueue : Nat) (q : RequestId) (keepKey : Key) (s₀ s : State),
    (system maxQueue).Reachable s₀ → EvictAll (fun _ _ => True) maxQueue q keepKey s₀ s →
    ∀ k r, k ≠ keepKey → AList.lookup k s₀.loaded = some r → s.isUnloaded r ∧ ¬s.isLoaded r := by
  intro hall
  obtain ⟨s₀, s, hs₀, h, hlookup, hstill⟩ := exists_evictAll (G := fun _ _ => True) (q := 2) [99]
    (loadFor [97] 0 100 ++ endOf 0 ++ [.fire 0, .callback 0, .recvExpired, .complete, .complete] ++
      loadFor [98] 1 101 ++ loadNext [99] 2)
    [.evict 0, .evict 0, .recvUnloaded]
    (fun s₀ s => AList.lookup [98] s₀.loaded = some 1 ∧ AList.lookup [98] s.loaded = some 1)
    (by decide)
  exact (hall 1 2 [99] s₀ s hs₀.of_restrict h [98] 1 (by decide) hlookup).2 ⟨[98], hstill⟩

end Prismalama.Server
