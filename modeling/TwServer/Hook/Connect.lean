import TwServer.Hook.Timeout

/-! One call of `connect_with_timeout` on a managed blocking socket, from
`connect_f` on, next to its timer callback, other threads on the same `IOManager`
and the kernel's connection attempt. Woken for any other reason than the timeout,
the call asks for SO_ERROR, which is 0 while the attempt is still in progress. -/

namespace TwServer
open Programs Runs

namespace Connect
open DoIo

def EINPROGRESS : Nat := 115

/-- The kernel's connection attempt. -/
inductive Attempt where
  | notStarted
  | inProgress
  | connected
  | failed (errno : Nat)
  deriving DecidableEq, Repr

namespace Attempt

/-- What `connect_f` has started when it returns `n` and sets `errno`. -/
def start (n : Int) (errno : Nat) : Attempt :=
  if n = 0 then .connected else if errno = EINPROGRESS then .inProgress else .failed errno

def finished : Attempt → Bool
  | .notStarted | .inProgress => false
  | .connected | .failed _ => true

/-- SO_ERROR. -/
def soError : Attempt → Nat
  | .failed errno => errno
  | .notStarted | .inProgress | .connected => 0

end Attempt

structure Call where
  here : Caller
  sockfd : Nat
  timeoutMs : Nat

/-- Where the fiber stands. `timer` is the local variable. -/
inductive Pc where
  /-- before `connect_f` -/
  | call
  | arm
  /-- before `addEvent` -/
  | addEvent (timer : Option TimerId)
  /-- `addEvent` has failed, before `timer->cancel()` -/
  | failed (timer : Option TimerId)
  /-- a null `timer` was dereferenced -/
  | nullTimer
  /-- before `YieldToHold` -/
  | yield (timer : Option TimerId)
  | suspended (timer : Option TimerId)
  | resumed (timer : Option TimerId)
  /-- before `if(tinfo->cancelled)` -/
  | test
  /-- before `getsockopt`; `added` is false where `addEvent` has failed -/
  | sockopt (added : Bool)
  | done (n : Int) (errno : Nat)
  deriving DecidableEq, Repr

def Pc.timer : Pc → Option TimerId
  | .addEvent t | .failed t | .yield t | .suspended t | .resumed t => t
  | .call | .arm | .nullTimer | .test | .sockopt _ | .done _ _ => none

def Pc.afterConnect (n : Int) (errno : Nat) : Pc :=
  if n = 0 then .done 0 errno
  else if n ≠ -1 ∨ errno ≠ EINPROGRESS then .done n errno
  else .arm

/-- `cancelled` is `tinfo->cancelled`. `resumed` counts how often the fiber was
taken out of the scheduler's queue, and `foreign` says that another thread put it
there before the attempt was over. -/
structure State where
  pc : Pc
  cancelled : Nat
  attempt : Attempt
  iom : IOManager
  timers : TimerManager
  callbacks : Callback → Option CallbackPc
  resumed : Nat
  foreign : Bool

/-- The number of times the fiber was put into a queue. -/
def wakeUps (call : Call) (iom : IOManager) : Nat :=
  iom.scheduled.countP fun e => e.2 == .fiber call.here.fiber

namespace State

def setCallback (k : Callback) (pc : CallbackPc) (s : State) : State :=
  { s with callbacks := Function.update s.callbacks k (some pc) }

/-- `tinfo` exists: the call, or a callback that has locked it, holds it. -/
def Alive (s : State) : Prop :=
  (∀ n errno, s.pc ≠ .done n errno) ∨
    ∃ k, s.callbacks k = some .locked ∨ s.callbacks k = some .passed ∨
      s.callbacks k = some .cancelling

def handOut (cbs : List (Option Callback)) (s : State) : State :=
  { s with
    callbacks := fun k => (s.callbacks k).map fun pc => if some k ∈ cbs then .handed else pc }

end State

inductive Label where
  /-- `connect_f` returns `n` and sets `errno` -/
  | call (n : Int) (errno : Nat)
  | arm (now : Nat)
  /-- `ctl`: whether `epoll_ctl` succeeds -/
  | addEvent (ctl : Bool)
  /-- the rest of the call -/
  | own
  /-- `ok`: whether `getsockopt` succeeds -/
  | sockopt (ok : Bool) (errno : Nat)
  | expire (now : Nat)
  | callback (k : Callback)
  | kernel
  | other

inductive Step (call : Call) : State → Label → State → Prop
  | call {s : State} (n : Int) (errno : Nat) (pc : s.pc = .call)
      (contract : n = 0 ∨ n = -1 ∧ errno ≠ 0) :
      Step call s (.call n errno)
        { s with pc := .afterConnect n errno, attempt := .start n errno }
  | arm {s : State} {t : TimerId} {k : Callback} {front : Bool} {m : TimerManager} (now : Nat)
      (pc : s.pc = .arm) (finite : call.timeoutMs ≠ noTimeout) (fresh : t ∉ s.timers.timers)
      (freshCb : s.callbacks k = none) (unused : ∀ u, (s.timers.heap u).cb ≠ some k)
      (run : TimerManager.addNewTimer t now call.timeoutMs k false s.timers = .ok front m) :
      Step call s (.arm now)
        { s.setCallback k .armed with timers := m, pc := .addEvent (some t) }
  | armNone {s : State} (now : Nat) (pc : s.pc = .arm) (infinite : call.timeoutMs = noTimeout) :
      Step call s (.arm now) { s with pc := .addEvent none }
  | addEvent {s : State} {timer : Option TimerId} {iom : IOManager} (pc : s.pc = .addEvent timer)
      (run : IOManager.addEvent call.here true call.sockfd .write none s.iom = .ok 0 iom) :
      Step call s (.addEvent true) { s with iom := iom, pc := .yield timer }
  | addEventFails {s : State} {timer : Option TimerId} {iom : IOManager}
      (pc : s.pc = .addEvent timer)
      (run : IOManager.addEvent call.here false call.sockfd .write none s.iom = .ok (-1) iom) :
      Step call s (.addEvent false) { s with iom := iom, pc := .failed timer }
  | goOn {s : State} {t : TimerId} {m : TimerManager} (pc : s.pc = .failed (some t))
      (run : cancelTimer (some t) s.timers = .ok () m) :
      Step call s .own { s with timers := m, pc := .sockopt false }
  | nullTimer {s : State} (pc : s.pc = .failed none) :
      Step call s .own { s with pc := .nullTimer }
  | yield {s : State} {timer : Option TimerId} (pc : s.pc = .yield timer) :
      Step call s .own { s with pc := .suspended timer }
  | resume {s : State} {timer : Option TimerId} (pc : s.pc = .suspended timer)
      (enqueued : s.resumed < wakeUps call s.iom) :
      Step call s .own { s with pc := .resumed timer, resumed := s.resumed + 1 }
  | cancelTimer {s : State} {timer : Option TimerId} {m : TimerManager}
      (pc : s.pc = .resumed timer) (run : cancelTimer timer s.timers = .ok () m) :
      Step call s .own { s with timers := m, pc := .test }
  | test {s : State} (pc : s.pc = .test) :
      Step call s .own
        { s with pc := if s.cancelled ≠ 0 then .done (-1) s.cancelled else .sockopt true }
  | sockopt {s : State} {added : Bool} (errno : Nat) (pc : s.pc = .sockopt added) :
      Step call s (.sockopt true errno)
        { s with pc :=
            if s.attempt.soError = 0 then .done 0 errno else .done (-1) s.attempt.soError }
  | sockoptFails {s : State} {added : Bool} (errno : Nat) (pc : s.pc = .sockopt added) :
      Step call s (.sockopt false errno) { s with pc := .done (-1) errno }
  | expire {s : State} {cbs : List (Option Callback)} {m : TimerManager} (now : Nat)
      (probe : TimerId) (run : TimerManager.listExpiredCb now probe s.timers = .ok cbs m) :
      Step call s (.expire now) { s.handOut cbs with timers := m }
  | lock {s : State} {k : Callback} (pc : s.callbacks k = some .handed) (alive : s.Alive) :
      Step call s (.callback k) (s.setCallback k .locked)
  | expired {s : State} {k : Callback} (pc : s.callbacks k = some .handed) (gone : ¬ s.Alive) :
      Step call s (.callback k) (s.setCallback k .finished)
  | check {s : State} {k : Callback} (pc : s.callbacks k = some .locked) :
      Step call s (.callback k)
        (s.setCallback k (if s.cancelled ≠ 0 then .finished else .passed))
  | set {s : State} {k : Callback} (pc : s.callbacks k = some .passed) :
      Step call s (.callback k) { s.setCallback k .cancelling with cancelled := ETIMEDOUT }
  | cancelEvent {s : State} {k : Callback} {rt : Bool} {iom : IOManager} (ctl : Bool)
      (pc : s.callbacks k = some .cancelling)
      (run : IOManager.cancelEvent ctl call.sockfd .write s.iom = .ok rt iom) :
      Step call s (.callback k) { s.setCallback k .finished with iom := iom }
  | established {s : State} (attempt : s.attempt = .inProgress) :
      Step call s .kernel { s with attempt := .connected }
  | refused {s : State} (errno : Nat) (attempt : s.attempt = .inProgress) (error : errno ≠ 0) :
      Step call s .kernel { s with attempt := .failed errno }
  | io {s : State} {iom : IOManager} (step : IoStep s.iom iom) :
      Step call s .other
        { s with
          iom := iom
          foreign := s.foreign || !s.attempt.finished && wakeUps call s.iom < wakeUps call iom }
  | timer {s : State} {m : TimerManager}
      (step : TimerStep
        (fun t => (∃ k, (s.timers.heap t).cb = some k ∧ (s.callbacks k).isSome = true) ∨
          s.pc.timer = some t)
        (fun k => (s.callbacks k).isSome = true) s.timers m) :
      Step call s .other { s with timers := m }

def init (s : State) : Prop :=
  s.pc = .call ∧ s.cancelled = 0 ∧ s.attempt = .notStarted ∧
    (∃ fibers, s.iom = IOManager.new fibers) ∧ (∀ t, (s.timers.heap t).cb = none) ∧
    s.timers.timers = [] ∧ (∀ k, s.callbacks k = none) ∧ s.resumed = 0 ∧ s.foreign = false

def machine (call : Call) : System State Label := ⟨init, Step call⟩

/-- The call has dereferenced no null timer; if it has returned, then 0 on an
established connection or -1. -/
def Sound (s : State) : Prop :=
  s.pc ≠ .nullTimer ∧
    ∀ n errno, s.pc = .done n errno → n = 0 ∧ s.attempt = .connected ∨ n = -1

/-- A failed `addEvent` leaves a timer to cancel, and SO_ERROR is asked for when
the attempt is over. -/
def Meets (s : State) : Label → Prop
  | .own => s.pc ≠ .failed none
  | .sockopt ok _ => ok = true → s.attempt ≠ .inProgress
  | _ => True

/-! ## What holds in every run -/

/-- A fiber that was woken has its cause: another thread, the timeout, or the end
of the attempt. -/
structure Inv (call : Call) (s : State) : Prop where
  fresh : s.pc = .call → s.attempt = .notStarted
  started : s.pc ≠ .call → s.attempt ≠ .notStarted
  failed : ∀ errno, s.attempt = .failed errno → errno ≠ 0
  cancelling : ∀ k, s.callbacks k = some .cancelling → s.cancelled ≠ 0
  woken : 0 < wakeUps call s.iom →
    s.foreign = true ∨ s.cancelled ≠ 0 ∨ s.attempt.finished = true
  resumed : (s.pc = .test ∨ ∃ timer, s.pc = .resumed timer) → 0 < wakeUps call s.iom
  sockopt : s.pc = .sockopt true → s.foreign = true ∨ s.attempt.finished = true
  infinite : (s.pc = .addEvent none ∨ s.pc = .failed none) → call.timeoutMs = noTimeout

section
variable {call : Call} {s : State}

/-- The fiber goes on and leaves everything but its timer alone. -/
theorem Inv.goto (h : Inv call s) {pc : Pc} {timers : TimerManager} {resumed : Nat}
    (hstarted : s.pc ≠ .call) (hpc : pc ≠ .call)
    (hresumed : (pc = .test ∨ ∃ timer, pc = .resumed timer) → 0 < wakeUps call s.iom)
    (hsockopt : pc = .sockopt true → s.foreign = true ∨ s.attempt.finished = true)
    (hinfinite : (pc = .addEvent none ∨ pc = .failed none) → call.timeoutMs = noTimeout) :
    Inv call { s with pc := pc, timers := timers, resumed := resumed } :=
  ⟨fun he => absurd he hpc, fun _ => h.started hstarted, h.failed, h.cancelling, h.woken, hresumed,
    hsockopt, hinfinite⟩

/-- Everything but the fiber goes on. -/
theorem Inv.beside (h : Inv call s) {s' : State} (hpc : s'.pc = s.pc)
    (hattempt : s'.attempt = .notStarted ↔ s.attempt = .notStarted)
    (hfailed : ∀ errno, s'.attempt = .failed errno → errno ≠ 0)
    (hcancelling : ∀ k, s'.callbacks k = some .cancelling → s'.cancelled ≠ 0)
    (hiom : s.iom.scheduled <+: s'.iom.scheduled)
    (hwoken : 0 < wakeUps call s'.iom →
      s'.foreign = true ∨ s'.cancelled ≠ 0 ∨ s'.attempt.finished = true)
    (hforeign : s.foreign = true → s'.foreign = true)
    (hover : s.attempt.finished = true → s'.attempt.finished = true) : Inv call s' where
  fresh he := hattempt.mpr (h.fresh (hpc ▸ he))
  started hne := fun hnot => h.started (hpc ▸ hne) (hattempt.mp hnot)
  failed := hfailed
  cancelling := hcancelling
  woken := hwoken
  resumed hp := by
    rw [hpc] at hp
    exact Nat.lt_of_lt_of_le (h.resumed hp) (List.Sublist.countP_le hiom.sublist)
  sockopt hp := by
    rw [hpc] at hp
    exact (h.sockopt hp).imp hforeign hover
  infinite hp := by
    rw [hpc] at hp
    exact h.infinite hp

/-- A callback of the call takes a step; `tinfo->cancelled` never goes back to 0. -/
theorem Inv.callback (h : Inv call s) {callbacks : Callback → Option CallbackPc} {cancelled : Nat}
    {iom : IOManager} (hcancelled : s.cancelled ≠ 0 → cancelled ≠ 0)
    (hcancelling : ∀ k, callbacks k = some .cancelling → cancelled ≠ 0)
    (hiom : s.iom.scheduled <+: iom.scheduled)
    (hwoken : wakeUps call s.iom < wakeUps call iom → cancelled ≠ 0) :
    Inv call { s with callbacks := callbacks, cancelled := cancelled, iom := iom } := by
  refine h.beside rfl Iff.rfl h.failed hcancelling hiom ?_ id id
  intro hpos
  rcases Nat.eq_zero_or_pos (wakeUps call s.iom) with hzero | hold
  · exact Or.inr (Or.inl (hwoken (hzero ▸ hpos)))
  · rcases h.woken hold with hf | hc | ho
    · exact Or.inl hf
    · exact Or.inr (Or.inl (hcancelled hc))
    · exact Or.inr (Or.inr ho)

theorem setCallback_cases {k j : Callback} {pc pc' : CallbackPc}
    (h : (s.setCallback k pc).callbacks j = some pc') :
    j = k ∧ pc = pc' ∨ j ≠ k ∧ s.callbacks j = some pc' := by
  by_cases hj : j = k
  · subst hj
    exact Or.inl ⟨rfl, Option.some.inj ((Function.update_self (f := s.callbacks) ..).symm.trans h)⟩
  · exact Or.inr ⟨hj, (Function.update_of_ne hj _ s.callbacks).symm.trans h⟩

/-- A callback that does not get to `cancelEvent`. -/
theorem Inv.setCallback (h : Inv call s) {k : Callback} {pc : CallbackPc}
    (hpc : pc ≠ .cancelling) : Inv call (s.setCallback k pc) := by
  refine h.callback id ?_ (List.prefix_refl _) fun hlt => absurd hlt (Nat.lt_irrefl _)
  intro j hj
  rcases setCallback_cases hj with ⟨-, he⟩ | ⟨-, hold⟩
  · exact absurd he hpc
  · exact h.cancelling j hold

theorem afterConnect_cases (n : Int) (errno : Nat) :
    (∃ m e, Pc.afterConnect n errno = .done m e) ∨ Pc.afterConnect n errno = .arm := by
  unfold Pc.afterConnect
  split
  · exact Or.inl ⟨_, _, rfl⟩
  · split
    · exact Or.inl ⟨_, _, rfl⟩
    · exact Or.inr rfl

theorem Inv.connect_f (h : Inv call s) {n : Int} {errno : Nat} (pc : s.pc = .call)
    (contract : n = 0 ∨ n = -1 ∧ errno ≠ 0) :
    Inv call { s with pc := .afterConnect n errno, attempt := .start n errno } where
  fresh he := by
    rcases afterConnect_cases n errno with ⟨m, e, hpc⟩ | hpc
    · exact absurd (hpc.symm.trans he) (by simp)
    · exact absurd (hpc.symm.trans he) (by simp)
  started _ := by
    show Attempt.start n errno ≠ .notStarted
    unfold Attempt.start
    split
    · simp
    · split <;> simp
  failed e he := by
    have he : Attempt.start n errno = .failed e := he
    unfold Attempt.start at he
    split at he
    · cases he
    · rename_i hn
      split at he
      · cases he
      · cases he
        exact (contract.resolve_left hn).2
  cancelling := h.cancelling
  woken hpos := by
    have hnot : s.attempt.finished = false := by rw [h.fresh pc]; rfl
    rcases h.woken hpos with hf | hc | ho
    · exact Or.inl hf
    · exact Or.inr (Or.inl hc)
    · exact absurd (hnot.symm.trans ho) Bool.false_ne_true
  resumed hp := by
    rcases afterConnect_cases n errno with ⟨m, e, hpc⟩ | hpc <;> simp [hpc] at hp
  sockopt hp := by
    rcases afterConnect_cases n errno with ⟨m, e, hpc⟩ | hpc <;> simp [hpc] at hp
  infinite hp := by
    rcases afterConnect_cases n errno with ⟨m, e, hpc⟩ | hpc <;> simp [hpc] at hp

theorem wakeUps_eq {iom iom' : IOManager} (h : iom'.scheduled = iom.scheduled) :
    wakeUps call iom' = wakeUps call iom := by
  rw [wakeUps, wakeUps, h]

/-- The call's own `addEvent` wakes nobody. -/
theorem Inv.addEvent (h : Inv call s) {iom : IOManager}
    (hiom : iom.scheduled = s.iom.scheduled) : Inv call { s with iom := iom } := by
  have hprefix : s.iom.scheduled <+: iom.scheduled := by rw [hiom]
  refine h.beside rfl Iff.rfl h.failed h.cancelling hprefix ?_ id id
  intro hpos
  exact h.woken (wakeUps_eq hiom ▸ hpos)

theorem Inv.io (h : Inv call s) {iom : IOManager} (hiom : s.iom.scheduled <+: iom.scheduled) :
    Inv call { s with
      iom := iom
      foreign := s.foreign || !s.attempt.finished && wakeUps call s.iom < wakeUps call iom } := by
  have hforeign : s.foreign = true →
      (s.foreign || !s.attempt.finished && decide (wakeUps call s.iom < wakeUps call iom)) = true := by
    intro hf
    rw [hf]
    rfl
  refine h.beside rfl Iff.rfl h.failed h.cancelling hiom ?_ hforeign id
  intro hpos
  have hpos : 0 < wakeUps call iom := hpos
  rcases Nat.eq_zero_or_pos (wakeUps call s.iom) with hzero | hold
  · rcases Bool.eq_false_or_eq_true s.attempt.finished with hover | hover
    · exact Or.inr (Or.inr hover)
    · left
      show (s.foreign || !s.attempt.finished && decide (wakeUps call s.iom < wakeUps call iom)) = true
      rw [hover, hzero, decide_eq_true hpos]
      exact Bool.or_true _
  · exact (h.woken hold).imp_left hforeign

/-- The kernel ends the attempt. -/
theorem Inv.kernel (h : Inv call s) {attempt : Attempt} (hs : s.attempt = .inProgress)
    (hover : attempt.finished = true) (hfailed : ∀ errno, attempt = .failed errno → errno ≠ 0) :
    Inv call { s with attempt := attempt } := by
  refine h.beside rfl (iff_of_false ?_ ?_) hfailed h.cancelling (List.prefix_refl _) ?_ id
    fun _ => hover
  · rintro rfl
    cases hover
  · rw [hs]
    simp
  · exact fun _ => Or.inr (Or.inr hover)

theorem step_inv (h : Inv call s) {l : Label} {s' : State} (hstep : Step call s l s') :
    Inv call s' := by
  cases hstep with
  | call n errno pc contract => exact h.connect_f pc contract
  | @arm t k front m now pc finite fresh freshCb unused run =>
    have hcb : Inv call (s.setCallback k .armed) := h.setCallback (by simp)
    exact hcb.goto (by rw [State.setCallback, pc]; simp) (by simp) (by simp) (by simp) (by simp)
  | armNone now pc infinite =>
    exact h.goto (by rw [pc]; simp) (by simp) (by simp) (by simp) fun _ => infinite
  | addEvent pc run =>
    have hiom := h.addEvent (IOManager.addEvent_scheduled run)
    exact hiom.goto (by rw [pc]; simp) (by simp) (by simp) (by simp) (by simp)
  | addEventFails pc run =>
    have hiom := h.addEvent (IOManager.addEvent_scheduled run)
    refine hiom.goto (by rw [pc]; simp) (by simp) (by simp) (by simp) ?_
    rintro (he | he)
    · cases he
    · cases he
      exact h.infinite (Or.inl pc)
  | goOn pc run => exact h.goto (by rw [pc]; simp) (by simp) (by simp) (by simp) (by simp)
  | nullTimer pc => exact h.goto (by rw [pc]; simp) (by simp) (by simp) (by simp) (by simp)
  | yield pc => exact h.goto (by rw [pc]; simp) (by simp) (by simp) (by simp) (by simp)
  | resume pc enqueued =>
    exact h.goto (by rw [pc]; simp) (by simp) (fun _ => Nat.lt_of_le_of_lt (Nat.zero_le _) enqueued)
      (by simp) (by simp)
  | cancelTimer pc run =>
    exact h.goto (by rw [pc]; simp) (by simp) (fun _ => h.resumed (Or.inr ⟨_, pc⟩)) (by simp) (by simp)
  | test pc =>
    have hpos := h.resumed (Or.inl pc)
    refine h.goto (by rw [pc]; simp) ?_ ?_ ?_ ?_
    · split <;> simp
    · split <;> simp
    · split
      · simp
      · rename_i hc
        intro _
        exact (h.woken hpos).imp_right fun ho => ho.resolve_left hc
    · split <;> simp
  | sockopt errno pc =>
    refine h.goto (by rw [pc]; simp) ?_ ?_ ?_ ?_ <;> split <;> simp
  | sockoptFails errno pc => exact h.goto (by rw [pc]; simp) (by simp) (by simp) (by simp) (by simp)
  | @expire cbs m now probe run =>
    have hcb : Inv call (s.handOut cbs) := by
      refine h.callback id ?_ (List.prefix_refl _) fun hlt => absurd hlt (Nat.lt_irrefl _)
      intro k hk
      obtain ⟨pc, hpc, he⟩ := Option.map_eq_some_iff.mp hk
      split at he
      · cases he
      · exact h.cancelling k (he ▸ hpc)
    exact hcb.beside rfl Iff.rfl h.failed hcb.cancelling (List.prefix_refl _) h.woken id id
  | lock pc alive => exact h.setCallback (by simp)
  | expired pc gone => exact h.setCallback (by simp)
  | check pc =>
    refine h.setCallback ?_
    split <;> simp
  | set pc =>
    have hne : ETIMEDOUT ≠ 0 := by decide
    exact h.callback (fun _ => hne) (fun _ _ => hne) (List.prefix_refl _) fun _ => hne
  | cancelEvent ctl pc run =>
    have hne := h.cancelling _ pc
    exact h.callback id (fun _ _ => hne) (IOManager.cancelEvent_scheduled run) fun _ => hne
  | established attempt => exact h.kernel attempt rfl (by simp)
  | refused errno attempt error =>
    refine h.kernel attempt rfl ?_
    rintro e he
    cases he
    exact error
  | io step => exact h.io step.scheduled
  | timer step => exact h.beside rfl Iff.rfl h.failed h.cancelling (List.prefix_refl _) h.woken id id

theorem init_inv (hs : init s) : Inv call s := by
  obtain ⟨hpc, hc, hattempt, ⟨fibers, hiom⟩, -, -, hcb, -, -⟩ := hs
  have hzero : wakeUps call s.iom = 0 := by rw [hiom]; rfl
  refine ⟨fun _ => hattempt, fun hne => absurd hpc hne, ?_, ?_, ?_, ?_, ?_, ?_⟩
  · intro e he
    cases hattempt.symm.trans he
  · intro k hk
    cases (hcb k).symm.trans hk
  · intro hpos
    exact absurd hpos (hzero ▸ Nat.lt_irrefl 0)
  · simp [hpc]
  · simp [hpc]
  · simp [hpc]

/-- The steps that leave the result alone. -/
theorem Sound.keep (h : Sound s) {s' : State} (hpc : s'.pc = s.pc)
    (hattempt : s.attempt = .connected → s'.attempt = .connected) : Sound s' := by
  refine ⟨hpc ▸ h.1, fun n errno hd => ?_⟩
  rw [hpc] at hd
  exact (h.2 n errno hd).imp_left fun ⟨hn, hc⟩ => ⟨hn, hattempt hc⟩

/-- The call goes on without a result. -/
theorem Sound.goto {s' : State} (hnull : s'.pc ≠ .nullTimer)
    (hdone : ∀ n errno, s'.pc ≠ .done n errno) : Sound s' :=
  ⟨hnull, fun n errno hd => absurd hd (hdone n errno)⟩

theorem connected_of_soError (h : Inv call s) (hpc : s.pc ≠ .call) :
    s.attempt.soError = 0 → s.attempt = .connected ∨ s.attempt = .inProgress := by
  intro hzero
  cases ha : s.attempt with
  | notStarted => exact absurd ha (h.started hpc)
  | inProgress => exact Or.inr rfl
  | connected => exact Or.inl rfl
  | failed e =>
    rw [ha] at hzero
    exact absurd hzero (h.failed e ha)

/-- A result that the call comes to in this step. -/
theorem Sound.done {s' : State} {n : Int} {errno : Nat} (hpc : s'.pc = .done n errno)
    (hn : n = 0 ∧ s'.attempt = .connected ∨ n = -1) : Sound s' := by
  refine ⟨by rw [hpc]; simp, fun m e he => ?_⟩
  cases hpc.symm.trans he
  exact hn

theorem connect_f_sound {n : Int} {errno : Nat} (contract : n = 0 ∨ n = -1 ∧ errno ≠ 0) :
    Sound { s with pc := .afterConnect n errno, attempt := .start n errno } := by
  rcases contract with rfl | ⟨rfl, -⟩
  · exact Sound.done rfl (Or.inl ⟨rfl, rfl⟩)
  · by_cases he : errno = EINPROGRESS
    · subst he
      exact Sound.goto (by simp [Pc.afterConnect]) (by simp [Pc.afterConnect])
    · have hpc : Pc.afterConnect (-1) errno = .done (-1) errno := by
        simp [Pc.afterConnect, he]
      exact Sound.done hpc (Or.inr rfl)

/-- The result of `getsockopt` is taken for the result of the attempt. -/
theorem sockopt_sound_iff (h : Inv call s) (hpc : s.pc ≠ .call) (errno : Nat) :
    Sound { s with
      pc := if s.attempt.soError = 0 then .done 0 errno else .done (-1) s.attempt.soError } ↔
      s.attempt ≠ .inProgress := by
  by_cases hzero : s.attempt.soError = 0
  · rw [if_pos hzero]
    constructor
    · intro hs hprogress
      rcases hs.2 0 errno rfl with ⟨-, hc⟩ | hn
      · cases hprogress.symm.trans hc
      · cases hn
    · intro hnot
      have hc := (connected_of_soError h hpc hzero).resolve_right hnot
      exact Sound.done rfl (Or.inl ⟨rfl, hc⟩)
  · rw [if_neg hzero]
    refine iff_of_true (Sound.done rfl (Or.inr rfl)) ?_
    intro hprogress
    rw [hprogress] at hzero
    exact hzero rfl

theorem step_sound_iff (h : Inv call s) (hsound : Sound s) {l : Label} {s' : State}
    (hstep : Step call s l s') : Sound s' ↔ Meets s l := by
  cases hstep with
  | call n errno pc contract => exact iff_of_true (connect_f_sound contract) trivial
  | arm now pc finite fresh freshCb unused run =>
    exact iff_of_true (Sound.goto (by simp) (by simp)) trivial
  | armNone now pc infinite => exact iff_of_true (Sound.goto (by simp) (by simp)) trivial
  | addEvent pc run => exact iff_of_true (Sound.goto (by simp) (by simp)) trivial
  | addEventFails pc run => exact iff_of_true (Sound.goto (by simp) (by simp)) trivial
  | goOn pc run => exact iff_of_true (Sound.goto (by simp) (by simp)) (by simp [Meets, pc])
  | nullTimer pc => exact iff_of_false (fun hs => hs.1 rfl) (by simp [Meets, pc])
  | yield pc => exact iff_of_true (Sound.goto (by simp) (by simp)) (by simp [Meets, pc])
  | resume pc enqueued => exact iff_of_true (Sound.goto (by simp) (by simp)) (by simp [Meets, pc])
  | cancelTimer pc run => exact iff_of_true (Sound.goto (by simp) (by simp)) (by simp [Meets, pc])
  | test pc =>
    refine iff_of_true ?_ (by simp [Meets, pc])
    by_cases hc : s.cancelled = 0
    · exact Sound.goto (by simp [hc]) (by simp [hc])
    · exact Sound.done (if_pos hc) (Or.inr rfl)
  | sockopt errno pc =>
    refine (sockopt_sound_iff h (by rw [pc]; simp) errno).trans ?_
    exact ⟨fun hne _ => hne, fun hmeets => hmeets rfl⟩
  | sockoptFails errno pc =>
    exact iff_of_true (Sound.done rfl (Or.inr rfl)) fun hok => nomatch hok
  | expire now probe run => exact iff_of_true (hsound.keep rfl id) trivial
  | lock pc alive => exact iff_of_true (hsound.keep rfl id) trivial
  | expired pc gone => exact iff_of_true (hsound.keep rfl id) trivial
  | check pc => exact iff_of_true (hsound.keep rfl id) trivial
  | set pc => exact iff_of_true (hsound.keep rfl id) trivial
  | cancelEvent ctl pc run => exact iff_of_true (hsound.keep rfl id) trivial
  | established attempt => exact iff_of_true (hsound.keep rfl fun _ => rfl) trivial
  | refused errno attempt error =>
    exact iff_of_true (hsound.keep rfl fun hc => nomatch attempt.symm.trans hc) trivial
  | io step => exact iff_of_true (hsound.keep rfl id) trivial
  | timer step => exact iff_of_true (hsound.keep rfl id) trivial

end

theorem inductive_inv (call : Call) : (machine call).Inductive (Inv call) where
  init _ hs := init_inv hs
  step _ _ _ h hstep := step_inv h hstep

/-- In every run whose steps meet the condition the call returns 0 on established
connections only and follows no null timer; the next step keeps this exactly if it
meets the condition. SO_ERROR is asked for too early only where `addEvent` has
failed or another thread woke the fiber before the attempt was over, and there is
no timer to cancel only where the timeout is infinite. -/
theorem connect_sound_iff (call : Call) {s : State}
    (h : Reachable ((machine call).restrict Meets) s) :
    Sound s ∧ (∀ l s', (machine call).step s l s' → (Sound s' ↔ Meets s l)) ∧
      (s.pc = .sockopt true → s.attempt = .inProgress → s.foreign = true) ∧
      (s.pc = .failed none → call.timeoutMs = noTimeout) := by
  have hinv := (inductive_inv call).reachable h.of_restrict
  have hsound : Sound s := by
    apply Reachable.invariant (I := Inv call) ?_ ?_ ?_ h
    · exact fun s hs => (inductive_inv call).reachable hs.of_restrict
    · intro s hs
      exact Sound.goto (by simp [hs.1]) (by simp [hs.1])
    · exact fun s l s' hs hsound hstep => (step_sound_iff hs hsound hstep.1).mpr hstep.2
  refine ⟨hsound, fun l s' hstep => step_sound_iff hinv hsound hstep, ?_, ?_⟩
  · intro hpc hprogress
    refine (hinv.sockopt hpc).resolve_right ?_
    rw [hprogress]
    exact Bool.false_ne_true
  · exact fun hpc => hinv.infinite (Or.inr hpc)

/-! ## Fiber 7 connects descriptor 5 without a timeout -/

def call : Call := ⟨⟨some 0, 7⟩, 5, noTimeout⟩

def start : State where
  pc := .call
  cancelled := 0
  attempt := .notStarted
  iom := IOManager.new fun _ => ⟨true, .exec, none⟩
  timers := ⟨fun _ => ⟨false, 0, 0, none⟩, [], 0, false⟩
  callbacks := fun _ => none
  resumed := 0
  foreign := false

theorem start_init : init start :=
  ⟨rfl, rfl, rfl, ⟨_, rfl⟩, fun _ => rfl, rfl, fun _ => rfl, rfl, rfl⟩

/-- The fiber waits for the attempt, and only the fiber. -/
theorem suspended_run : ∃ s, Reachable ((machine call).restrict Meets) s ∧
    s.pc = .suspended none ∧ s.attempt = .inProgress ∧ s.cancelled = 0 ∧ s.resumed = 0 ∧
      ∃ iom, IOManager.cancelEvent true 5 .write s.iom = .ok true iom ∧ wakeUps call iom = 1 := by
  have h₀ : Reachable ((machine call).restrict Meets) start := Reachable.init start_init
  have h₁ := h₀.step ⟨Step.call (-1) EINPROGRESS rfl (Or.inr ⟨rfl, by decide⟩), trivial⟩
  have h₂ := h₁.step ⟨Step.armNone 0 rfl rfl, trivial⟩
  have h₃ := h₂.step ⟨Step.addEvent rfl rfl, trivial⟩
  have h₄ := h₃.step ⟨Step.yield rfl, by simp [Meets]⟩
  exact ⟨_, h₄, rfl, rfl, rfl, rfl, _, rfl, rfl⟩

/-- Once woken it asks for SO_ERROR. -/
theorem woken_run {s : State} (h : Reachable ((machine call).restrict Meets) s)
    (hpc : s.pc = .suspended none) (hc : s.cancelled = 0) (hlt : s.resumed < wakeUps call s.iom) :
    Reachable ((machine call).restrict Meets)
      { s with pc := .sockopt true, resumed := s.resumed + 1 } := by
  have h₁ := h.step ⟨Step.resume hpc hlt, by simp [Meets, hpc]⟩
  have h₂ := h₁.step ⟨Step.cancelTimer rfl rfl, by simp [Meets]⟩
  have h₃ := h₂.step ⟨Step.test rfl, by simp [Meets]⟩
  rwa [show (if s.cancelled ≠ 0 then Pc.done (-1) s.cancelled else Pc.sockopt true) =
    .sockopt true from if_neg (not_not_intro hc)] at h₃

/-- The attempt succeeds and the fiber is woken: the call returns 0. -/
theorem connect_sound_iff_connected : ∃ s,
    Reachable ((machine call).restrict Meets) s ∧ s.pc = .done 0 0 ∧ s.attempt = .connected ∧
      Sound s := by
  obtain ⟨s, h, hpc, hattempt, hc, hr, iom, hrun, hwoken⟩ := suspended_run
  have h₁ := h.step ⟨Step.established hattempt, trivial⟩
  have h₂ := h₁.step ⟨Step.io (IoStep.cancelEvent true 5 .write hrun), trivial⟩
  have h₃ := woken_run h₂ hpc hc (by rw [hr, hwoken]; exact Nat.one_pos)
  have h₄ := h₃.step ⟨Step.sockopt 0 rfl, by simp [Meets]⟩
  exact ⟨_, h₄, rfl, rfl, (connect_sound_iff call h₄).1⟩

/-- Another fiber cancels the event while the attempt is in progress, and the call
returns 0. -/
theorem cancelled_connects : ¬ ∀ call s, Reachable (machine call) s → Sound s := by
  intro hall
  obtain ⟨s, h, hpc, hattempt, hc, hr, iom, hrun, hwoken⟩ := suspended_run
  have h₁ := h.step ⟨Step.io (IoStep.cancelEvent true 5 .write hrun), trivial⟩
  have h₂ := woken_run h₁ hpc hc (by rw [hr, hwoken]; exact Nat.one_pos)
  have h₃ := h₂.of_restrict.step (Step.sockopt 0 rfl)
  have hsound := hall call _ h₃
  rw [show s.attempt.soError = 0 by rw [hattempt]; rfl, if_pos rfl] at hsound
  rcases hsound.2 0 0 rfl with ⟨-, hconnected⟩ | hminus
  · cases hattempt.symm.trans hconnected
  · cases hminus

end Connect
end TwServer
