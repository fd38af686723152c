import TwServer.IOManager.Model
import TwServer.Lib.Runs
import TwServer.Timer.Model

/-! One call of `do_io` on a managed blocking socket, from its `retry` label on,
next to everything that can run meanwhile: the callbacks of the timers it armed,
whoever expires timers, and other threads on the same `IOManager`. -/

namespace TwServer
open Programs Runs

namespace DoIo

def EINTR : Nat := 4
def EAGAIN : Nat := 11
def ETIMEDOUT : Nat := 110

/-- The arguments of the call and the fiber that makes it; `io` is the timeout. -/
structure Call where
  here : Caller
  fd : Nat
  event : Event
  io : Nat

/-- Where the fiber stands in `do_io`. `timer` is the local variable. -/
inductive Pc where
  /-- before `fun(fd, ...)` -/
  | call
  /-- `fun` has returned -1 with EAGAIN -/
  | arm
  /-- before `addEvent` -/
  | addEvent (timer : Option TimerId)
  /-- `addEvent` has returned -1 -/
  | failed (timer : Option TimerId) (errno : Nat)
  /-- before `YieldToHold` -/
  | yield (timer : Option TimerId)
  | suspended (timer : Option TimerId)
  /-- before `timer->cancel()` -/
  | resumed (timer : Option TimerId)
  /-- before `if(tinfo->cancelled)` -/
  | test
  | done (n : Int) (errno : Nat)
  deriving DecidableEq, Repr

def Pc.timer : Pc → Option TimerId
  | .addEvent t | .failed t _ | .yield t | .suspended t | .resumed t => t
  | .call | .arm | .test | .done _ _ => none

/-- What `do_io` does with the result of `fun`. -/
def Pc.afterCall (n : Int) (errno : Nat) : Pc :=
  if n = -1 ∧ errno = EINTR then .call else if n = -1 ∧ errno = EAGAIN then .arm else .done n errno

/-- Where a timer callback of the call stands. -/
inductive CallbackPc where
  | armed
  /-- taken by `listExpiredCb`, not run yet -/
  | handed
  /-- `winfo.lock()` has succeeded -/
  | locked
  /-- `t->cancelled` was 0 -/
  | passed
  /-- `t->cancelled = ETIMEDOUT` is done, before `cancelEvent` -/
  | cancelling
  | finished
  deriving DecidableEq, Repr

/-- `armedAt` and `expiredAt` are the clock readings of `addConditionTimer` and of
the `listExpiredCb` that took the callback. -/
structure TimerCallback where
  pc : CallbackPc
  armedAt : Nat
  expiredAt : Option Nat
  deriving DecidableEq, Repr

/-- `cancelled` is `tinfo->cancelled`. `resumed` counts how often the fiber was
taken out of the scheduler's queue. -/
structure State where
  pc : Pc
  cancelled : Nat
  iom : IOManager
  timers : TimerManager
  callbacks : Callback → Option TimerCallback
  resumed : Nat

namespace State

/-- The number of times the fiber was put into a queue. -/
def wakeUps (call : Call) (s : State) : Nat :=
  s.iom.scheduled.countP fun e => e.2 == .fiber call.here.fiber

/-- The fiber is in a queue. -/
def Enqueued (call : Call) (s : State) : Prop := s.resumed < s.wakeUps call

def setCallback (k : Callback) (c : TimerCallback) (s : State) : State :=
  { s with callbacks := Function.update s.callbacks k (some c) }

/-- A callback of the call is at `pc`. -/
def At (s : State) (k : Callback) (pc : CallbackPc) : Prop :=
  ∃ c, s.callbacks k = some c ∧ c.pc = pc

/-- `tinfo` exists: the call, or a callback that has locked it, holds it. -/
def Alive (s : State) : Prop :=
  (∀ n errno, s.pc ≠ .done n errno) ∨ ∃ k, s.At k .locked ∨ s.At k .passed ∨ s.At k .cancelling

/-- The callbacks among `cbs` are handed out. -/
def handOut (now : Nat) (cbs : List (Option Callback)) (s : State) : State :=
  { s with
    callbacks := fun k =>
      (s.callbacks k).map fun c =>
        if some k ∈ cbs then { c with pc := .handed, expiredAt := some now } else c }

/-- A timer that holds a callback of the call. Nobody else has a pointer to it. -/
def Own (s : State) (t : TimerId) : Prop :=
  ∃ k c, (s.timers.heap t).cb = some k ∧ s.callbacks k = some c

end State

/-- `if(timer){ timer->cancel(); }` -/
def cancelTimer (timer : Option TimerId) : Program TimerManager Unit :=
  match timer with
  | none => pure ()
  | some t => do let _ ← TimerManager.cancel t

/-! ## Other threads -/

/-- What they do to the registrations and the queues. -/
inductive IoStep : IOManager → IOManager → Prop
  | addEvent {s s' : IOManager} {rt : Int} (here : Caller) (ctl : Bool) (fd : Nat) (ev : Event)
      (cb : Option Callback) (run : IOManager.addEvent here ctl fd ev cb s = .ok rt s') : IoStep s s'
  | delEvent {s s' : IOManager} {rt : Bool} (ctl : Bool) (fd : Nat) (ev : Event)
      (run : IOManager.delEvent ctl fd ev s = .ok rt s') : IoStep s s'
  | cancelEvent {s s' : IOManager} {rt : Bool} (ctl : Bool) (fd : Nat) (ev : Event)
      (run : IOManager.cancelEvent ctl fd ev s = .ok rt s') : IoStep s s'
  | report {s s' : IOManager} (r : IOManager.Report)
      (run : IOManager.handleReport r s = .ok () s') : IoStep s s'
  | schedule {s : IOManager} (sc : SchedulerId) (t : Task) : IoStep s (s.schedule sc (some t))
  | others {s : IOManager} (fibers : FiberId → Fiber) : IoStep s { s with fibers := fibers }

/-- What they do to timers other than `own`; `kept` is the callbacks of the call. -/
inductive TimerStep (own : TimerId → Prop) (kept : Callback → Prop) :
    TimerManager → TimerManager → Prop
  | add {m m' : TimerManager} {front : Bool} (t : TimerId) (now ms : Nat) (cb : Callback)
      (recurring : Bool) (fresh : t ∉ m.timers) (other : ¬ own t) (otherCb : ¬ kept cb)
      (run : TimerManager.addNewTimer t now ms cb recurring m = .ok front m') :
      TimerStep own kept m m'
  | cancel {m m' : TimerManager} {rt : Bool} (t : TimerId) (other : ¬ own t)
      (run : TimerManager.cancel t m = .ok rt m') : TimerStep own kept m m'
  | refresh {m m' : TimerManager} {rt : Bool} (t : TimerId) (now : Nat) (other : ¬ own t)
      (run : TimerManager.refresh t now m = .ok rt m') : TimerStep own kept m m'
  | reset {m m' : TimerManager} {rt : Bool × Bool} (t : TimerId) (now ms : Nat) (fromNow : Bool)
      (other : ¬ own t) (run : TimerManager.reset t now ms fromNow m = .ok rt m') :
      TimerStep own kept m m'
  | getNextTime {m m' : TimerManager} {n : Nat} (now : Nat)
      (run : TimerManager.getNextTime now m = .ok n m') : TimerStep own kept m m'

/-! ## The system -/

inductive Label where
  /-- `fun` returns `n` and sets `errno` -/
  | call (n : Int) (errno : Nat)
  | arm (now : Nat)
  /-- `ctl`: whether `epoll_ctl` succeeds; it sets `errno` if not -/
  | addEvent (ctl : Bool) (errno : Nat)
  /-- the rest of the call -/
  | own
  | expire (now : Nat)
  /-- the callback up to its test of `t->cancelled` -/
  | callback (k : Callback)
  | set (k : Callback)
  | cancelEvent (k : Callback) (ctl : Bool)
  | other

inductive Step (call : Call) : State → Label → State → Prop
  | call {s : State} (n : Int) (errno : Nat) (pc : s.pc = .call) :
      Step call s (.call n errno) { s with pc := .afterCall n errno }
  | arm {s : State} {t : TimerId} {k : Callback} {front : Bool} {m : TimerManager} (now : Nat)
      (pc : s.pc = .arm) (finite : call.io ≠ noTimeout) (fresh : t ∉ s.timers.timers)
      (freshCb : s.callbacks k = none) (unused : ∀ u, (s.timers.heap u).cb ≠ some k)
      (run : TimerManager.addNewTimer t now call.io k false s.timers = .ok front m) :
      Step call s (.arm now)
        { s.setCallback k ⟨.armed, now, none⟩ with timers := m, pc := .addEvent (some t) }
  | armNone {s : State} (now : Nat) (pc : s.pc = .arm) (infinite : call.io = noTimeout) :
      Step call s (.arm now) { s with pc := .addEvent none }
  | addEvent {s : State} {timer : Option TimerId} {iom : IOManager} (errno : Nat)
      (pc : s.pc = .addEvent timer)
      (run : IOManager.addEvent call.here true call.fd call.event none s.iom = .ok 0 iom) :
      Step call s (.addEvent true errno) { s with iom := iom, pc := .yield timer }
  | addEventFails {s : State} {timer : Option TimerId} {iom : IOManager} (errno : Nat)
      (pc : s.pc = .addEvent timer)
      (run : IOManager.addEvent call.here false call.fd call.event none s.iom = .ok (-1) iom) :
      Step call s (.addEvent false errno) { s with iom := iom, pc := .failed timer errno }
  | giveUp {s : State} {timer : Option TimerId} {errno : Nat} {m : TimerManager}
      (pc : s.pc = .failed timer errno) (run : cancelTimer timer s.timers = .ok () m) :
      Step call s .own { s with timers := m, pc := .done (-1) errno }
  | yield {s : State} {timer : Option TimerId} (pc : s.pc = .yield timer) :
      Step call s .own { s with pc := .suspended timer }
  | resume {s : State} {timer : Option TimerId} (pc : s.pc = .suspended timer)
      (enqueued : s.Enqueued call) :
      Step call s .own { s with pc := .resumed timer, resumed := s.resumed + 1 }
  | cancelTimer {s : State} {timer : Option TimerId} {m : TimerManager}
      (pc : s.pc = .resumed timer) (run : cancelTimer timer s.timers = .ok () m) :
      Step call s .own { s with timers := m, pc := .test }
  | test {s : State} (pc : s.pc = .test) :
      Step call s .own
        { s with pc := if s.cancelled ≠ 0 then .done (-1) s.cancelled else .call }
  | expire {s : State} {cbs : List (Option Callback)} {m : TimerManager} (now : Nat)
      (probe : TimerId) (run : TimerManager.listExpiredCb now probe s.timers = .ok cbs m) :
      Step call s (.expire now) { s.handOut now cbs with timers := m }
  | lock {s : State} {k : Callback} {c : TimerCallback} (at' : s.callbacks k = some c)
      (pc : c.pc = .handed) (alive : s.Alive) :
      Step call s (.callback k) (s.setCallback k { c with pc := .locked })
  | expired {s : State} {k : Callback} {c : TimerCallback} (at' : s.callbacks k = some c)
      (pc : c.pc = .handed) (gone : ¬ s.Alive) :
      Step call s (.callback k) (s.setCallback k { c with pc := .finished })
  | check {s : State} {k : Callback} {c : TimerCallback} (at' : s.callbacks k = some c)
      (pc : c.pc = .locked) :
      Step call s (.callback k)
        (s.setCallback k { c with pc := if s.cancelled ≠ 0 then .finished else .passed })
  | set {s : State} {k : Callback} {c : TimerCallback} (at' : s.callbacks k = some c)
      (pc : c.pc = .passed) :
      Step call s (.set k)
        { s.setCallback k { c with pc := .cancelling } with cancelled := ETIMEDOUT }
  | cancelEvent {s : State} {k : Callback} {c : TimerCallback} {rt : Bool} {iom : IOManager}
      (ctl : Bool) (at' : s.callbacks k = some c) (pc : c.pc = .cancelling)
      (run : IOManager.cancelEvent ctl call.fd call.event s.iom = .ok rt iom) :
      Step call s (.cancelEvent k ctl) { s.setCallback k { c with pc := .finished } with iom := iom }
  | io {s : State} {iom : IOManager} (step : IoStep s.iom iom) :
      Step call s .other { s with iom := iom }
  | timer {s : State} {m : TimerManager}
      (step : TimerStep (fun t => s.Own t ∨ s.pc.timer = some t)
        (fun k => ∃ c, s.callbacks k = some c) s.timers m) :
      Step call s .other { s with timers := m }

def init (s : State) : Prop :=
  s.pc = .call ∧ s.cancelled = 0 ∧ (∃ fibers, s.iom = IOManager.new fibers) ∧
    (∀ t, (s.timers.heap t).cb = none) ∧ s.timers.timers = [] ∧ (∀ k, s.callbacks k = none) ∧
    s.resumed = 0

def machine (call : Call) : System State Label := ⟨init, Step call⟩

end DoIo
end TwServer
