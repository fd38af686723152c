import TwServer.Scheduler.Shutdown
import TwServer.Timer.Model

/-! The wake-up of idle workers: `IOManager::tickle`, the workers inside
`IOManager::idle`, and the `schedule`, `addTimer` and `reset` calls that may have
to wake one. The tickle pipe is in epoll with EPOLLIN | EPOLLET. -/

namespace TwServer
open Counting Programs Runs Scheduler

namespace Tickle

/-- `(int)n`. -/
def toInt (n : Nat) : Int := Int.bmod n (2 ^ 32)

/-- The last argument of `epoll_wait`. -/
def epollTimeout (nexttime : Nat) : Int :=
  toInt (if nexttime ≠ noTimeout then if toInt nexttime > 3000 then 3000 else nexttime else 3000)

/-- Where a worker stands in the loop of `idle()`. `mark` is the number of bytes
written when it computed its timeout. -/
inductive Idle where
  /-- before `stopping(nexttime)` -/
  | entered
  /-- inside it, after `getNextTime()` -/
  | computed (nexttime mark : Nat)
  /-- in `epoll_wait` -/
  | blocked (timeout : Int) (mark : Nat)
  /-- `epoll_wait` has reported the pipe, which the worker reads until it is empty -/
  | draining
  /-- `epoll_wait` has returned, and the pipe is done with -/
  | handling
  deriving DecidableEq, Repr

def Idle.mark : Idle → Option Nat
  | .computed _ m | .blocked _ m => some m
  | .entered | .draining | .handling => none

/-- Where a `schedule()`, `addTimer()` or `reset()` stands after its critical section. -/
inductive Call where
  | free
  /-- before `if(hasIdleThread())` in `tickle()` -/
  | tickle
  /-- before `write(m_tickleFds[1], "t", 1)` -/
  | write
  deriving DecidableEq, Repr

/-- `pipe` is the number of bytes in the pipe and `written` of those written so far. With `edge`
one was written since an `epoll_wait` reported the pipe last. -/
structure State (W C : Type) where
  sched : Scheduler.State W
  timers : TimerManager
  idles : W → Idle
  calls : C → Call
  pipe : Nat
  edge : Bool
  written : Nat

/-- What the kernel takes before `write` blocks. -/
def pipeCapacity : Nat := 65536

end Tickle

namespace Scheduler.Shared

/-- `hasIdleThread()`. -/
def hasIdleThread (s : Shared) : Bool := s.idleThreadCount > 0

/-- `scheduleNoLock`; the argument may be empty. -/
def scheduleNoLock (f : Option Task) (s : Shared) : Bool × Shared :=
  (s.tasks.isEmpty, match f with | some t => s.push t | none => s)

/-- The loop of `schedule(begin, end)`. -/
def scheduleAll : List (Option Task) → Bool → Shared → Bool × Shared
  | [], need, s => (need, s)
  | f :: fs, need, s =>
    let (empty, s') := s.scheduleNoLock f
    s'.scheduleAll fs (empty || need)

end Scheduler.Shared

namespace Tickle
variable {W C : Type} [DecidableEq W] [DecidableEq C]

/-- The call `c` leaves its critical section; with `need` it goes on to `tickle()`. -/
def State.call (s : State W C) (c : C) (need : Bool) : State W C :=
  { s with calls := Function.update s.calls c (if need then .tickle else .free) }

/-- An `epoll_wait` returns at once and reports the pipe. -/
def State.ready (s : State W C) : Bool := s.edge && 0 < s.pipe

def State.setIdle (s : State W C) (w : W) (i : Idle) : State W C :=
  { s with idles := Function.update s.idles w i }

inductive Label (W C : Type) where
  /-- the worker, in its own code or in the task it runs -/
  | worker (w : W)
  /-- the worker's `epoll_wait` reports the pipe -/
  | report (w : W)
  /-- the worker's `schedule(ff.fiber)`, the call `c` -/
  | requeue (w : W) (c : C)
  | call (c : C)
  | write (c : C)
  | other
  deriving DecidableEq

inductive Step (caller : Option W) : State W C → Label W C → State W C → Prop
  /-- `run()` outside the idle fiber. -/
  | run {s : State W C} {w : W} {sh : Shared} {wk : Worker} (pc : (s.sched.workers w).pc ≠ .idle)
      (step : RunStep s.sched.shared (s.sched.workers w) sh wk)
      (quiet : sh.pushed = s.sched.shared.pushed) :
      Step caller s (.worker w) { s.setIdle w .entered with sched := s.sched.set w sh wk }
  | requeue {s : State W C} {w : W} {f : FiberId} {c : C} (pc : (s.sched.workers w).pc = .requeue f)
      (free : s.calls c = .free) {need : Bool} {sh : Shared}
      (push : s.sched.shared.scheduleNoLock (some (.fiber f)) = (need, sh)) :
      Step caller s (.requeue w c)
        { s.call c need with sched := s.sched.set w sh { s.sched.workers w with pc := .scan } }
  | task {s : State W C} {w : W} {sh : Shared} {wk : Worker}
      (step : TaskStep s.sched.shared (s.sched.workers w) sh wk)
      (quiet : sh.pushed = s.sched.shared.pushed) :
      Step caller s (.worker w) { s with sched := s.sched.set w sh wk }
  | enter {s : State W C} {w : W} {sched : Scheduler.State W}
      (step : Scheduler.Step caller s.sched (.enter w) sched) :
      Step caller s (.worker w) { s with sched := sched }
  | flag {s : State W C} {sh : Shared} (step : StopStep s.sched.shared sh) :
      Step caller s .other { s with sched := { s.sched with shared := sh } }
  -- the loop of `idle()`
  | getNextTime {s : State W C} {w : W} {n : Nat} {m : TimerManager} (now : Nat)
      (pc : (s.sched.workers w).pc = .idle) (idle : s.idles w = .entered)
      (next : TimerManager.getNextTime now s.timers = .ok n m) :
      Step caller s (.worker w) { s.setIdle w (.computed n s.written) with timers := m }
  | quit {s : State W C} {w : W} {mark : Nat} (pc : (s.sched.workers w).pc = .idle)
      (idle : s.idles w = .computed noTimeout mark) (stop : s.sched.shared.isStopping = true) :
      Step caller s (.worker w)
        { s with sched := s.sched.set w s.sched.shared { pc := .idleBack, idleTerm := true } }
  | block {s : State W C} {w : W} {n mark : Nat} (pc : (s.sched.workers w).pc = .idle)
      (idle : s.idles w = .computed n mark)
      (stop : (n = noTimeout && s.sched.shared.isStopping) = false) :
      Step caller s (.worker w) (s.setIdle w (.blocked (epollTimeout n) mark))
  /-- The timeout is over, or another descriptor is reported. -/
  | wake {s : State W C} {w : W} {timeout : Int} {mark : Nat} (pc : (s.sched.workers w).pc = .idle)
      (idle : s.idles w = .blocked timeout mark) :
      Step caller s (.worker w) (s.setIdle w .handling)
  | report {s : State W C} {w : W} {timeout : Int} {mark : Nat}
      (pc : (s.sched.workers w).pc = .idle) (idle : s.idles w = .blocked timeout mark)
      (ready : s.ready = true) :
      Step caller s (.report w) { s.setIdle w .draining with edge := false }
  | read {s : State W C} {w : W} (pc : (s.sched.workers w).pc = .idle)
      (idle : s.idles w = .draining) (byte : 0 < s.pipe) :
      Step caller s (.worker w) { s with pipe := s.pipe - 1 }
  | drained {s : State W C} {w : W} (pc : (s.sched.workers w).pc = .idle)
      (idle : s.idles w = .draining) (empty : s.pipe = 0) :
      Step caller s (.worker w) (s.setIdle w .handling)
  | yields {s : State W C} {w : W} (pc : (s.sched.workers w).pc = .idle)
      (idle : s.idles w = .handling) :
      Step caller s (.worker w)
        { s with
          sched := s.sched.set w s.sched.shared { s.sched.workers w with pc := .idleBack } }
  -- calls that may wake a worker, on any thread
  | schedule {s : State W C} {c : C} {need : Bool} {sh : Shared} (fs : List (Option Task))
      (free : s.calls c = .free) (push : s.sched.shared.scheduleAll fs false = (need, sh)) :
      Step caller s (.call c) { s.call c need with sched := { s.sched with shared := sh } }
  | addTimer {s : State W C} {c : C} {front : Bool} {m : TimerManager} (t : TimerId) (now ms : Nat)
      (cb : Callback) (recurring : Bool) (free : s.calls c = .free) (fresh : t ∉ s.timers.timers)
      (add : TimerManager.addNewTimer t now ms cb recurring s.timers = .ok front m) :
      Step caller s (.call c) { s.call c front with timers := m }
  | reset {s : State W C} {c : C} {r front : Bool} {m : TimerManager} (t : TimerId) (now ms : Nat)
      (fromNow : Bool) (free : s.calls c = .free)
      (add : TimerManager.reset t now ms fromNow s.timers = .ok (r, front) m) :
      Step caller s (.call c) { s.call c front with timers := m }
  | tickle {s : State W C} {c : C} (call : s.calls c = .tickle) :
      Step caller s (.call c)
        { s with
          calls := Function.update s.calls c
            (if s.sched.shared.hasIdleThread then .free else .write) }
  | write {s : State W C} {c : C} (call : s.calls c = .write) (room : s.pipe < pipeCapacity) :
      Step caller s (.write c)
        { s with
          calls := Function.update s.calls c .free
          pipe := s.pipe + 1
          edge := true
          written := s.written + 1 }
  -- what changes the timers without `addTimer`
  | cancel {s : State W C} {r : Bool} {m : TimerManager} (t : TimerId)
      (ok : TimerManager.cancel t s.timers = .ok r m) : Step caller s .other { s with timers := m }
  | refresh {s : State W C} {r : Bool} {m : TimerManager} (t : TimerId) (now : Nat)
      (ok : TimerManager.refresh t now s.timers = .ok r m) :
      Step caller s .other { s with timers := m }
  | listExpiredCb {s : State W C} {cbs : List (Option Callback)} {m : TimerManager} (now : Nat)
      (probe : TimerId) (ok : TimerManager.listExpiredCb now probe s.timers = .ok cbs m) :
      Step caller s .other { s with timers := m }
  /-- `stopping()`, called by `stop()`. -/
  | stopping {s : State W C} {n : Nat} {m : TimerManager} (now : Nat)
      (next : TimerManager.getNextTime now s.timers = .ok n m) :
      Step caller s .other { s with timers := m }

def init (s : State W C) : Prop :=
  Scheduler.init s.sched ∧ s.timers.timers = [] ∧ s.timers.flag = false ∧
    (∀ w, s.idles w = .entered) ∧ (∀ c, s.calls c = .free) ∧ s.pipe = 0 ∧ s.edge = false ∧
    s.written = 0

def machine (caller : Option W) : System (State W C) (Label W C) := ⟨init, Step caller⟩

end Tickle
end TwServer
