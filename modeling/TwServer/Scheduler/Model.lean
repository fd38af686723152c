import TwServer.Lib.Counting
import TwServer.Lib.Runs
import TwServer.Scheduler.Fiber

/-! `tw::Scheduler`: the workers inside `run()`, cut where one of them touches
what the others see. A step is one critical section of the queue lock, one
access to a counter, or one access to the state of a fiber. -/

namespace TwServer
open Counting Runs

/-- An element of `m_tasks`, numbered in the order of `push_back`. -/
structure Entry where
  id : Nat
  task : Task
  deriving DecidableEq, Repr

namespace Scheduler

/-- What the threads of one scheduler share. `pushed` counts the entries made so
far; `taken` lists the ones dequeued and `started` the ones whose fiber was
switched to, for the statements only. `busy` is what an overriding `stopping()`
asks besides: an `IOManager` goes on while a timer or a registration is left. -/
structure Shared where
  tasks : List Entry
  pushed : Nat
  taken : List Nat
  started : List Nat
  fibers : FiberId → FiberState
  nextFiber : FiberId
  activeThreadCount : Nat
  idleThreadCount : Nat
  autostop : Bool
  stopping : Bool
  busy : Bool

/-- Where a worker stands in `run()`. -/
inductive Pc where
  /-- not in `run()` yet -/
  | start
  /-- before the scan of `m_tasks` -/
  | scan
  /-- `ff` holds a task from the queue -/
  | picked (e : Entry)
  /-- `ff` is empty and `is_active` false -/
  | nothing
  /-- about to switch to the fiber of `e`, `event` when it was made for a callback -/
  | swapIn (e : Entry) (f : FiberId) (event : Bool)
  /-- inside the fiber -/
  | inside (f : FiberId) (event : Bool)
  /-- the fiber has switched back -/
  | back (f : FiberId) (event : Bool)
  /-- `--a_activeThreadCount` is done, the fiber's state not looked at -/
  | lowered (f : FiberId) (event : Bool)
  /-- before `schedule(ff.fiber)` -/
  | requeue (f : FiberId)
  /-- before `m_state = HOLD` -/
  | hold (f : FiberId)
  /-- inside the idle fiber -/
  | idle
  /-- the idle fiber has switched back -/
  | idleBack
  /-- `run()` has returned -/
  | left
  deriving DecidableEq, Repr

structure Worker where
  pc : Pc
  /-- the state of the worker's idle fiber is TERM -/
  idleTerm : Bool
  deriving DecidableEq, Repr

namespace Shared

/-- `it->fiber && it->fiber->getState() == Fiber::EXEC`. -/
def skips (s : Shared) (e : Entry) : Bool :=
  match e.task with
  | .fiber f => s.fibers f = .exec
  | .cb _ => false

/-- The scan: the first entry that is not skipped, and the queue without it. -/
def scan (s : Shared) : List Entry → Option (Entry × List Entry)
  | [] => none
  | e :: rest => if s.skips e then (s.scan rest).map fun p => (p.1, e :: p.2) else some (e, rest)

/-- `m_tasks.push_back`. -/
def push (s : Shared) (t : Task) : Shared :=
  { s with tasks := s.tasks ++ [⟨s.pushed, t⟩], pushed := s.pushed + 1 }

/-- The dequeue: erase the entry and raise the counter, under one lock. -/
def take (s : Shared) (e : Entry) (rest : List Entry) : Shared :=
  { s with
    tasks := rest
    taken := s.taken ++ [e.id]
    activeThreadCount := s.activeThreadCount + 1 }

def lower (s : Shared) : Shared := { s with activeThreadCount := decrement s.activeThreadCount }

def setState (s : Shared) (f : FiberId) (st : FiberState) : Shared :=
  { s with fibers := Function.update s.fibers f st }

/-- `m_state = EXEC` and the switch. -/
def start (s : Shared) (e : Entry) (f : FiberId) : Shared :=
  { s.setState f .exec with started := s.started ++ [e.id] }

/-- `new Fiber(ff.cb)`. -/
def newFiber (s : Shared) : Shared :=
  { s.setState s.nextFiber .init with nextFiber := s.nextFiber + 1 }

/-- `stopping()`. -/
def isStopping (s : Shared) : Bool :=
  !s.busy && (s.autostop && s.stopping && s.tasks.isEmpty && s.activeThreadCount = 0)

end Shared

/-! ## The code of `run()` and of `idle()` -/

/-- One step of a worker in its own code. -/
inductive RunStep : Shared → Worker → Shared → Worker → Prop
  | pick {s : Shared} {wk : Worker} {e : Entry} {rest : List Entry} (pc : wk.pc = .scan)
      (found : s.scan s.tasks = some (e, rest)) :
      RunStep s wk (s.take e rest) { wk with pc := .picked e }
  | pickNone {s : Shared} {wk : Worker} (pc : wk.pc = .scan) (none : s.scan s.tasks = none) :
      RunStep s wk s { wk with pc := .nothing }
  | accept {s : Shared} {wk : Worker} {e : Entry} {f : FiberId} (pc : wk.pc = .picked e)
      (task : e.task = .fiber f) (open' : (s.fibers f).isDone = false) :
      RunStep s wk s { wk with pc := .swapIn e f false }
  | discard {s : Shared} {wk : Worker} {e : Entry} {f : FiberId} (pc : wk.pc = .picked e)
      (task : e.task = .fiber f) (done : (s.fibers f).isDone = true) :
      RunStep s wk s.lower { wk with pc := .scan }
  | acceptCb {s : Shared} {wk : Worker} {e : Entry} {c : Callback} (pc : wk.pc = .picked e)
      (task : e.task = .cb c) : RunStep s wk s.newFiber { wk with pc := .swapIn e s.nextFiber true }
  | swapIn {s : Shared} {wk : Worker} {e : Entry} {f : FiberId} {event : Bool}
      (pc : wk.pc = .swapIn e f event) :
      RunStep s wk (s.start e f) { wk with pc := .inside f event }
  | lower {s : Shared} {wk : Worker} {f : FiberId} {event : Bool} (pc : wk.pc = .back f event) :
      RunStep s wk s.lower { wk with pc := .lowered f event }
  | ready {s : Shared} {wk : Worker} {f : FiberId} (pc : wk.pc = .lowered f false)
      (state : s.fibers f = .ready) : RunStep s wk s { wk with pc := .requeue f }
  | ended {s : Shared} {wk : Worker} {f : FiberId} {event : Bool} (pc : wk.pc = .lowered f event)
      (done : (s.fibers f).isDone = true) : RunStep s wk s { wk with pc := .scan }
  -- a callback's fiber that returns READY is put on hold like any other
  | suspended {s : Shared} {wk : Worker} {f : FiberId} {event : Bool}
      (pc : wk.pc = .lowered f event) (open' : (s.fibers f).isDone = false)
      (other : event = false → s.fibers f ≠ .ready) : RunStep s wk s { wk with pc := .hold f }
  | requeue {s : Shared} {wk : Worker} {f : FiberId} (pc : wk.pc = .requeue f) :
      RunStep s wk (s.push (.fiber f)) { wk with pc := .scan }
  | hold {s : Shared} {wk : Worker} {f : FiberId} (pc : wk.pc = .hold f) :
      RunStep s wk (s.setState f .hold) { wk with pc := .scan }
  | toIdle {s : Shared} {wk : Worker} (pc : wk.pc = .nothing) (alive : wk.idleTerm = false) :
      RunStep s wk { s with idleThreadCount := s.idleThreadCount + 1 } { wk with pc := .idle }
  | leave {s : Shared} {wk : Worker} (pc : wk.pc = .nothing) (term : wk.idleTerm = true) :
      RunStep s wk s { wk with pc := .left }
  | idleYields {s : Shared} {wk : Worker} (pc : wk.pc = .idle) (stop : s.isStopping = false) :
      RunStep s wk s { wk with pc := .idleBack }
  | idleEnds {s : Shared} {wk : Worker} (pc : wk.pc = .idle) (stop : s.isStopping = true) :
      RunStep s wk s { pc := .idleBack, idleTerm := true }
  | idleBack {s : Shared} {wk : Worker} (pc : wk.pc = .idleBack) :
      RunStep s wk { s with idleThreadCount := decrement s.idleThreadCount } { wk with pc := .scan }

/-! ## What a running task does to the scheduler -/

inductive TaskStep : Shared → Worker → Shared → Worker → Prop
  | schedule {s : Shared} {wk : Worker} {f : FiberId} {event : Bool} (t : Task)
      (pc : wk.pc = .inside f event) : TaskStep s wk (s.push t) wk
  | setState {s : Shared} {wk : Worker} {f : FiberId} {event : Bool} (st : FiberState)
      (pc : wk.pc = .inside f event) : TaskStep s wk (s.setState f st) wk
  | swapOut {s : Shared} {wk : Worker} {f : FiberId} {event : Bool}
      (pc : wk.pc = .inside f event) : TaskStep s wk s { wk with pc := .back f event }

/-- `stop()` on one thread, and whatever makes an overriding `stopping()` change its mind. -/
inductive StopStep : Shared → Shared → Prop
  | autostop {s : Shared} : StopStep s { s with autostop := true }
  | stopping {s : Shared} (auto : s.autostop = true) : StopStep s { s with stopping := true }
  | busy {s : Shared} (b : Bool) : StopStep s { s with busy := b }

/-! ## All the workers -/

structure State (W : Type) where
  shared : Shared
  workers : W → Worker

variable {W : Type} [DecidableEq W]

def State.set (s : State W) (w : W) (sh : Shared) (wk : Worker) : State W :=
  ⟨sh, Function.update s.workers w wk⟩

theorem State.set_self (s : State W) (w : W) (sh : Shared) (wk : Worker) :
    (s.set w sh wk).workers w = wk := Function.update_self _ _ _

theorem State.set_of_ne {s : State W} {v w : W} {sh : Shared} {wk : Worker} (h : v ≠ w) :
    (s.set w sh wk).workers v = s.workers v := Function.update_of_ne h _ _

theorem State.set_cases {s : State W} {v w : W} {sh : Shared} {wk : Worker} {Q : Worker → Prop}
    (h : Q ((s.set w sh wk).workers v)) : v = w ∧ Q wk ∨ v ≠ w ∧ Q (s.workers v) := by
  by_cases hv : v = w
  · subst hv
    rw [State.set_self] at h
    exact Or.inl ⟨rfl, h⟩
  · rw [State.set_of_ne hv] at h
    exact Or.inr ⟨hv, h⟩

inductive Label (W : Type) where
  | run (w : W)
  | task (w : W)
  | enter (w : W)
  /-- `schedule()` on a thread that is no worker -/
  | schedule
  | stop

/-- Steps of `W` workers. `caller` is the worker of the thread that calls
`stop()`, with `use_caller`: it enters `run()` from there, and only if
`stopping()` does not hold yet. -/
inductive Step (caller : Option W) : State W → Label W → State W → Prop
  | run {s : State W} {w : W} {sh : Shared} {wk : Worker}
      (step : RunStep s.shared (s.workers w) sh wk) : Step caller s (.run w) (s.set w sh wk)
  | task {s : State W} {w : W} {sh : Shared} {wk : Worker}
      (step : TaskStep s.shared (s.workers w) sh wk) : Step caller s (.task w) (s.set w sh wk)
  | enter {s : State W} {w : W} (pc : (s.workers w).pc = .start) (other : caller ≠ some w) :
      Step caller s (.enter w) (s.set w s.shared { s.workers w with pc := .scan })
  | enterCaller {s : State W} {w : W} (pc : (s.workers w).pc = .start) (own : caller = some w)
      (stopped : s.shared.stopping = true) (stop : s.shared.isStopping = false) :
      Step caller s (.enter w) (s.set w s.shared { s.workers w with pc := .scan })
  | skipCaller {s : State W} {w : W} (pc : (s.workers w).pc = .start) (own : caller = some w)
      (stop : s.shared.isStopping = true) :
      Step caller s (.enter w) (s.set w s.shared { s.workers w with pc := .left })
  | schedule {s : State W} (t : Task) :
      Step caller s .schedule { s with shared := s.shared.push t }
  | stop {s : State W} {sh : Shared} (step : StopStep s.shared sh) :
      Step caller s .stop { s with shared := sh }

/-- Before any thread runs. No fiber is inside a worker yet. -/
def init (s : State W) : Prop :=
  s.shared.tasks = [] ∧ s.shared.pushed = 0 ∧ s.shared.taken = [] ∧ s.shared.started = [] ∧
    (∀ f, s.shared.fibers f ≠ .exec) ∧ s.shared.activeThreadCount = 0 ∧
    s.shared.idleThreadCount = 0 ∧ s.shared.autostop = false ∧ s.shared.stopping = false ∧
    ∀ w, s.workers w = ⟨.start, false⟩

def machine (caller : Option W) : System (State W) (Label W) := ⟨init, Step caller⟩

end Scheduler
end TwServer
