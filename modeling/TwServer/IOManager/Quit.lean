import TwServer.IOManager.Model
import TwServer.IOManager.Tickle
import TwServer.Timer.Lifecycle

/-! How the workers of an `IOManager` come to leave. `stopping(timeout)` reads the timers,
`a_pendingEventCount` and the state of the scheduler one after the other, and the other threads go
on in between. -/

namespace TwServer
open Counting Programs Runs Scheduler

namespace Quit

/-- An event that some `FdContext` holds, with what waits for it. -/
structure Wait where
  fd : Nat
  event : Event
  task : Task
  deriving DecidableEq

/-- Where a worker stands in `stopping(timeout)` and in the loop of `idle()` around it. -/
inductive Stage where
  /-- before `stopping(nexttime)` -/
  | entered
  /-- no timer was there -/
  | timersRead
  /-- `a_pendingEventCount` was 0 besides -/
  | pendingRead
  /-- `stopping` has returned false -/
  | goesOn
  /-- `cbs` is filled -/
  | expired (cbs : List (Option Callback))
  /-- in the loop over the reports -/
  | handling

/-- `lates` counts the calls of `cancelEvent` that have triggered their event and not lowered
`a_pendingEventCount`. -/
structure State (W : Type) where
  sched : Scheduler.State W
  timers : TimerManager
  waits : List Wait
  pending : Nat
  lates : Nat
  stage : W → Stage

section
variable {W : Type} [DecidableEq W]

def State.setStage (s : State W) (w : W) (stage : Stage) : State W :=
  { s with stage := Function.update s.stage w stage }

/-- Who works on the timers and the events: a task that the worker runs, or the loop of `idle()`,
or a thread that is no worker. -/
def State.Works (s : State W) : Option W → Prop
  | some w => (∃ f event, (s.sched.workers w).pc = .inside f event) ∨
      (s.sched.workers w).pc = .idle ∧ s.stage w = .handling
  | none => True

/-- Who calls `stopping()`: the loop of `idle()`, and `stop()` on the caller's thread. -/
def State.Asks (caller : Option W) (s : State W) (w : W) : Prop :=
  (s.sched.workers w).pc = .idle ∨
    (s.sched.workers w).pc = .start ∧ caller = some w ∧ s.sched.shared.stopping = true

inductive Label (W : Type) where
  | run (w : W)
  | idle (w : W)
  | start (w : W)
  /-- `addTimer` or `addEvent` -/
  | add (p : Option W)
  /-- `triggerEvent`, or `schedule()` on a thread that is no worker -/
  | push (p : Option W)
  | other
  deriving DecidableEq

inductive Step (caller : Option W) : State W → Label W → State W → Prop
  | run {s : State W} {w : W} {sh : Shared} {wk : Worker} (pc : (s.sched.workers w).pc ≠ .idle)
      (step : RunStep s.sched.shared (s.sched.workers w) sh wk) :
      Step caller s (.run w) { s with sched := s.sched.set w sh wk }
  | task {s : State W} {w : W} {sh : Shared} {wk : Worker}
      (step : TaskStep s.sched.shared (s.sched.workers w) sh wk) :
      Step caller s .other { s with sched := s.sched.set w sh wk }
  | flag {s : State W} {sh : Shared} (step : StopStep s.sched.shared sh)
      (busy : sh.busy = s.sched.shared.busy) :
      Step caller s .other { s with sched := { s.sched with shared := sh } }
  | push {s : State W} (t : Task) :
      Step caller s (.push none)
        { s with sched := { s.sched with shared := s.sched.shared.push t } }
  -- `stopping(timeout)`
  | getNextTime {s : State W} {w : W} {n : Nat} {m : TimerManager} (now : Nat)
      (asks : s.Asks caller w) (stage : s.stage w = .entered) (clock : 0 < now)
      (next : TimerManager.getNextTime now s.timers = .ok n m) :
      Step caller s (.idle w)
        { s.setStage w (if n = noTimeout then .timersRead else .goesOn) with timers := m }
  | readPending {s : State W} {w : W} (asks : s.Asks caller w) (stage : s.stage w = .timersRead) :
      Step caller s (.idle w) (s.setStage w (if s.pending = 0 then .pendingRead else .goesOn))
  | notStopping {s : State W} {w : W} (asks : s.Asks caller w) (stage : s.stage w = .pendingRead)
      (stop : s.sched.shared.isStopping = false) : Step caller s (.idle w) (s.setStage w .goesOn)
  | quit {s : State W} {w : W} (pc : (s.sched.workers w).pc = .idle)
      (stage : s.stage w = .pendingRead) (stop : s.sched.shared.isStopping = true) :
      Step caller s (.idle w)
        { s.setStage w .entered with
          sched := s.sched.set w s.sched.shared { pc := .idleBack, idleTerm := true } }
  -- the rest of the loop
  | listExpiredCb {s : State W} {w : W} {cbs : List (Option Callback)} {m : TimerManager}
      (now : Nat) (probe : TimerId) (pc : (s.sched.workers w).pc = .idle)
      (stage : s.stage w = .goesOn)
      (expired : TimerManager.listExpiredCb now probe s.timers = .ok cbs m) :
      Step caller s (.idle w) { s.setStage w (.expired cbs) with timers := m }
  | schedule {s : State W} {w : W} {cbs : List (Option Callback)} {need : Bool} {sh : Shared}
      (pc : (s.sched.workers w).pc = .idle) (stage : s.stage w = .expired cbs)
      (push : s.sched.shared.scheduleAll (cbs.map (·.map Task.cb)) false = (need, sh)) :
      Step caller s (.idle w)
        { s.setStage w .handling with sched := { s.sched with shared := sh } }
  | yields {s : State W} {w : W} (pc : (s.sched.workers w).pc = .idle)
      (stage : s.stage w = .handling) :
      Step caller s (.idle w)
        { s.setStage w .entered with
          sched := s.sched.set w s.sched.shared { s.sched.workers w with pc := .idleBack } }
  -- the way into `run()`; `stop()` may ask twice on the caller's thread
  | enter {s : State W} {w : W} (pc : (s.sched.workers w).pc = .start) (other : caller ≠ some w) :
      Step caller s (.start w)
        { s with sched := s.sched.set w s.sched.shared { s.sched.workers w with pc := .scan } }
  | call {s : State W} {w : W} (pc : (s.sched.workers w).pc = .start) (own : caller = some w)
      (stage : s.stage w = .goesOn) :
      Step caller s (.start w)
        { s.setStage w .entered with
          sched := s.sched.set w s.sched.shared { s.sched.workers w with pc := .scan } }
  | again {s : State W} {w : W} (pc : (s.sched.workers w).pc = .start) (own : caller = some w)
      (stage : s.stage w = .goesOn) : Step caller s (.start w) (s.setStage w .entered)
  | skip {s : State W} {w : W} (pc : (s.sched.workers w).pc = .start) (own : caller = some w)
      (stage : s.stage w = .pendingRead) (stop : s.sched.shared.isStopping = true) :
      Step caller s (.start w)
        { s.setStage w .entered with
          sched := s.sched.set w s.sched.shared { s.sched.workers w with pc := .left } }
  -- the timers and the events
  | addTimer {s : State W} {m : TimerManager} {front : Bool} (p : Option W) (works : s.Works p)
      (t : TimerId) (now ms : Nat) (cb : Callback) (recurring : Bool) (fresh : t ∉ s.timers.timers)
      (add : TimerManager.addNewTimer t now ms cb recurring s.timers = .ok front m) :
      Step caller s (.add p) { s with timers := m }
  /-- `cancel`, `refresh` and `reset`, by anyone at any time. -/
  | timer {s : State W} {a : TimerManager.Action} {m : TimerManager}
      (step : TimerManager.Step s.timers a m) (old : ∀ t, a.creates t = false)
      (quiet : a.handed = []) :
      Step caller s .other { s with timers := m }
  | addEvent {s : State W} (p : Option W) (works : s.Works p) (wait : Wait)
      (fresh : ∀ x ∈ s.waits, (x.fd, x.event) ≠ (wait.fd, wait.event)) :
      Step caller s (.add p) { s with waits := wait :: s.waits, pending := s.pending + 1 }
  | triggerEvent {s : State W} (p : Option W) (works : s.Works p) {wait : Wait}
      (mem : wait ∈ s.waits) :
      Step caller s (.push p)
        { s with
          waits := s.waits.erase wait
          lates := s.lates + 1
          sched := { s.sched with shared := s.sched.shared.push wait.task } }
  | lower {s : State W} (late : 0 < s.lates) :
      Step caller s .other { s with lates := s.lates - 1, pending := decrement s.pending }
  | delEvent {s : State W} {wait : Wait} (epollCtl : Bool) (mem : wait ∈ s.waits) :
      Step caller s .other
        { s with
          waits := s.waits.erase wait
          pending := if epollCtl then decrement s.pending else s.pending }

def init (s : State W) : Prop :=
  Scheduler.init s.sched ∧ s.sched.shared.busy = false ∧ s.timers.timers = [] ∧
    (∀ t, (s.timers.heap t).next < 2 ^ 64) ∧ s.waits = [] ∧ s.pending = 0 ∧ s.lates = 0 ∧
    ∀ w, s.stage w = .entered

def machine (caller : Option W) : System (State W) (Label W) := ⟨init, Step caller⟩

def Stage.passed : Stage → Nat
  | .timersRead => 1
  | .pendingRead => 2
  | .entered | .goesOn | .expired _ | .handling => 0

/-- How many of the timers, the events and the tasks the worker has found to be none. -/
def progress (wk : Worker) (stage : Stage) : Nat :=
  if wk.pc = .left ∨ wk.idleTerm = true then 3 else stage.passed

def State.progress (s : State W) (w : W) : Nat := Quit.progress (s.sched.workers w) (s.stage w)

/-- The timers, the events and the tasks that are there. -/
def State.Left (s : State W) : Nat → Prop
  | 0 => s.timers.timers ≠ []
  | 1 => s.waits ≠ []
  | 2 => s.sched.shared.tasks ≠ []
  | _ => False

/-- A worker whose idle fiber has ended finds no task to run. A thread that is no worker puts
a task only while some worker has not left and its idle fiber has not ended, and adds a timer or
an event only while such a worker is in no `stopping()` that found no timer. -/
def Timely (s : State W) : Label W → Prop
  | .run w => (s.sched.workers w).pc = .scan → (s.sched.workers w).idleTerm = true →
      s.sched.shared.scan s.sched.shared.tasks = none
  | .add none => ∃ w, s.progress w = 0
  | .push none => ∃ w, s.progress w ≤ 2
  | _ => True

/-- Threads that are no workers add nothing once `stop()` is called. -/
def Early (s : State W) : Label W → Prop
  | .add none | .push none => s.sched.shared.autostop = false
  | _ => True

end
end Quit
end TwServer
