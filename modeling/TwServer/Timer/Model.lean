import Mathlib.Algebra.Group.Int.Defs
import Mathlib.Algebra.Group.Nat.Defs
import TwServer.Lib.OrderedSet
import TwServer.Lib.Program
import TwServer.Scheduler.Fiber
import Mathlib.Logic.Function.Basic

/-! `tw::Timer` and `tw::TimerManager`. `m_timers` is a `std::set` of pointers: a
list of addresses in the order of `Timer::Comparator`, whose keys are read through
the pointers. Every operation runs under the manager's lock. Deadlines are 64-bit
milliseconds. -/

namespace TwServer
open Programs Program

/-- The address of a `Timer`. -/
abbrev TimerId := Nat

structure Timer where
  recurring : Bool
  ms : Nat
  next : Nat
  cb : Option Callback
  deriving DecidableEq, Repr

/-- What `listExpiredCb` hands out is compared by equality. -/
instance : LawfulBEq (Option Callback) := inferInstance

structure TimerManager where
  heap : TimerId → Timer
  timers : List TimerId
  previousTime : Nat
  flag : Bool

/-- `GetCurrentMS() + ms`. -/
def addMs (now ms : Nat) : Nat := (now + ms) % 2 ^ 64

/-- `~0ull`. -/
def noTimeout : Nat := 2 ^ 64 - 1

/-- `Timer(ms, cb, recurring, mgr)`. -/
def Timer.new (now ms : Nat) (cb : Callback) (recurring : Bool) : Timer :=
  ⟨recurring, ms, addMs now ms, some cb⟩

/-- `Timer::Comparator` on a key and the address it was read at. -/
def Timer.before (a b : Nat × Nat) : Bool :=
  if a.1 < b.1 then true else if a.1 > b.1 then false else a.2 < b.2

namespace TimerManager

def key (m : TimerManager) (t : TimerId) : Nat × Nat := ((m.heap t).next, t)

def setTimer (t : TimerId) (timer : Timer) (m : TimerManager) : TimerManager :=
  { m with heap := Function.update m.heap t timer }

/-! ## The set -/

/-- `Timer::Comparator` on two pointers, neither of them null. -/
def before (m : TimerManager) (t u : TimerId) : Bool := Timer.before (m.key t) (m.key u)

def find (m : TimerManager) (t : TimerId) : Option TimerId :=
  OrderedSet.find m.before t m.timers

def insert (t : TimerId) (m : TimerManager) : TimerManager :=
  { m with timers := OrderedSet.insert m.before t m.timers }

/-- `m_timers.erase` of an iterator. -/
def erase (t : TimerId) (m : TimerManager) : TimerManager :=
  { m with timers := m.timers.erase t }

/-! ## The operations -/

/-- `addTimer(timer, lock)` up to the unlocking; the result is `atFrontFlag`. -/
def addTimer (t : TimerId) : Program TimerManager Bool := fun m =>
  let m' := m.insert t
  let atFront := m'.timers.head? == some t && !m.flag
  .ok atFront { m' with flag := m.flag || atFront }

/-- `addTimer(ms, cb, recurring)`; the new timer lies at `t`. -/
def addNewTimer (t : TimerId) (now ms : Nat) (cb : Callback) (recurring : Bool) :
    Program TimerManager Bool := fun m =>
  addTimer t (m.setTimer t (.new now ms cb recurring))

theorem addNewTimer_heap {m m' : TimerManager} {t : TimerId} {now ms : Nat} {cb : Callback}
    {recurring front : Bool} (h : addNewTimer t now ms cb recurring m = .ok front m') :
    m'.heap = Function.update m.heap t (.new now ms cb recurring) := by
  cases h
  rfl

def cancel (t : TimerId) : Program TimerManager Bool := fun m =>
  if (m.heap t).cb.isSome then
    let m' := m.setTimer t { m.heap t with cb := none }
    match m'.find t with
    | none => .fault .outOfBounds
    | some u => .ok true (m'.erase u)
  else .ok false m

def refresh (t : TimerId) (now : Nat) : Program TimerManager Bool := fun m =>
  if (m.heap t).cb.isNone then .ok false m
  else
    match m.find t with
    | none => .ok false m
    | some u =>
      let m' := (m.erase u).setTimer t { m.heap t with next := addMs now (m.heap t).ms }
      .ok true (m'.insert t)

/-- `Timer::reset`: its result, and whether it goes on to `addTimerFront`. -/
def reset (t : TimerId) (now ms : Nat) (fromNow : Bool) : Program TimerManager (Bool × Bool) :=
  fun m =>
  if (m.heap t).cb.isNone then .ok (false, false) m
  else
    match m.find t with
    | none => .ok (false, false) m
    | some u =>
      let old := m.heap t
      -- `m_next - m_ms + ms`, in unsigned arithmetic
      let start := if fromNow then addMs now ms else (old.next + (2 ^ 64 - old.ms) + ms) % 2 ^ 64
      let m' := (m.erase u).setTimer t { old with ms := ms, next := start }
      match addTimer t m' with
      | .ok front m'' => .ok (true, front) m''
      | .throw what m'' => .throw what m''
      | .fault why => .fault why

def getNextTime (now : Nat) : Program TimerManager Nat := fun m =>
  let m' := { m with flag := false }
  match m.timers with
  | [] => .ok noTimeout m'
  | t :: _ => .ok (if (m.heap t).next ≤ now then 0 else (m.heap t).next - now) m'

/-- What becomes of a timer whose callback has been handed out. -/
def rearm (now : Nat) (t : TimerId) (m : TimerManager) : TimerManager :=
  let timer := m.heap t
  if timer.recurring then (m.setTimer t { timer with next := addMs now timer.ms }).insert t
  else m.setTimer t { timer with cb := none }

/-- The loop of `listExpiredCb` over `expired`, with what it appends to `cbs`. -/
def expire (now : Nat) : List TimerId → TimerManager → List (Option Callback) × TimerManager
  | [], m => ([], m)
  | t :: ts, m =>
    let (cbs, m') := expire now ts (m.rearm now t)
    ((m.heap t).cb :: cbs, m')

/-- `listExpiredCb` with the clock reading `now` and the temporary timer at `probe`. -/
def listExpiredCb (now : Nat) (probe : TimerId) : Program TimerManager (List (Option Callback)) :=
  fun m =>
  if m.timers.isEmpty then .ok [] m
  else
    let isBefore := fun t => Timer.before (m.key t) (now, probe)
    let isDue := fun t => (m.heap t).next == now
    let rest := m.timers.dropWhile isBefore
    let expired := m.timers.takeWhile isBefore ++ rest.takeWhile isDue
    let (cbs, m') := expire now expired { m with timers := rest.dropWhile isDue, previousTime := now }
    .ok cbs m'

end TimerManager
end TwServer
