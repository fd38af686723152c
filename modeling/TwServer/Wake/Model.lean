import TwServer.Scheduler.Shutdown
import TwServer.IOManager.Model

/-! Fibers that suspend as `do_io` does, on the workers of `Scheduler::run`. A
running fiber registers itself for an event and yields; any thread may cancel the
event at any moment, which schedules the fiber. A slot is the fiber of a
registered event, `none` while the bit is clear. -/

namespace TwServer
open Counting Runs Scheduler

namespace Wake

/-- One successful `addEvent` without a callback, numbered for the statements. -/
structure Registration where
  number : Nat
  fiber : FiberId
  deriving DecidableEq, Repr

/-- `waking fd` is set while a `triggerEvent` holds the mutex of `fd`, between
`events & ~ev` and `schedule`. `armed f` says that `f` has registered since it
last ran from the top of `do_io`'s loop. `regs` and `woken` list the
registrations made and those that enqueued a fiber, for the statements only. -/
structure State (W : Type) where
  sched : Scheduler.State W
  slots : Nat → Event → Option Registration
  waking : Nat → Option Registration
  armed : FiberId → Bool
  regs : List FiberId
  woken : List Registration

variable {W : Type} [DecidableEq W]

def setSlot (slots : Nat → Event → Option Registration) (fd : Nat) (ev : Event)
    (r : Option Registration) : Nat → Event → Option Registration :=
  Function.update slots fd (Function.update (slots fd) ev r)

theorem setSlot_cases {slots : Nat → Event → Option Registration} {fd fd' : Nat} {ev ev' : Event}
    {o : Option Registration} {r : Registration} (h : setSlot slots fd ev o fd' ev' = some r) :
    (fd', ev') = (fd, ev) ∧ o = some r ∨ (fd', ev') ≠ (fd, ev) ∧ slots fd' ev' = some r := by
  unfold setSlot at h
  by_cases hfd : fd' = fd
  · subst hfd
    rw [Function.update_self] at h
    by_cases hev : ev' = ev
    · subst hev
      rw [Function.update_self] at h
      exact Or.inl ⟨rfl, h⟩
    · rw [Function.update_of_ne hev] at h
      exact Or.inr ⟨fun he => hev (congrArg Prod.snd he), h⟩
  · rw [Function.update_of_ne hfd] at h
    exact Or.inr ⟨fun he => hfd (congrArg Prod.fst he), h⟩

theorem setWaking_cases {waking : Nat → Option Registration} {fd fd' : Nat}
    {o : Option Registration} {r : Registration} (h : Function.update waking fd o fd' = some r) :
    fd' = fd ∧ o = some r ∨ fd' ≠ fd ∧ waking fd' = some r := by
  by_cases hfd : fd' = fd
  · subst hfd
    rw [Function.update_self] at h
    exact Or.inl ⟨rfl, h⟩
  · rw [Function.update_of_ne hfd] at h
    exact Or.inr ⟨hfd, h⟩

def State.withShared (s : State W) (sh : Shared) : State W :=
  { s with sched := { s.sched with shared := sh } }

inductive Label (W : Type) where
  | run (w : W)
  | enter (w : W)
  | fiber (w : W)
  | other

inductive Step (caller : Option W) : State W → Label W → State W → Prop
  | run {s : State W} {w : W} {sh : Shared} {wk : Worker}
      (step : RunStep s.sched.shared (s.sched.workers w) sh wk) :
      Step caller s (.run w) { s with sched := s.sched.set w sh wk }
  | enter {s : State W} {w : W} {sched : Scheduler.State W}
      (step : Scheduler.Step caller s.sched (.enter w) sched) :
      Step caller s (.enter w) { s with sched := sched }
  | flag {s : State W} {sh : Shared} (step : StopStep s.sched.shared sh) :
      Step caller s .other (s.withShared sh)
  /-- `schedule` of a new fiber, by anybody. -/
  | spawn {s : State W} :
      Step caller s .other
        (s.withShared (s.sched.shared.newFiber.push (.fiber s.sched.shared.nextFiber)))
  /-- `schedule` of a callback, by anybody. -/
  | scheduleCb {s : State W} (c : Callback) :
      Step caller s .other (s.withShared (s.sched.shared.push (.cb c)))
  /-- `addEvent` in a running fiber; the slot is free and nobody holds the mutex. -/
  | addEvent {s : State W} {w : W} {f : FiberId} {event : Bool} (fd : Nat) (ev : Event)
      (pc : (s.sched.workers w).pc = .inside f event) (exec : s.sched.shared.fibers f = .exec)
      (unarmed : s.armed f = false) (unlocked : s.waking fd = none) (free : s.slots fd ev = none) :
      Step caller s (.fiber w)
        { s with
          slots := setSlot s.slots fd ev (some ⟨s.regs.length, f⟩)
          armed := Function.update s.armed f true
          regs := s.regs ++ [f] }
  /-- `YieldToHold` after `addEvent`, or the last `swapOut` of a fiber. -/
  | swapOut {s : State W} {w : W} {f : FiberId} {event : Bool}
      (pc : (s.sched.workers w).pc = .inside f event)
      (due : s.armed f = true ∨ (s.sched.shared.fibers f).isDone = true) :
      Step caller s (.fiber w)
        { s with
          sched := s.sched.set w s.sched.shared { s.sched.workers w with pc := .back f event }
          armed := Function.update s.armed f false }
  /-- The fiber's function has returned or thrown. -/
  | finish {s : State W} {w : W} {f : FiberId} {event : Bool} (st : FiberState)
      (pc : (s.sched.workers w).pc = .inside f event) (unarmed : s.armed f = false)
      (done : st.isDone = true) :
      Step caller s (.fiber w) (s.withShared (s.sched.shared.setState f st))
  /-- `cancelEvent` up to the cleared bit, on any thread. -/
  | clear {s : State W} (fd : Nat) (ev : Event) {r : Registration} (unlocked : s.waking fd = none)
      (registered : s.slots fd ev = some r) :
      Step caller s .other
        { s with
          slots := setSlot s.slots fd ev none
          waking := Function.update s.waking fd (some r) }
  /-- The rest of it: `schedule(&ctx.fiber)`. -/
  | wake {s : State W} (fd : Nat) {r : Registration} (locked : s.waking fd = some r) :
      Step caller s .other
        { s.withShared (s.sched.shared.push (.fiber r.fiber)) with
          waking := Function.update s.waking fd none
          woken := s.woken ++ [r] }

def init (s : State W) : Prop :=
  Scheduler.init s.sched ∧ (∀ fd ev, s.slots fd ev = none) ∧ (∀ fd, s.waking fd = none) ∧
    (∀ f, s.armed f = false) ∧ s.regs = [] ∧ s.woken = []

def machine (caller : Option W) : System (State W) (Label W) := ⟨init, Step caller⟩

end Wake
end TwServer
