import TwServer.Lib.Counting
import TwServer.Lib.Program
import TwServer.Scheduler.Fiber
import TwServer.Timer.Model

/-! The registrations of `tw::IOManager`: which fiber or callback waits for
which event of which descriptor. Every operation runs under the lock of one
`FdContext`, so each is one step; `epollCtl` says whether the `epoll_ctl` call
inside it succeeds. `scheduled` lists what was handed to a scheduler, in order. -/

namespace TwServer
open Programs Program Counting

inductive Event where
  | read
  | write
  deriving DecidableEq, Repr

/-- The bits of `FdContext::events`. -/
structure Events where
  read : Bool
  write : Bool
  deriving DecidableEq, Repr

namespace Events

def none : Events := ⟨false, false⟩

def has (m : Events) : Event → Bool
  | .read => m.read
  | .write => m.write

/-- `events | ev`. -/
def insert (m : Events) : Event → Events
  | .read => { m with read := true }
  | .write => { m with write := true }

/-- `events & ~ev`. -/
def erase (m : Events) : Event → Events
  | .read => { m with read := false }
  | .write => { m with write := false }

/-- The number of bits set. -/
def count (m : Events) : Nat := m.read.toNat + m.write.toNat

end Events

abbrev SchedulerId := Nat

/-- `FdContext::EventContext`. -/
structure EventContext where
  scheduler : Option SchedulerId
  fiber : Option FiberId
  cb : Option Callback
  deriving DecidableEq, Repr

def EventContext.empty : EventContext := ⟨none, none, none⟩

structure FdContext where
  fd : Nat
  read : EventContext
  write : EventContext
  events : Events
  deriving DecidableEq, Repr

namespace FdContext

def new (fd : Nat) : FdContext := ⟨fd, .empty, .empty, .none⟩

def getContext (c : FdContext) : Event → EventContext
  | .read => c.read
  | .write => c.write

def setContext (c : FdContext) (ctx : EventContext) : Event → FdContext
  | .read => { c with read := ctx }
  | .write => { c with write := ctx }

end FdContext

structure IOManager where
  fdContexts : List FdContext
  pendingEventCount : Nat
  fibers : FiberId → Fiber
  scheduled : List (SchedulerId × Task)

/-- The thread that makes a call: `Scheduler::GetThis()`, null off the
scheduler's threads, and `Fiber::GetThis()`. -/
structure Caller where
  scheduler : Option SchedulerId
  fiber : FiberId

namespace IOManager

def fdContextResize (size : Nat) (s : IOManager) : IOManager :=
  if size < s.fdContexts.length then s
  else
    let old := s.fdContexts.length
    { s with fdContexts := s.fdContexts ++ (List.range' old (size - old)).map FdContext.new }

/-- The constructor; every fiber of the program is given by `fibers`. -/
def new (fibers : FiberId → Fiber) : IOManager :=
  fdContextResize 32 ⟨[], 0, fibers, []⟩

def setFdContext (fd : Nat) (c : FdContext) (s : IOManager) : IOManager :=
  { s with fdContexts := s.fdContexts.set fd c }

/-! ## The slots -/

def resetContext (ctx : EventContext) : Program IOManager EventContext := fun s =>
  match ctx.fiber with
  | none => .fault .nullPointer
  | some f =>
    match (s.fibers f).reset none with
    | .error text => .fault (.assertion text)
    | .ok fiber =>
      -- the slot keeps its fiber
      .ok { ctx with scheduler := none, cb := none }
        { s with fibers := fun g => if g = f then fiber else s.fibers g }

/-- `FiberAndFunc(&ctx.fiber)` or `FiberAndFunc(&ctx.cb)`: the task swapped out of
the slot, which is empty if the pointer was null. -/
def swapTask (ctx : EventContext) : Option Task × EventContext :=
  match ctx.fiber with
  | some f => (some (.fiber f), { ctx with fiber := none })
  | none => (ctx.cb.map .cb, { ctx with cb := none })

/-- `scheduler->schedule`, which drops an empty task. -/
def schedule (scheduler : SchedulerId) (task : Option Task) (s : IOManager) : IOManager :=
  match task with
  | none => s
  | some t => { s with scheduled := s.scheduled ++ [(scheduler, t)] }

def triggerEvent (c : FdContext) (ev : Event) : Program IOManager FdContext := fun s =>
  if !c.events.has ev then .fault (.assertion "ev & events")
  else
    let ctx := c.getContext ev
    match ctx.scheduler with
    | none => .fault .nullPointer
    | some scheduler =>
      let (task, ctx) := swapTask ctx
      .ok ({ c with events := c.events.erase ev }.setContext { ctx with scheduler := none } ev)
        (s.schedule scheduler task)

/-! ## The operations -/

def addEvent (here : Caller) (epollCtl : Bool) (fd : Nat) (ev : Event) (cb : Option Callback) :
    Program IOManager Int := fun s =>
  let s := if s.fdContexts.length > fd then s else s.fdContextResize (fd * 3 / 2)
  match s.fdContexts[fd]? with
  | none => .fault .outOfBounds
  | some c =>
    if c.events.has ev then .fault (.assertion "false")
    else if !epollCtl then .ok (-1) s
    else
      let ctx := { c.getContext ev with scheduler := here.scheduler }
      let c := { c with events := c.events.insert ev }
      let s := { s with pendingEventCount := s.pendingEventCount + 1 }
      match cb with
      | some f => .ok 0 (s.setFdContext fd (c.setContext { ctx with cb := some f } ev))
      | none =>
        if (s.fibers here.fiber).state = .exec then
          .ok 0 (s.setFdContext fd (c.setContext { ctx with fiber := some here.fiber } ev))
        else .fault (.assertion "ctx.fiber->getState() == Fiber::EXEC")

def delEvent (epollCtl : Bool) (fd : Nat) (ev : Event) : Program IOManager Bool := fun s =>
  match s.fdContexts[fd]? with
  | none => .ok false s
  | some c =>
    if !c.events.has ev then .ok false s
    else
      -- the mask is written before `epoll_ctl` is asked
      let c := { c with events := c.events.erase ev }
      let s := s.setFdContext fd c
      if !epollCtl then .ok false s
      else
        let s := { s with pendingEventCount := decrement s.pendingEventCount }
        match resetContext (c.getContext ev) s with
        | .ok ctx s => .ok true (s.setFdContext fd (c.setContext ctx ev))
        | .throw what s => .throw what s
        | .fault why => .fault why

def cancelEvent (epollCtl : Bool) (fd : Nat) (ev : Event) : Program IOManager Bool := fun s =>
  match s.fdContexts[fd]? with
  | none => .ok false s
  | some c =>
    if !c.events.has ev then .ok false s
    else if !epollCtl then .ok false s
    else
      match triggerEvent c ev s with
      | .ok c s =>
        .ok true { s.setFdContext fd c with pendingEventCount := decrement s.pendingEventCount }
      | .throw what s => .throw what s
      | .fault why => .fault why

/-- `cancelAll(fd)`; `ctlRead` and `ctlWrite` are for the two `epoll_ctl` calls. -/
def cancelAll (ctlRead ctlWrite : Bool) (fd : Nat) : Program IOManager Bool := do
  if !(← cancelEvent ctlRead fd .read) then return false
  if !(← cancelEvent ctlWrite fd .write) then return false
  return true

/-- `stopping(timeout)`, with what `getNextTime()` and `Scheduler::stopping()` return. -/
def stopping (timeout : Nat) (schedulerStopping : Bool) (s : IOManager) : Bool :=
  timeout == noTimeout && s.pendingEventCount == 0 && schedulerStopping

/-! ## One entry of `epoll_wait`'s result -/

/-- `epoll_event` of a descriptor; `data.ptr` is the context number `ctx`. -/
structure Report where
  ctx : Nat
  epollin : Bool
  epollout : Bool
  epollerr : Bool
  epollhup : Bool
  deriving DecidableEq, Repr

/-- `fd_ctx->events & ev`. -/
def registered (s : IOManager) (fd : Nat) (ev : Event) : Bool :=
  match s.fdContexts[fd]? with
  | none => false
  | some c => c.events.has ev

/-- `if(fd_ctx->events & ev)` around a removal whose result is ignored. -/
def ifRegistered (ctx : Nat) (ev : Event) (remove : Program IOManager Bool) :
    Program IOManager Unit := fun s =>
  if s.registered ctx ev then (do let _ ← remove; return ()) s else .ok () s

/-- The body of `idle`'s loop over the result, `epoll_ctl` succeeding. It looks
at EPOLLERR and EPOLLHUP only: afterwards both events are cancelled. -/
def handleReport (r : Report) : Program IOManager Unit := fun s =>
  match s.fdContexts[r.ctx]? with
  | none => .fault .nullPointer
  | some c =>
    let drop : Program IOManager Unit :=
      if r.epollerr || r.epollhup then do
        ifRegistered r.ctx .read (delEvent true c.fd .read)
        ifRegistered r.ctx .write (delEvent true c.fd .write)
      else return ()
    (do
      drop
      ifRegistered r.ctx .read (cancelEvent true c.fd .read)
      ifRegistered r.ctx .write (cancelEvent true c.fd .write)) s

end IOManager
end TwServer
