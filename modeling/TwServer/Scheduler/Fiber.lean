import TwServer.Lib.Program

/-! `tw::Fiber` as its users see it: the state, the stack and the function. The
saved machine context is left out. -/

namespace TwServer

abbrev FiberId := Nat

/-- A `std::function<void()>` that holds a target. -/
abbrev Callback := Nat

/-- `Fiber::State`. -/
inductive FiberState where
  | init
  | hold
  | exec
  | term
  | ready
  | execept
  deriving DecidableEq, Repr

structure Fiber where
  stack : Bool
  state : FiberState
  cb : Option Callback
  deriving DecidableEq, Repr

/-- What `Scheduler::schedule` puts into the queue, `FiberAndFunc`. -/
inductive Task where
  | fiber (f : FiberId)
  | cb (c : Callback)
  deriving DecidableEq, Repr

namespace FiberState

/-- The states `Fiber::reset` and the destructor accept. -/
def isIdle : FiberState → Bool
  | init | term | execept => true
  | hold | exec | ready => false

/-- The states in which a fiber is not run again. -/
def isDone : FiberState → Bool
  | term | execept => true
  | init | hold | exec | ready => false

end FiberState

namespace Fiber

def reset (cb : Option Callback) (f : Fiber) : Except String Fiber :=
  if !f.stack then .error "m_stack"
  else if !f.state.isIdle then
    .error "m_state == INIT || m_state == TERM || m_state == EXECEPT"
  else .ok { f with cb := cb, state := .init }

end Fiber
end TwServer
