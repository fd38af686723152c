import TwServer.Hook.FdManager
import Mathlib.Data.List.Basic

/-! The `fcntl` hook on a new socket, next to the unhooked calls. The kernel keeps
O_NONBLOCK set while the program is to see its own flag. The hook forgets the flag
that `socket` was called with, changes a failing F_GETFL, and drops the results or
the arguments of most other commands. -/

namespace TwServer

namespace Fcntl

/-! ## The kernel -/

def O_RDWR : BitVec 32 := 2#32
def O_NONBLOCK : BitVec 32 := 2048#32
def SOCK_NONBLOCK : BitVec 32 := 2048#32

/-- `flags & O_NONBLOCK` as a condition. -/
def nonblock (flags : BitVec 32) : Bool := flags &&& O_NONBLOCK != 0#32

/-- The commands whose argument is an `int`. -/
inductive IntCmd where
  | F_DUPFD | F_DUPFD_CLOEXEC | F_SETFD | F_SETOWN | F_SETSIG | F_SETLEASE | F_NOTIFY
  | F_SETPIPE_SZ
  deriving DecidableEq, Repr

inductive VoidCmd where
  | F_GETFD | F_GETOWN | F_GETSIG | F_GETLEASE | F_GETPIPE_SZ
  deriving DecidableEq, Repr

inductive LockCmd where
  | F_SETLK | F_SETLKW | F_GETLK
  deriving DecidableEq, Repr

inductive OwnerCmd where
  | F_GETOWN_EX | F_SETOWN_EX
  deriving DecidableEq, Repr

/-- A call of `fcntl`, with its argument; pointers and the arguments of commands
that the hook does not name are numbers. -/
inductive Call where
  | setfl (arg : BitVec 32)
  | getfl
  | int (cmd : IntCmd) (arg : BitVec 32)
  | void (cmd : VoidCmd)
  | lock (cmd : LockCmd) (arg : Nat)
  | owner (cmd : OwnerCmd) (arg : Nat)
  | other (cmd : Nat) (arg : Option Nat)
  deriving DecidableEq, Repr

/-- A call, and whether the kernel refuses it. -/
structure Attempt where
  call : Call
  fails : Bool
  deriving DecidableEq, Repr

/-- `settable` are the flags that F_SETFL changes. The commands other than F_SETFL
and F_GETFL act on the rest of what the kernel knows about a descriptor. -/
structure Kernel (σ : Type) where
  settable : BitVec 32
  nonblock_settable : nonblock settable = true
  fresh : (domain type protocol : BitVec 32) → σ
  other : Call → σ → BitVec 32 × σ

/-- One descriptor. -/
structure Fd (σ : Type) where
  flags : BitVec 32
  rest : σ

variable {σ : Type} (K : Kernel σ)

def socket_f (domain type protocol : BitVec 32) : Fd σ :=
  ⟨O_RDWR ||| (type &&& SOCK_NONBLOCK), K.fresh domain type protocol⟩

def fcntl_f (a : Attempt) (fd : Fd σ) : BitVec 32 × Fd σ :=
  if a.fails then (-1, fd)
  else
    match a.call with
    | .setfl arg => (0, { fd with flags := (fd.flags &&& ~~~K.settable) ||| (arg &&& K.settable) })
    | .getfl => (fd.flags, fd)
    | call => ((K.other call fd.rest).1, { fd with rest := (K.other call fd.rest).2 })

/-! ## The hooks -/

/-- A descriptor and what `FdManager` has for it. -/
structure Hooked (σ : Type) where
  kernel : Fd σ
  ctx : Option FdCtx

/-- The `fcntl` calls of `FdCtx::init` on a socket, which reach the kernel as they
are: the context is not in the table yet. -/
def init (getFails setFails : Bool) (fd : Fd σ) : Fd σ :=
  let (flags, fd) := fcntl_f K ⟨.getfl, getFails⟩ fd
  if !nonblock flags then (fcntl_f K ⟨.setfl (flags ||| O_NONBLOCK), setFails⟩ fd).2 else fd

/-- The `socket` hook where `socket_f` succeeds; `fstat` says that `fd` is a socket. -/
def socket (fd : Int) (domain type protocol : BitVec 32) (getFails setFails : Bool) : Hooked σ :=
  ⟨init K getFails setFails (socket_f K domain type protocol), some (FdCtx.new fd (some true))⟩

/-- The context, unless `!ctx || ctx->isClosed() || !ctx->isSocket()`. -/
def managed (h : Hooked σ) : Option FdCtx := h.ctx.filter fun ctx => !ctx.isClosed && ctx.isSocket

/-- The call is passed on and its result is the hook's. -/
def passOn (a : Attempt) (h : Hooked σ) : BitVec 32 × Hooked σ :=
  ((fcntl_f K a h.kernel).1, { h with kernel := (fcntl_f K a h.kernel).2 })

/-- The call is passed on; the hook leaves the `switch` and returns -1. -/
def discard (a : Attempt) (h : Hooked σ) : BitVec 32 × Hooked σ :=
  (-1, { h with kernel := (fcntl_f K a h.kernel).2 })

def fcntl (a : Attempt) (h : Hooked σ) : BitVec 32 × Hooked σ :=
  match a.call with
  | .setfl arg =>
    match managed h with
    | none => passOn K a h
    | some ctx =>
      let arg' := if ctx.sysNonBlock then arg ||| O_NONBLOCK else arg &&& ~~~O_NONBLOCK
      passOn K ⟨.setfl arg', a.fails⟩ { h with ctx := some (ctx.setUsrNonBlock (nonblock arg)) }
  | .getfl =>
    let (arg, h) := passOn K a h
    match managed h with
    | none => (arg, h)
    | some ctx =>
      if ctx.usrNonBlock then (arg ||| O_NONBLOCK, h) else (arg &&& ~~~O_NONBLOCK, h)
  | .int _ _ | .void _ | .lock _ _ => discard K a h
  | .owner _ _ => passOn K a h
  -- `fcntl_f(fd, cmd)`
  | .other cmd _ => passOn K ⟨.other cmd none, a.fails⟩ h

/-! ## Sequences of calls -/

/-- What the calls of `as` return, one after the other. -/
def returns {S : Type} (f : Attempt → S → BitVec 32 × S) : S → List Attempt → List (BitVec 32)
  | _, [] => []
  | s, a :: as => (f a s).1 :: returns f (f a s).2 as

def after {S : Type} (f : Attempt → S → BitVec 32 × S) : S → List Attempt → S
  | s, [] => s
  | s, a :: as => after f (f a s).2 as

/-- The program sees what it would see without hooks, and the kernel's O_NONBLOCK
is set at all times. -/
def Transparent (h : Hooked σ) (u : Fd σ) (calls : List Attempt) : Prop :=
  returns (fcntl K) h calls = returns (fcntl_f K) u calls ∧
    ∀ n, nonblock (after (fcntl K) h (calls.take n)).kernel.flags = true

/-! ## What decides it -/

/-- O_NONBLOCK as the last F_SETFL asked for it, whether or not it failed. -/
def requested (usr : Bool) (a : Attempt) : Bool :=
  match a.call with
  | .setfl arg => nonblock arg
  | _ => usr

/-- O_NONBLOCK as the last successful F_SETFL set it. -/
def effective (flag : Bool) (a : Attempt) : Bool :=
  match a.call with
  | .setfl arg => if a.fails then flag else nonblock arg
  | _ => flag

/-- What the kernel does to the rest of the descriptor. -/
def restAfter (rest : σ) (a : Attempt) : σ :=
  match a.call with
  | .setfl _ | .getfl => rest
  | call => if a.fails then rest else (K.other call rest).2

/-- The call as it reaches the kernel: without its argument if the hook does not
name the command. -/
def forwarded (a : Attempt) : Attempt :=
  match a.call with
  | .other cmd _ => ⟨.other cmd none, a.fails⟩
  | _ => a

/-- `before` are the calls so far, on a socket whose O_NONBLOCK was `type`'s and
whose other state was `rest`. -/
def Meets (type : BitVec 32) (rest : σ) (before : List Attempt) (a : Attempt) : Prop :=
  match a.call with
  | .setfl _ => True
  | .getfl =>
    if a.fails then before.foldl requested false = true
    else before.foldl requested false = before.foldl effective (nonblock type)
  | .int _ _ | .void _ | .lock _ _ =>
    a.fails = true ∨ (K.other a.call (before.foldl (restAfter K) rest)).1 = -1
  | .owner _ _ | .other _ _ =>
    a.fails = true ∨
      (K.other (forwarded a).call ((before.map forwarded).foldl (restAfter K) rest)).1 =
        (K.other a.call (before.foldl (restAfter K) rest)).1

/-! ## Bits -/

theorem getLsbD_O_NONBLOCK (i : Nat) : O_NONBLOCK.getLsbD i = decide (i = 11) := by
  have htwo : O_NONBLOCK = BitVec.twoPow 32 11 := by decide
  rw [htwo, BitVec.getLsbD_twoPow]
  by_cases hi : i = 11
  · subst hi
    rfl
  · rw [decide_eq_false hi, decide_eq_false (Ne.symm hi), Bool.and_false]

theorem nonblock_eq (flags : BitVec 32) : nonblock flags = flags.getLsbD 11 := by
  have htwo : O_NONBLOCK = BitVec.twoPow 32 11 := by decide
  rw [nonblock, htwo, BitVec.and_twoPow]
  cases flags.getLsbD 11 <;> rfl

@[simp] theorem nonblock_or (flags flags' : BitVec 32) :
    nonblock (flags ||| flags') = (nonblock flags || nonblock flags') := by
  simp [nonblock_eq]

@[simp] theorem nonblock_and (flags flags' : BitVec 32) :
    nonblock (flags &&& flags') = (nonblock flags && nonblock flags') := by
  simp [nonblock_eq]

@[simp] theorem nonblock_not (flags : BitVec 32) : nonblock (~~~flags) = !nonblock flags := by
  simp [nonblock_eq]

/-- The same flags but for O_NONBLOCK. -/
def Agree (flags flags' : BitVec 32) : Prop := ∀ i, i ≠ 11 → flags.getLsbD i = flags'.getLsbD i

theorem Agree.eq {flags flags' : BitVec 32} (h : Agree flags flags')
    (hflag : nonblock flags = nonblock flags') : flags = flags' := by
  apply BitVec.eq_of_getLsbD_eq
  intro i _
  by_cases hi : i = 11
  · subst hi
    rw [nonblock_eq, nonblock_eq] at hflag
    exact hflag
  · exact h i hi

theorem Agree.or {flags flags' : BitVec 32} (h : Agree flags flags') :
    Agree (flags ||| O_NONBLOCK) flags' := by
  intro i hi
  rw [BitVec.getLsbD_or, getLsbD_O_NONBLOCK, decide_eq_false hi, Bool.or_false]
  exact h i hi

theorem Agree.and_not {flags flags' : BitVec 32} (h : Agree flags flags') :
    Agree (flags &&& ~~~O_NONBLOCK) flags' := by
  intro i hi
  rw [← h i hi, BitVec.getLsbD_and, BitVec.getLsbD_not, getLsbD_O_NONBLOCK, decide_eq_false hi]
  by_cases hlt : i < 32
  · simp [hlt]
  · simp [BitVec.getLsbD_of_ge flags i (Nat.not_lt.mp hlt)]

theorem Agree.set {flags flags' arg : BitVec 32} (h : Agree flags flags') (settable : BitVec 32) :
    Agree ((flags &&& ~~~settable) ||| ((arg ||| O_NONBLOCK) &&& settable))
      ((flags' &&& ~~~settable) ||| (arg &&& settable)) := by
  intro i hi
  simp only [BitVec.getLsbD_or, BitVec.getLsbD_and, h i hi, getLsbD_O_NONBLOCK,
    decide_eq_false hi, Bool.or_false]

/-! ## One call -/

theorem fcntl_f_rest (a : Attempt) (fd : Fd σ) :
    (fcntl_f K a fd).2.rest = restAfter K fd.rest a := by
  rcases a with ⟨call, _ | _⟩ <;> cases call <;> rfl

theorem fcntl_f_flags {a : Attempt} (h : ∀ arg, a.call ≠ .setfl arg) (fd : Fd σ) :
    (fcntl_f K a fd).2.flags = fd.flags := by
  rcases a with ⟨call, _ | _⟩ <;> cases call <;> first | rfl | exact absurd rfl (h _)

theorem fcntl_f_result {a : Attempt} (h : ∀ arg, a.call ≠ .setfl arg) (h' : a.call ≠ .getfl)
    (fd : Fd σ) :
    (fcntl_f K a fd).1 = if a.fails then -1 else (K.other a.call fd.rest).1 := by
  rcases a with ⟨call, _ | _⟩ <;> cases call <;>
    first | rfl | exact absurd rfl (h _) | exact absurd rfl h'

theorem forwarded_getfl {a : Attempt} (h : a.call ≠ .getfl) : (forwarded a).call ≠ .getfl := by
  rcases a with ⟨call, fails⟩
  cases call <;> first | exact absurd rfl h | simp [forwarded]

theorem forwarded_fails (a : Attempt) : (forwarded a).fails = a.fails := by
  rcases a with ⟨call, fails⟩
  cases call <;> rfl

theorem forwarded_setfl {a : Attempt} (h : ∀ arg, a.call ≠ .setfl arg) (arg : BitVec 32) :
    (forwarded a).call ≠ .setfl arg := by
  rcases a with ⟨call, fails⟩
  cases call <;> first | exact absurd rfl (h _) | simp [forwarded]

/-- The two worlds after `before`: they agree but for O_NONBLOCK. -/
structure Rel (type : BitVec 32) (rest : σ) (before : List Attempt) (h : Hooked σ) (u : Fd σ) :
    Prop where
  ctx : ∃ ctx, managed h = some ctx ∧ ctx.sysNonBlock = true ∧
    ctx.usrNonBlock = before.foldl requested false
  agree : Agree h.kernel.flags u.flags
  flag : nonblock u.flags = before.foldl effective (nonblock type)
  hooked : h.kernel.rest = (before.map forwarded).foldl (restAfter K) rest
  unhooked : u.rest = before.foldl (restAfter K) rest

variable {K} {type : BitVec 32} {rest : σ} {before : List Attempt} {h : Hooked σ} {u : Fd σ}

/-- Any command but F_SETFL, as it reaches the kernel in either world. -/
theorem Rel.forward (hrel : Rel K type rest before h u) {a : Attempt}
    (ha : ∀ arg, a.call ≠ .setfl arg) :
    Rel K type rest (before ++ [a]) { h with kernel := (fcntl_f K (forwarded a) h.kernel).2 }
      (fcntl_f K a u).2 where
  ctx := by
    obtain ⟨ctx, hctx, hsys, husr⟩ := hrel.ctx
    refine ⟨ctx, hctx, hsys, ?_⟩
    rw [husr, List.foldl_append]
    rcases a with ⟨call, fails⟩
    cases call <;> first | rfl | exact absurd rfl (ha _)
  agree := by
    rw [fcntl_f_flags K (forwarded_setfl ha), fcntl_f_flags K ha]
    exact hrel.agree
  flag := by
    rw [fcntl_f_flags K ha, hrel.flag, List.foldl_append]
    rcases a with ⟨call, fails⟩
    cases call <;> first | rfl | exact absurd rfl (ha _)
  hooked := by
    rw [fcntl_f_rest, hrel.hooked, List.map_append, List.foldl_append]
    rfl
  unhooked := by
    rw [fcntl_f_rest, hrel.unhooked, List.foldl_append]
    rfl

theorem managed_set {ctx : FdCtx} (hctx : managed h = some ctx) (k : Fd σ) (v : Bool) :
    managed (⟨k, some (ctx.setUsrNonBlock v)⟩ : Hooked σ) = some (ctx.setUsrNonBlock v) := by
  obtain ⟨-, hopen⟩ := Option.filter_eq_some_iff.mp hctx
  exact Option.filter_eq_some_iff.mpr ⟨rfl, hopen⟩

theorem fcntl_setfl {ctx : FdCtx} (hctx : managed h = some ctx) (hsys : ctx.sysNonBlock = true)
    (arg : BitVec 32) (fails : Bool) :
    fcntl K ⟨.setfl arg, fails⟩ h = passOn K ⟨.setfl (arg ||| O_NONBLOCK), fails⟩
      { h with ctx := some (ctx.setUsrNonBlock (nonblock arg)) } := by
  simp only [fcntl, hctx, hsys, ↓reduceIte]

theorem Rel.setfl (hrel : Rel K type rest before h u) (arg : BitVec 32) (fails : Bool) :
    Rel K type rest (before ++ [⟨.setfl arg, fails⟩]) (fcntl K ⟨.setfl arg, fails⟩ h).2
      (fcntl_f K ⟨.setfl arg, fails⟩ u).2 := by
  obtain ⟨ctx, hctx, hsys, -⟩ := hrel.ctx
  rw [fcntl_setfl hctx hsys]
  refine ⟨⟨ctx.setUsrNonBlock (nonblock arg), managed_set hctx _ _, hsys, ?_⟩, ?_, ?_, ?_, ?_⟩
  · rw [List.foldl_append]
    rfl
  · cases fails with
    | true => exact hrel.agree
    | false => exact hrel.agree.set K.settable
  · rw [List.foldl_append, ← hrel.flag]
    cases fails with
    | true => rfl
    | false =>
      show nonblock ((u.flags &&& ~~~K.settable) ||| (arg &&& K.settable)) = nonblock arg
      simp [K.nonblock_settable]
  · rw [List.map_append, List.foldl_append, ← hrel.hooked]
    exact fcntl_f_rest K _ _
  · rw [List.foldl_append, ← hrel.unhooked]
    exact fcntl_f_rest K _ _

theorem fcntl_getfl {ctx : FdCtx} (hctx : managed h = some ctx) (fails : Bool) :
    fcntl K ⟨.getfl, fails⟩ h =
      (if ctx.usrNonBlock then (fcntl_f K ⟨.getfl, fails⟩ h.kernel).1 ||| O_NONBLOCK
        else (fcntl_f K ⟨.getfl, fails⟩ h.kernel).1 &&& ~~~O_NONBLOCK,
        { h with kernel := (fcntl_f K ⟨.getfl, fails⟩ h.kernel).2 }) := by
  have hsame : managed (passOn K ⟨.getfl, fails⟩ h).2 = some ctx := hctx
  simp only [fcntl, hsame]
  cases ctx.usrNonBlock <;> rfl

/-- The masked flags are the unhooked ones exactly if the masked bit is. -/
theorem masked_eq_iff {flags flags' : BitVec 32} (hagree : Agree flags flags') (usr : Bool) :
    (if usr then flags ||| O_NONBLOCK else flags &&& ~~~O_NONBLOCK) = flags' ↔
      usr = nonblock flags' := by
  have hnb : nonblock O_NONBLOCK = true := by decide
  cases usr with
  | true =>
    rw [if_pos rfl]
    constructor
    · rintro rfl
      simp [hnb]
    · intro hflag
      exact hagree.or.eq (by simp [hnb, ← hflag])
  | false =>
    rw [if_neg Bool.false_ne_true]
    constructor
    · rintro rfl
      simp [hnb]
    · intro hflag
      exact hagree.and_not.eq (by simp [hnb, ← hflag])

theorem Rel.getfl_iff (hrel : Rel K type rest before h u) (fails : Bool) :
    (fcntl K ⟨.getfl, fails⟩ h).1 = (fcntl_f K ⟨.getfl, fails⟩ u).1 ↔
      Meets K type rest before ⟨.getfl, fails⟩ := by
  obtain ⟨ctx, hctx, -, husr⟩ := hrel.ctx
  rw [fcntl_getfl hctx]
  cases fails with
  | true =>
    have hminus : Agree (-1) (-1) := fun i _ => rfl
    refine (masked_eq_iff hminus ctx.usrNonBlock).trans ?_
    rw [husr]
    rfl
  | false =>
    refine (masked_eq_iff hrel.agree ctx.usrNonBlock).trans ?_
    rw [husr, hrel.flag]
    rfl

theorem discarded_iff {a : Attempt} {st : σ} (hrest : u.rest = st)
    (hset : ∀ arg, a.call ≠ .setfl arg) (hget : a.call ≠ .getfl)
    (hdiscard : fcntl K a h = discard K a h) :
    (fcntl K a h).1 = (fcntl_f K a u).1 ↔ a.fails = true ∨ (K.other a.call st).1 = -1 := by
  rw [hdiscard, fcntl_f_result K hset hget, hrest]
  show -1 = _ ↔ _
  cases a.fails with
  | true => simp
  | false => simp [eq_comm]

theorem passed_iff {a : Attempt} {st st' : σ} (hhooked : h.kernel.rest = st) (hrest : u.rest = st')
    (hset : ∀ arg, a.call ≠ .setfl arg) (hget : a.call ≠ .getfl)
    (hpass : fcntl K a h = passOn K (forwarded a) h) :
    (fcntl K a h).1 = (fcntl_f K a u).1 ↔
      a.fails = true ∨ (K.other (forwarded a).call st).1 = (K.other a.call st').1 := by
  rw [hpass, fcntl_f_result K hset hget, ← hhooked, ← hrest]
  show (fcntl_f K (forwarded a) h.kernel).1 = _ ↔ _
  rw [fcntl_f_result K (forwarded_setfl hset) (forwarded_getfl hget), forwarded_fails]
  cases a.fails with
  | true => simp
  | false => simp

/-- Both worlds stay related, and the program sees the same result exactly if the
call meets the condition. -/
theorem Rel.step (hrel : Rel K type rest before h u) (a : Attempt) :
    Rel K type rest (before ++ [a]) (fcntl K a h).2 (fcntl_f K a u).2 ∧
      ((fcntl K a h).1 = (fcntl_f K a u).1 ↔ Meets K type rest before a) := by
  rcases a with ⟨call, fails⟩
  cases call with
  | setfl arg =>
    refine ⟨hrel.setfl arg fails, iff_of_true ?_ trivial⟩
    obtain ⟨ctx, hctx, hsys, -⟩ := hrel.ctx
    rw [fcntl_setfl hctx hsys]
    cases fails <;> rfl
  | getfl =>
    refine ⟨?_, hrel.getfl_iff fails⟩
    obtain ⟨ctx, hctx, -⟩ := hrel.ctx
    rw [fcntl_getfl hctx]
    exact hrel.forward (by simp)
  | int cmd arg =>
    exact ⟨hrel.forward (by simp), discarded_iff hrel.unhooked (by simp) (by simp) rfl⟩
  | void cmd =>
    exact ⟨hrel.forward (by simp), discarded_iff hrel.unhooked (by simp) (by simp) rfl⟩
  | lock cmd arg =>
    exact ⟨hrel.forward (by simp), discarded_iff hrel.unhooked (by simp) (by simp) rfl⟩
  | owner cmd arg =>
    exact ⟨hrel.forward (by simp), passed_iff hrel.hooked hrel.unhooked (by simp) (by simp) rfl⟩
  | other cmd arg =>
    exact ⟨hrel.forward (by simp), passed_iff hrel.hooked hrel.unhooked (by simp) (by simp) rfl⟩

/-! ## All calls -/

theorem Rel.returns_iff (hrel : Rel K type rest before h u) (calls : List Attempt) :
    returns (fcntl K) h calls = returns (fcntl_f K) u calls ↔
      ∀ later a tail, calls = later ++ a :: tail → Meets K type rest (before ++ later) a := by
  induction calls generalizing before h u with
  | nil => exact iff_of_true rfl fun later a tail he => absurd he.symm (by simp)
  | cons a calls ih =>
    obtain ⟨hnext, hiff⟩ := hrel.step a
    show _ :: _ = _ :: _ ↔ _
    rw [List.cons.injEq, hiff, ih hnext]
    constructor
    · rintro ⟨ha, hrest⟩ later b tail he
      cases later with
      | nil =>
        obtain ⟨rfl, -⟩ := List.cons.inj he
        rw [List.append_nil]
        exact ha
      | cons x later =>
        obtain ⟨rfl, htail⟩ := List.cons.inj he
        have hb := hrest later b tail htail
        rwa [List.append_assoc] at hb
    · intro hall
      refine ⟨?_, fun later b tail he => ?_⟩
      · have ha := hall [] a calls rfl
        rwa [List.append_nil] at ha
      · rw [List.append_assoc]
        exact hall (a :: later) b tail (by rw [he]; rfl)

theorem Rel.nonblock_step (hrel : Rel K type rest before h u) (a : Attempt)
    (hset : nonblock h.kernel.flags = true) : nonblock (fcntl K a h).2.kernel.flags = true := by
  rcases a with ⟨call, fails⟩
  cases call with
  | setfl arg =>
    obtain ⟨ctx, hctx, hsys, -⟩ := hrel.ctx
    rw [fcntl_setfl hctx hsys]
    cases fails with
    | true => exact hset
    | false =>
      show nonblock ((h.kernel.flags &&& ~~~K.settable) ||| ((arg ||| O_NONBLOCK) &&& K.settable)) = _
      have hnb : nonblock O_NONBLOCK = true := by decide
      simp [K.nonblock_settable, hnb]
  | getfl =>
    obtain ⟨ctx, hctx, -⟩ := hrel.ctx
    rw [fcntl_getfl hctx]
    show nonblock (fcntl_f K ⟨.getfl, fails⟩ h.kernel).2.flags = true
    rw [fcntl_f_flags K (by simp)]
    exact hset
  | int cmd arg => exact (congrArg nonblock (fcntl_f_flags K (by simp) _)).trans hset
  | void cmd => exact (congrArg nonblock (fcntl_f_flags K (by simp) _)).trans hset
  | lock cmd arg => exact (congrArg nonblock (fcntl_f_flags K (by simp) _)).trans hset
  | owner cmd arg => exact (congrArg nonblock (fcntl_f_flags K (by simp) _)).trans hset
  | other cmd arg => exact (congrArg nonblock (fcntl_f_flags K (by simp) _)).trans hset

theorem Rel.nonblock_after (hrel : Rel K type rest before h u) (calls : List Attempt)
    (hset : nonblock h.kernel.flags = true) :
    nonblock (after (fcntl K) h calls).kernel.flags = true := by
  induction calls generalizing before h u with
  | nil => exact hset
  | cons a calls ih => exact ih (hrel.step a).1 (hrel.nonblock_step a hset)

/-! ## The new socket -/

theorem nonblock_socket_f (domain type protocol : BitVec 32) :
    nonblock (socket_f K domain type protocol).flags = nonblock type := by
  have hrdwr : nonblock O_RDWR = false := by decide
  have hsock : nonblock SOCK_NONBLOCK = true := by decide
  simp [socket_f, hrdwr, hsock]

/-- `init` sets the flag if it is not set, and both its calls succeed. -/
theorem init_eq (getFails setFails : Bool) (fd : Fd σ) :
    init K getFails setFails fd =
      if getFails || setFails || nonblock fd.flags then fd
      else
        { fd with flags :=
            (fd.flags &&& ~~~K.settable) ||| ((fd.flags ||| O_NONBLOCK) &&& K.settable) } := by
  have hminus : nonblock (-1) = true := by decide
  cases getFails with
  | true =>
    show (if !nonblock (-1) then (fcntl_f K ⟨.setfl (-1 ||| O_NONBLOCK), setFails⟩ fd).2 else fd) = fd
    rw [hminus]
    rfl
  | false =>
    cases hflag : nonblock fd.flags with
    | true => simp [init, fcntl_f, hflag]
    | false => cases setFails <;> simp [init, fcntl_f, hflag]

theorem socket_rel (fd : Int) (domain type protocol : BitVec 32) (getFails setFails : Bool) :
    Rel K type (K.fresh domain type protocol) []
      (socket K fd domain type protocol getFails setFails) (socket_f K domain type protocol) where
  ctx := ⟨FdCtx.new fd (some true), rfl, rfl, rfl⟩
  agree := by
    rw [socket, init_eq]
    split
    · exact fun i _ => rfl
    · intro i hi
      have hsame : ∀ b s : Bool, (b && !s || b && s) = b := by decide
      simp only [BitVec.getLsbD_or, BitVec.getLsbD_and, BitVec.getLsbD_not, getLsbD_O_NONBLOCK,
        decide_eq_false hi, Bool.or_false]
      by_cases hlt : i < 32
      · simp [hlt, hsame]
      · simp [BitVec.getLsbD_of_ge _ i (Nat.not_lt.mp hlt)]
  flag := nonblock_socket_f domain type protocol
  hooked := by
    rw [socket, init_eq]
    split <;> rfl
  unhooked := rfl

/-- Both calls of `FdCtx::init` have to succeed where they are needed. -/
theorem nonblock_socket (fd : Int) (domain type protocol : BitVec 32) (getFails setFails : Bool) :
    nonblock (socket K fd domain type protocol getFails setFails).kernel.flags = true ↔
      nonblock type = true ∨ getFails = false ∧ setFails = false := by
  have hnb : nonblock O_NONBLOCK = true := by decide
  rw [socket, init_eq]
  cases getFails with
  | true => simp [nonblock_socket_f]
  | false =>
    cases setFails with
    | true => simp [nonblock_socket_f]
    | false =>
      cases htype : nonblock type with
      | true => simp [nonblock_socket_f, htype]
      | false => simp [nonblock_socket_f, htype, K.nonblock_settable, hnb]

/-- A new socket and any calls on it: the hooks are transparent exactly if the
kernel's flag is set at the start and each call meets the condition. -/
theorem transparent_iff (K : Kernel σ) (fd : Int) (domain type protocol : BitVec 32)
    (getFails setFails : Bool) (calls : List Attempt) :
    Transparent K (socket K fd domain type protocol getFails setFails)
        (socket_f K domain type protocol) calls ↔
      (nonblock type = true ∨ getFails = false ∧ setFails = false) ∧
        ∀ before a later, calls = before ++ a :: later →
          Meets K type (K.fresh domain type protocol) before a := by
  have hrel := socket_rel (K := K) fd domain type protocol getFails setFails
  rw [Transparent, hrel.returns_iff, ← nonblock_socket (K := K) fd domain type protocol]
  constructor
  · rintro ⟨hmeets, hall⟩
    exact ⟨hall 0, hmeets⟩
  · rintro ⟨hset, hmeets⟩
    exact ⟨hmeets, fun n => hrel.nonblock_after _ hset⟩

/-- A kernel with descriptors that know nothing but their flags. -/
def flagsOnly : Kernel Unit where
  settable := O_NONBLOCK
  nonblock_settable := by decide
  fresh _ _ _ := ()
  other _ _ := (0, ())

/-- After `socket(.., SOCK_NONBLOCK, ..)` F_GETFL says that the socket blocks. -/
theorem nonblock_forgotten : ¬ ∀ (σ : Type) (K : Kernel σ) (fd : Int)
    (domain type protocol : BitVec 32) (getFails setFails : Bool) (calls : List Attempt),
    Transparent K (socket K fd domain type protocol getFails setFails)
      (socket_f K domain type protocol) calls := by
  intro hall
  have hsame := (hall Unit flagsOnly 5 0 SOCK_NONBLOCK 0 false false [⟨.getfl, false⟩]).1
  exact absurd hsame (by decide)

end Fcntl
end TwServer
