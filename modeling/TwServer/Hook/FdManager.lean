import Mathlib.Logic.Function.Basic
import TwServer.Lib.Program
import TwServer.Lib.Runs
import TwServer.Timer.Model

/-! `tw::FdManager` under any number of threads. `get` looks under the read lock,
makes a new `FdCtx` without a lock, and stores it under the write lock; the store
does not look again at what the slot holds by then. The sizes are compared as `int`s. -/

namespace TwServer
open Programs Runs

/-- A value of type `size_t` as an `int`. -/
def castInt (n : Nat) : Int :=
  if n % 2 ^ 32 < 2 ^ 31 then ((n % 2 ^ 32 : Nat) : Int) else ((n % 2 ^ 32 : Nat) : Int) - 2 ^ 32

theorem castInt_of_lt {n : Nat} (h : n < 2 ^ 31) : castInt n = n := by
  unfold castInt
  split <;> omega

/-- The sizes that `fd * 1.5` can reach past `INT_MAX` are negative. -/
theorem castInt_neg {n : Nat} (h : 2 ^ 31 ≤ n) (hlt : n < 2 ^ 32) : castInt n < 0 := by
  unfold castInt
  split <;> omega

theorem castInt_le (n : Nat) : castInt n ≤ n := by
  unfold castInt
  split <;> omega

theorem castInt_lt (n : Nat) : castInt n < 2 ^ 31 := by
  unfold castInt
  split <;> omega

theorem lt_castInt_iff {n fd : Nat} (hlt : n < 2 ^ 32) :
    (fd : Int) < castInt n ↔ n < 2 ^ 31 ∧ fd < n := by
  by_cases h : n < 2 ^ 31
  · rw [castInt_of_lt h]
    omega
  · have hneg := castInt_neg (Nat.not_lt.mp h) hlt
    omega

/-! ## The context of one descriptor -/

/-- The two values of `type` that the callers pass. -/
inductive TimeoutType where
  | recv
  | send
  deriving DecidableEq, Repr

/-- The timeouts are `uint64_t`. -/
structure FdCtx where
  isInit : Bool
  isSocket : Bool
  sysNonBlock : Bool
  usrNonBlock : Bool
  isClosed : Bool
  fd : Int
  recvTimeout : Nat
  sendTimeout : Nat
  deriving DecidableEq, Repr

namespace FdCtx

/-- What the constructor leaves. `stat` is what `fstat` says: whether the descriptor is a
socket, `none` if the call fails. -/
def new (fd : Int) (stat : Option Bool) : FdCtx where
  isInit := stat.isSome
  isSocket := stat == some true
  sysNonBlock := stat == some true
  usrNonBlock := false
  isClosed := false
  fd := fd
  recvTimeout := noTimeout
  sendTimeout := noTimeout

/-- `!(ctx->isClosed() || !ctx->isSocket())`. -/
def managed (c : FdCtx) : Bool := !c.isClosed && c.isSocket

def getTimeout (type : TimeoutType) (c : FdCtx) : Nat :=
  match type with
  | .recv => c.recvTimeout
  | .send => c.sendTimeout

def setTimeout (type : TimeoutType) (timeout : Nat) (c : FdCtx) : FdCtx :=
  match type with
  | .recv => { c with recvTimeout := timeout }
  | .send => { c with sendTimeout := timeout }

def setUsrNonBlock (v : Bool) (c : FdCtx) : FdCtx := { c with usrNonBlock := v }

def setSysNonBlock (v : Bool) (c : FdCtx) : FdCtx := { c with sysNonBlock := v }

end FdCtx

/-! ## The table -/

abbrev FdCtxId := Nat

structure FdManager where
  fds : List (Option FdCtxId)

namespace FdManager

def new : FdManager := ⟨List.replicate 64 none⟩

/-- `m_fds.resize`. -/
def resize (size : Nat) (m : FdManager) : FdManager :=
  ⟨m.fds.take size ++ List.replicate (size - m.fds.length) none⟩

/-- `get` up to `lock.unlock()`: what it returns, `none` if it goes on. -/
def look (fd : Int) (autoCreate : Bool) : Program FdManager (Option (Option FdCtxId)) := fun m =>
  if fd = -1 then .ok (some none) m
  else if castInt m.fds.length ≤ fd then
    if !autoCreate then .ok (some none) m else .ok none m
  else if fd < 0 then .fault .outOfBounds
  else
    match m.fds[fd.toNat]? with
    | none => .fault .outOfBounds
    | some ctx => if ctx.isSome || !autoCreate then .ok (some ctx) m else .ok none m

/-- `fd * 1.5` is exact and loses its half in the `size_t`. -/
def grow (fd : Int) (m : FdManager) : FdManager :=
  if castInt m.fds.length ≤ fd then m.resize (fd * 3 / 2).toNat else m

/-- `get` under the write lock. -/
def store (fd : Int) (ctx : FdCtxId) : Program FdManager Unit := fun m =>
  let m := m.grow fd
  if fd < 0 ∨ (m.fds.length : Int) ≤ fd then .fault .outOfBounds
  else .ok () ⟨m.fds.set fd.toNat (some ctx)⟩

def del (fd : Int) : Program FdManager Unit := fun m =>
  if castInt m.fds.length ≤ fd then .ok () m
  else if fd < 0 then .fault .outOfBounds
  else .ok () ⟨m.fds.set fd.toNat none⟩

/-- `m_fds[fd]`, null past the end. -/
def slot (m : FdManager) (fd : Int) : Option FdCtxId :=
  if fd < 0 then none else m.fds[fd.toNat]?.join

/-- What `get(fd)` returns. -/
def found (m : FdManager) (fd : Int) : Option FdCtxId :=
  if castInt m.fds.length ≤ fd then none else m.slot fd

/-! ## A call of `get` -/

/-- What the threads share. The contexts made so far are numbered below `next`. -/
structure Shared where
  mgr : FdManager
  ctxs : FdCtxId → FdCtx
  next : FdCtxId

/-- What the calls did under the lock that decided them. -/
inductive Event where
  | got (fd : Int) (autoCreate : Bool) (ctx : Option FdCtxId)
  | deleted (fd : Int)
  deriving DecidableEq, Repr

/-- Where a call of `get` stands. For a socket `FdCtx::init` calls the hooked `fcntl` twice,
which looks in the table and may find a context `other` that another call has stored. -/
inductive Place where
  /-- before the read lock -/
  | looking
  /-- before `new FdCtx(fd)` -/
  | creating
  /-- before the `get(fd)` of F_GETFL -/
  | getfl (ctx : FdCtxId)
  /-- before `getUsrNonBlock()` -/
  | testing (ctx other : FdCtxId)
  /-- before the `get(fd)` of F_SETFL -/
  | setfl (ctx : FdCtxId)
  /-- before `setUsrNonBlock(true)` -/
  | flagging (ctx other : FdCtxId)
  /-- before the write lock -/
  | storing (ctx : FdCtxId)
  deriving DecidableEq, Repr

/-- The context that the call has made. -/
def Place.ctx : Place → Option FdCtxId
  | looking | creating => none
  | getfl ctx | testing ctx _ | setfl ctx | flagging ctx _ | storing ctx => some ctx

def Place.other : Place → Option FdCtxId
  | testing _ other | flagging _ other => some other
  | looking | creating | getfl _ | setfl _ | storing _ => none

/-- The context that `fcntl` takes for the descriptor's. -/
def Shared.managed (s : Shared) (ctx : Option FdCtxId) : Option FdCtxId :=
  ctx.filter fun c => (s.ctxs c).managed

/-- Where F_GETFL leaves `init`; `nonblock` is the kernel's flag. -/
def Shared.afterGetfl (s : Shared) (ctx : FdCtxId) (found : Option FdCtxId) (nonblock : Bool) :
    Place :=
  match s.managed found with
  | some other => .testing ctx other
  | none => if nonblock then .storing ctx else .setfl ctx

def Shared.afterSetfl (s : Shared) (ctx : FdCtxId) (found : Option FdCtxId) : Place :=
  match s.managed found with
  | some other => .flagging ctx other
  | none => .storing ctx

/-- A step of `get(fd, autoCreate)`, with what it returns to whom, and where the call stands
then, `none` once it has returned. -/
inductive GetStep (fd : Int) (autoCreate : Bool) (stat : Option Bool) :
    Shared → Place → List Event → Shared → Option Place → Prop
  | found {s : Shared} {ctx : Option FdCtxId} {m : FdManager}
      (run : look fd autoCreate s.mgr = .ok (some ctx) m) :
      GetStep fd autoCreate stat s .looking [.got fd autoCreate ctx] { s with mgr := m } none
  | missed {s : Shared} {m : FdManager} (run : look fd autoCreate s.mgr = .ok none m) :
      GetStep fd autoCreate stat s .looking [] { s with mgr := m } (some .creating)
  | create {s : Shared} :
      GetStep fd autoCreate stat s .creating []
        { s with
          ctxs := Function.update s.ctxs s.next (FdCtx.new fd stat)
          next := s.next + 1 }
        (some (if stat = some true then .getfl s.next else .storing s.next))
  | getfl {s : Shared} {ctx : FdCtxId} {r : Option FdCtxId} {m : FdManager} (nonblock : Bool)
      (run : look fd false s.mgr = .ok (some r) m) :
      GetStep fd autoCreate stat s (.getfl ctx) [.got fd false r] { s with mgr := m }
        (some (s.afterGetfl ctx r nonblock))
  | test {s : Shared} {ctx other : FdCtxId} :
      GetStep fd autoCreate stat s (.testing ctx other) [] s
        (some (if (s.ctxs other).usrNonBlock then .storing ctx else .setfl ctx))
  | setfl {s : Shared} {ctx : FdCtxId} {r : Option FdCtxId} {m : FdManager}
      (run : look fd false s.mgr = .ok (some r) m) :
      GetStep fd autoCreate stat s (.setfl ctx) [.got fd false r] { s with mgr := m }
        (some (s.afterSetfl ctx r))
  | flag {s : Shared} {ctx other : FdCtxId} :
      GetStep fd autoCreate stat s (.flagging ctx other) []
        { s with ctxs := Function.update s.ctxs other ((s.ctxs other).setUsrNonBlock true) }
        (some (.storing ctx))
  | store {s : Shared} {ctx : FdCtxId} {m : FdManager} (run : store fd ctx s.mgr = .ok () m) :
      GetStep fd autoCreate stat s (.storing ctx) [.got fd true (some ctx)] { s with mgr := m } none

/-! ## The threads -/

structure Call where
  fd : Int
  autoCreate : Bool
  place : Place
  deriving DecidableEq, Repr

/-- `log` has the latest event first. -/
structure State (T : Type) where
  shared : Shared
  calls : T → Option Call
  log : List Event

variable {T : Type} [DecidableEq T]

inductive Label (T : Type) where
  | get (t : T) (fd : Int) (autoCreate : Bool)
  /-- the thread goes on in its `get` -/
  | go (t : T)
  | del (t : T) (fd : Int)
  | setTimeout (ctx : FdCtxId)
  | setNonBlock (ctx : FdCtxId)

def State.setCtx (s : State T) (ctx : FdCtxId) (c : FdCtx) : State T :=
  { s with shared := { s.shared with ctxs := Function.update s.shared.ctxs ctx c } }

inductive Step : State T → Label T → State T → Prop
  | get {s : State T} {t : T} (fd : Int) (autoCreate : Bool) (idle : s.calls t = none)
      (isInt : fd < 2 ^ 31) :
      Step s (.get t fd autoCreate)
        { s with calls := Function.update s.calls t (some ⟨fd, autoCreate, .looking⟩) }
  | go {s : State T} {t : T} {c : Call} {es : List Event} {sh : Shared} {place : Option Place}
      (stat : Option Bool) (call : s.calls t = some c)
      (step : GetStep c.fd c.autoCreate stat s.shared c.place es sh place) :
      Step s (.go t)
        { shared := sh
          calls := Function.update s.calls t (place.map fun p => { c with place := p })
          log := es ++ s.log }
  | del {s : State T} {t : T} {m : FdManager} (fd : Int) (idle : s.calls t = none)
      (isInt : fd < 2 ^ 31) (run : del fd s.shared.mgr = .ok () m) :
      Step s (.del t fd)
        { s with shared := { s.shared with mgr := m }, log := .deleted fd :: s.log }
  | setTimeout {s : State T} (ctx : FdCtxId) (type : TimeoutType) (timeout : Nat) :
      Step s (.setTimeout ctx) (s.setCtx ctx ((s.shared.ctxs ctx).setTimeout type timeout))
  | setUsrNonBlock {s : State T} (ctx : FdCtxId) (v : Bool) :
      Step s (.setNonBlock ctx) (s.setCtx ctx ((s.shared.ctxs ctx).setUsrNonBlock v))
  | setSysNonBlock {s : State T} (ctx : FdCtxId) (v : Bool) :
      Step s (.setNonBlock ctx) (s.setCtx ctx ((s.shared.ctxs ctx).setSysNonBlock v))

def init (s : State T) : Prop := s.shared.mgr = new ∧ (∀ t, s.calls t = none) ∧ s.log = []

def machine : System (State T) (Label T) := ⟨init, Step⟩

/-! ## What is promised, and when it is kept -/

/-- Once `get(fd, true)` has returned a context, every `get(fd)` returns the same
one until `del(fd)`. -/
def OneCtx (log : List Event) : Prop :=
  ∀ later between earlier fd autoCreate r ctx,
    log = later ++ .got fd autoCreate r :: between ++ .got fd true (some ctx) :: earlier →
    .deleted fd ∉ between → r = some ctx

/-- The context that the latest `get(fd, true)` since the last `del(fd)` returned. -/
def held (fd : Int) : List Event → Option FdCtxId
  | [] => none
  | .got fd' true (some ctx) :: log => if fd' = fd then some ctx else held fd log
  | .got _ _ _ :: log => held fd log
  | .deleted fd' :: log => if fd' = fd then none else held fd log

/-- There is one context for each descriptor, and the table holds it. -/
structure Keeps (s : State T) : Prop where
  one : OneCtx s.log
  slots : ∀ fd, s.shared.mgr.slot fd = held fd s.log

/-- A context changes by its own setters only. -/
def Settings (s : State T) (l : Label T) (s' : State T) : Prop :=
  ∀ ctx, ctx < s.shared.next →
    s'.shared.ctxs ctx = s.shared.ctxs ctx ∨ l = .setTimeout ctx ∨ l = .setNonBlock ctx

/-- The size is no negative `int`, or there is nothing to find. -/
def Finds (m : FdManager) (fd : Int) : Prop := m.fds.length < 2 ^ 31 ∨ m.slot fd = none

/-- `resize(fd * 1.5)` takes no context away. -/
def Spares (m : FdManager) (fd : Int) : Prop :=
  m.fds.length < 2 ^ 31 ∨ ∀ fd', fd * 3 / 2 ≤ fd' → m.slot fd' = none

/-- A `get` finds what is there, a store finds the slot empty and spares the others, and a
context that the F_SETFL of another call finds has its flag set already. -/
def Shared.Meets (s : Shared) (c : Call) : Prop :=
  match c.place with
  | .looking => c.autoCreate = true ∨ s.mgr.Finds c.fd
  | .getfl _ | .setfl _ => s.mgr.Finds c.fd
  | .flagging _ other => (s.ctxs other).usrNonBlock = true
  | .storing _ => s.mgr.slot c.fd = none ∧ s.mgr.Spares c.fd
  | .creating | .testing _ _ => True

def Meets (s : State T) : Label T → Prop
  | .go t => ∀ c, s.calls t = some c → s.shared.Meets c
  | .del _ fd => s.shared.mgr.Finds fd
  | _ => True

/-! ## What each lock section does to a slot -/

theorem slot_of_neg {m : FdManager} {fd : Int} (h : fd < 0) : m.slot fd = none := if_pos h

theorem slot_of_nonneg {m : FdManager} {fd : Int} (h : 0 ≤ fd) :
    m.slot fd = m.fds[fd.toNat]?.join := if_neg (Int.not_lt.mpr h)

theorem slot_past_end {m : FdManager} {fd : Int} (h : (m.fds.length : Int) ≤ fd) :
    m.slot fd = none := by
  rw [slot_of_nonneg (by omega), List.getElem?_eq_none (by omega)]
  rfl

theorem slot_resize (m : FdManager) (size : Nat) (fd : Int) :
    (m.resize size).slot fd = if (size : Int) ≤ fd then none else m.slot fd := by
  rcases Int.lt_or_le fd 0 with hneg | hnonneg
  · rw [slot_of_neg hneg, slot_of_neg hneg]
    split <;> rfl
  · obtain ⟨n, rfl⟩ := Int.eq_ofNat_of_zero_le hnonneg
    rw [slot_of_nonneg hnonneg, slot_of_nonneg hnonneg, resize, Int.toNat_natCast]
    rcases Nat.lt_or_ge n (m.fds.take size).length with hlt | hge
    · rw [List.getElem?_append_left hlt]
      rw [List.length_take] at hlt
      rw [List.getElem?_take_of_lt (by omega), if_neg (by omega)]
    · rw [List.getElem?_append_right hge, List.getElem?_replicate, List.length_take]
      rw [List.length_take] at hge
      split
      · rw [if_neg (by omega), List.getElem?_eq_none (by omega)]
        rfl
      · split
        · rfl
        · rw [List.getElem?_eq_none (by omega)]

theorem length_resize (size : Nat) (m : FdManager) : (m.resize size).fds.length = size := by
  simp only [resize, List.length_append, List.length_take, List.length_replicate]
  omega

theorem slot_set {l : List (Option FdCtxId)} {fd : Int} (h : 0 ≤ fd) (hlt : fd < l.length)
    (ctx : Option FdCtxId) (fd' : Int) :
    slot ⟨l.set fd.toNat ctx⟩ fd' = if fd' = fd then ctx else slot ⟨l⟩ fd' := by
  by_cases he : fd' = fd
  · subst he
    have hlt' : fd'.toNat < l.length := by omega
    rw [if_pos rfl, slot_of_nonneg h, List.getElem?_set_self hlt']
    rfl
  · rw [if_neg he]
    rcases Int.lt_or_le fd' 0 with hneg | hnonneg
    · rw [slot_of_neg hneg, slot_of_neg hneg]
    · have hne : fd.toNat ≠ fd'.toNat := by omega
      rw [slot_of_nonneg hnonneg, slot_of_nonneg hnonneg, List.getElem?_set_ne hne]

theorem found_some {m : FdManager} {fd : Int} {ctx : FdCtxId} (h : m.found fd = some ctx) :
    m.slot fd = some ctx := by
  unfold found at h
  split at h
  · cases h
  · exact h

theorem found_eq_slot_iff {m : FdManager} {fd : Int} (hlt : m.fds.length < 2 ^ 32) :
    m.found fd = m.slot fd ↔ m.Finds fd := by
  unfold found Finds
  by_cases h : m.fds.length < 2 ^ 31
  · refine iff_of_true ?_ (Or.inl h)
    split
    · rename_i hle
      rw [castInt_of_lt h] at hle
      exact (slot_past_end hle).symm
    · rfl
  · rw [or_iff_right h]
    have hneg := castInt_neg (Nat.not_lt.mp h) hlt
    split
    · exact eq_comm
    · rename_i hlt'
      exact iff_of_true rfl (slot_of_neg (by omega))

theorem look_found {m m' : FdManager} {fd : Int} {autoCreate : Bool} {ctx : Option FdCtxId}
    (h : look fd autoCreate m = .ok (some ctx) m') : m' = m ∧ ctx = m.found fd := by
  unfold look at h
  split at h
  · subst fd
    cases h
    refine ⟨rfl, ?_⟩
    unfold found
    split <;> rfl
  · split at h
    · rename_i hle
      rw [found, if_pos hle]
      split at h
      · cases h
        exact ⟨rfl, rfl⟩
      · cases h
    · rename_i hle
      split at h
      · cases h
      · rename_i hnonneg
        rw [found, if_neg hle, slot_of_nonneg (Int.not_lt.mp hnonneg)]
        split at h
        · cases h
        · rename_i hslot
          rw [hslot]
          split at h
          · cases h
            exact ⟨rfl, rfl⟩
          · cases h

/-- `get(fd, true)` returns null for no descriptor but -1. -/
theorem look_auto {m m' : FdManager} {fd : Int} {ctx : Option FdCtxId}
    (h : look fd true m = .ok (some ctx) m') (hfd : fd ≠ -1) : ctx.isSome = true := by
  unfold look at h
  rw [if_neg hfd] at h
  split at h
  · simp at h
  · split at h
    · cases h
    · split at h
      · cases h
      · split at h
        · rename_i hsome
          cases h
          simpa using hsome
        · cases h

theorem look_slot {m m' : FdManager} {fd : Int} {ctx : Option FdCtxId}
    (h : look fd true m = .ok (some ctx) m') : ctx = m.slot fd := by
  have hfound := (look_found h).2
  by_cases hfd : fd = -1
  · subst fd
    rw [hfound, found]
    split <;> rfl
  · obtain ⟨c, rfl⟩ := Option.isSome_iff_exists.mp (look_auto h hfd)
    exact (found_some hfound.symm).symm

theorem look_false {m m' : FdManager} {fd : Int} : look fd false m ≠ .ok none m' := by
  unfold look
  split
  · simp
  · split
    · simp
    · split
      · simp
      · split
        · simp
        · simp

theorem look_missed {m m' : FdManager} {fd : Int} {autoCreate : Bool}
    (h : look fd autoCreate m = .ok none m') : m' = m := by
  unfold look at h
  split at h
  · cases h
  · split at h
    · split at h
      · cases h
      · cases h
        rfl
    · split at h
      · cases h
      · split at h
        · cases h
        · split at h
          · cases h
          · cases h
            rfl

theorem store_cases {m m' : FdManager} {fd : Int} {ctx : FdCtxId}
    (h : store fd ctx m = .ok () m') : 0 ≤ fd ∧ fd < (m.grow fd).fds.length ∧
      m' = ⟨(m.grow fd).fds.set fd.toNat (some ctx)⟩ := by
  unfold store at h
  dsimp only at h
  split at h
  · cases h
  · cases h
    exact ⟨by omega, by omega, rfl⟩

theorem store_length {m m' : FdManager} {fd : Int} {ctx : FdCtxId}
    (h : store fd ctx m = .ok () m') :
    0 ≤ fd ∧ if castInt m.fds.length ≤ fd then fd < fd * 3 / 2 ∧ m'.fds.length = fd * 3 / 2
      else m'.fds.length = m.fds.length := by
  obtain ⟨hnonneg, hroom, rfl⟩ := store_cases h
  refine ⟨hnonneg, ?_⟩
  rw [List.length_set]
  split
  · rename_i hle
    rw [grow, if_pos hle, length_resize] at hroom ⊢
    omega
  · rename_i hlt
    rw [grow, if_neg hlt]

theorem store_slot {m m' : FdManager} {fd : Int} {ctx : FdCtxId}
    (h : store fd ctx m = .ok () m') (fd' : Int) :
    m'.slot fd' = if fd' = fd then some ctx
      else if castInt m.fds.length ≤ fd ∧ fd * 3 / 2 ≤ fd' then none else m.slot fd' := by
  obtain ⟨hnonneg, hroom, rfl⟩ := store_cases h
  rw [slot_set hnonneg hroom]
  refine if_congr Iff.rfl rfl ?_
  show (m.grow fd).slot fd' = _
  by_cases hle : castInt m.fds.length ≤ fd
  · have hsize : ((fd * 3 / 2).toNat : Int) = fd * 3 / 2 := by omega
    rw [grow, if_pos hle, slot_resize, hsize]
    exact if_congr (and_iff_right hle).symm rfl rfl
  · rw [grow, if_neg hle, if_neg fun h => hle h.1]

theorem store_self {m m' : FdManager} {fd : Int} {ctx : FdCtxId}
    (h : store fd ctx m = .ok () m') : m'.slot fd = some ctx := (store_slot h fd).trans (if_pos rfl)

theorem store_spares_iff {m m' : FdManager} {fd : Int} {ctx : FdCtxId}
    (hlt : m.fds.length < 2 ^ 32) (h : store fd ctx m = .ok () m') :
    (∀ fd', fd' ≠ fd → m'.slot fd' = m.slot fd') ↔ m.Spares fd := by
  have hlength := store_length h
  constructor
  · intro hkept
    by_cases hsmall : m.fds.length < 2 ^ 31
    · exact Or.inl hsmall
    · have hneg := castInt_neg (Nat.not_lt.mp hsmall) hlt
      have hle : castInt m.fds.length ≤ fd := by omega
      rw [if_pos hle] at hlength
      refine Or.inr fun fd' hge => ?_
      rw [← hkept fd' (by omega), store_slot h, if_neg (by omega), if_pos ⟨hle, hge⟩]
  · intro hspares fd' hne
    rw [store_slot h, if_neg hne]
    refine ite_eq_right_iff.mpr ?_
    rintro ⟨hle, hge⟩
    rcases hspares with hsmall | hnone
    · -- the table grows past `fd`
      rw [if_pos hle] at hlength
      rw [castInt_of_lt hsmall] at hle
      exact (slot_past_end (by omega)).symm
    · exact (hnone fd' hge).symm

theorem del_some {m m' : FdManager} {fd fd' : Int} {ctx : FdCtxId} (h : del fd m = .ok () m')
    (hslot : m'.slot fd' = some ctx) : m.slot fd' = some ctx := by
  unfold del at h
  split at h
  · cases h
    exact hslot
  · have hle := castInt_le m.fds.length
    split at h
    · cases h
    · cases h
      rw [slot_set (by omega) (by omega)] at hslot
      split at hslot
      · cases hslot
      · exact hslot

theorem del_of_ne {m m' : FdManager} {fd fd' : Int} (h : del fd m = .ok () m') (hne : fd' ≠ fd) :
    m'.slot fd' = m.slot fd' := by
  unfold del at h
  split at h
  · cases h
    rfl
  · have hle := castInt_le m.fds.length
    split at h
    · cases h
    · cases h
      rw [slot_set (by omega) (by omega), if_neg hne]

theorem del_self_iff {m m' : FdManager} {fd : Int} (hlt : m.fds.length < 2 ^ 32)
    (h : del fd m = .ok () m') : m'.slot fd = none ↔ m.Finds fd := by
  rw [← found_eq_slot_iff hlt, found]
  unfold del at h
  split at h
  · rename_i hin
    cases h
    rw [if_pos hin]
    exact eq_comm
  · rename_i hin
    have hle := castInt_le m.fds.length
    split at h
    · cases h
    · cases h
      rw [if_neg hin, slot_set (by omega) (by omega), if_pos rfl]
      exact iff_of_true rfl rfl

theorem del_length {m m' : FdManager} {fd : Int} (h : del fd m = .ok () m') :
    m'.fds.length = m.fds.length := by
  unfold del at h
  split at h
  · cases h
    rfl
  · split at h
    · cases h
    · cases h
      exact List.length_set

section InRange
variable {m : FdManager} (fd : Nat)

/-- A descriptor that a table of fewer than `2 ^ 31` slots has. -/
theorem look_lt (h : fd < m.fds.length) (hlt : m.fds.length < 2 ^ 31) (autoCreate : Bool) :
    look fd autoCreate m =
      if (m.slot fd).isSome || !autoCreate then .ok (some (m.slot fd)) m else .ok none m := by
  unfold look
  rw [if_neg (by omega), castInt_of_lt hlt, if_neg (by omega), if_neg (by omega),
    slot_of_nonneg (by omega), Int.toNat_natCast, List.getElem?_eq_getElem h]
  rfl

theorem store_lt (h : fd < m.fds.length) (hlt : m.fds.length < 2 ^ 31) (ctx : FdCtxId) :
    store fd ctx m = .ok () ⟨m.fds.set fd (some ctx)⟩ := by
  have hgrow : m.grow fd = m := by
    rw [grow, castInt_of_lt hlt, if_neg (by omega)]
  unfold store
  dsimp only
  rw [hgrow, if_neg (by omega), Int.toNat_natCast]

theorem del_lt (h : fd < m.fds.length) (hlt : m.fds.length < 2 ^ 31) :
    del fd m = .ok () ⟨m.fds.set fd none⟩ := by
  unfold del
  rw [castInt_of_lt hlt, if_neg (by omega), if_neg (by omega), Int.toNat_natCast]

end InRange

/-! ## What the events say about a slot -/

theorem held_got_of_ne {fd fd' : Int} {autoCreate : Bool} {r : Option FdCtxId} {log : List Event}
    (h : fd' ≠ fd) : held fd (.got fd' autoCreate r :: log) = held fd log := by
  rcases autoCreate with _ | _ <;> rcases r with _ | ctx
  · rfl
  · rfl
  · rfl
  · exact if_neg h

theorem held_got {fd : Int} {autoCreate : Bool} {r : Option FdCtxId} {log : List Event}
    (h : held fd log = r) : held fd (.got fd autoCreate r :: log) = r := by
  rcases autoCreate with _ | _ <;> rcases r with _ | ctx
  · exact h
  · exact h
  · exact h
  · exact if_pos rfl

theorem held_eq_some {fd : Int} {ctx : FdCtxId} {log : List Event} (h : held fd log = some ctx) :
    ∃ between earlier, log = between ++ .got fd true (some ctx) :: earlier ∧
      .deleted fd ∉ between := by
  induction log with
  | nil => cases h
  | cons e log ih =>
    have later : held fd log = some ctx → .deleted fd ≠ e →
        ∃ between earlier, e :: log = between ++ .got fd true (some ctx) :: earlier ∧
          .deleted fd ∉ between := by
      intro hlog hne
      obtain ⟨between, earlier, rfl, hdel⟩ := ih hlog
      exact ⟨e :: between, earlier, rfl, List.not_mem_cons_of_ne_of_not_mem hne hdel⟩
    cases e with
    | deleted fd' =>
      by_cases he : fd' = fd
      · exact absurd ((if_pos he).symm.trans h) (by simp)
      · exact later ((if_neg he).symm.trans h) fun hd => he (Event.deleted.inj hd).symm
    | got fd' autoCreate r =>
      by_cases he : fd' = fd
      · subst he
        rcases autoCreate with _ | _ <;> rcases r with _ | ctx'
        · exact later h (by simp)
        · exact later h (by simp)
        · exact later h (by simp)
        · obtain rfl : ctx' = ctx := Option.some.inj ((if_pos rfl).symm.trans h)
          exact ⟨[], log, rfl, List.not_mem_nil⟩
      · rw [held_got_of_ne he] at h
        exact later h (by simp)

theorem OneCtx.tail {e : Event} {log : List Event} (h : OneCtx (e :: log)) : OneCtx log := by
  rintro later between earlier fd autoCreate r ctx rfl hdel
  exact h (e :: later) between earlier fd autoCreate r ctx rfl hdel

theorem OneCtx.held {fd : Int} {ctx : FdCtxId} {between earlier : List Event}
    (h : OneCtx (between ++ .got fd true (some ctx) :: earlier)) (hdel : .deleted fd ∉ between) :
    held fd (between ++ .got fd true (some ctx) :: earlier) = some ctx := by
  induction between with
  | nil => exact if_pos rfl
  | cons e between ih =>
    obtain ⟨hne, hbetween⟩ := List.ne_and_not_mem_of_not_mem_cons hdel
    have hlog := ih h.tail hbetween
    cases e with
    | deleted fd' => exact (if_neg fun he => hne (congrArg _ he.symm)).trans hlog
    | got fd' autoCreate r =>
      by_cases he : fd' = fd
      · subst he
        have hr := h [] between earlier fd' autoCreate r ctx rfl hbetween
        rw [hr]
        exact held_got hlog
      · exact (held_got_of_ne he).trans hlog

/-- A `get` keeps the promise exactly if it returns what is held. -/
theorem oneCtx_got_iff {fd : Int} {autoCreate : Bool} {r : Option FdCtxId} {log : List Event}
    (h : OneCtx log) :
    OneCtx (.got fd autoCreate r :: log) ↔ ∀ ctx, FdManager.held fd log = some ctx → r = some ctx := by
  constructor
  · intro hok ctx hctx
    obtain ⟨between, earlier, rfl, hdel⟩ := held_eq_some hctx
    exact hok [] between earlier fd autoCreate r ctx rfl hdel
  · intro hr later between earlier fd' autoCreate' r' ctx hlog hdel
    cases later with
    | nil =>
      obtain ⟨hgot, rfl⟩ := List.cons.inj hlog
      cases hgot
      exact hr ctx (h.held hdel)
    | cons e later =>
      obtain ⟨-, rfl⟩ := List.cons.inj hlog
      exact h later between earlier fd' autoCreate' r' ctx rfl hdel

theorem oneCtx_deleted {fd : Int} {log : List Event} (h : OneCtx log) :
    OneCtx (.deleted fd :: log) := by
  intro later between earlier fd' autoCreate r ctx hlog hdel
  cases later with
  | nil => cases (List.cons.inj hlog).1
  | cons e later =>
    obtain ⟨-, rfl⟩ := List.cons.inj hlog
    exact h later between earlier fd' autoCreate r ctx rfl hdel

/-! ## Every reachable state -/

omit [DecidableEq T] in
theorem managed_some {s : Shared} {r : Option FdCtxId} {o : FdCtxId} (h : s.managed r = some o) :
    r = some o :=
  (Option.filter_eq_some_iff.mp h).1

/-- Where a call stands after the hooked `fcntl`, its own context is what it was, and another
one comes out of the table. -/
theorem afterGetfl_ctx {s : Shared} {ctx : FdCtxId} {r : Option FdCtxId} {nonblock : Bool} :
    (s.afterGetfl ctx r nonblock).ctx = some ctx ∧
      ∀ o, (s.afterGetfl ctx r nonblock).other = some o → r = some o := by
  unfold Shared.afterGetfl
  split
  · rename_i o hmanaged
    refine ⟨rfl, fun o' ho => ?_⟩
    cases ho
    exact managed_some hmanaged
  · cases nonblock <;> exact ⟨rfl, fun o ho => by cases ho⟩

theorem afterSetfl_ctx {s : Shared} {ctx : FdCtxId} {r : Option FdCtxId} :
    (s.afterSetfl ctx r).ctx = some ctx ∧
      ∀ o, (s.afterSetfl ctx r).other = some o → r = some o := by
  unfold Shared.afterSetfl
  split
  · rename_i o hmanaged
    refine ⟨rfl, fun o' ho => ?_⟩
    cases ho
    exact managed_some hmanaged
  · exact ⟨rfl, fun o ho => by cases ho⟩

section GetStep
variable {fd : Int} {autoCreate : Bool} {stat : Option Bool} {s sh : Shared} {p q : Place}
  {es : List Event} {place : Option Place}

/-- Only the store writes the table. -/
theorem GetStep.mgr (h : GetStep fd autoCreate stat s p es sh place) :
    sh.mgr = s.mgr ∨ ∃ ctx, p = .storing ctx ∧ place = none ∧ sh.next = s.next ∧
      FdManager.store fd ctx s.mgr = .ok () sh.mgr := by
  cases h with
  | found run | getfl _ run | setfl run => exact Or.inl (look_found run).1
  | missed run => exact Or.inl (look_missed run)
  | store run => exact Or.inr ⟨_, rfl, rfl, rfl, run⟩
  | create | test | flag => exact Or.inl rfl

/-- What a slot holds after a step it held before, or the call has just stored it. -/
theorem GetStep.slot (h : GetStep fd autoCreate stat s p es sh place) {fd' : Int} {ctx : FdCtxId}
    (hslot : sh.mgr.slot fd' = some ctx) : s.mgr.slot fd' = some ctx ∨ p = .storing ctx := by
  rcases h.mgr with hmgr | ⟨stored, hplace, -, -, hrun⟩
  · exact Or.inl (hmgr ▸ hslot)
  · rw [store_slot hrun] at hslot
    split at hslot
    · exact Or.inr (Option.some.inj hslot ▸ hplace)
    · split at hslot
      · cases hslot
      · exact Or.inl hslot

theorem GetStep.next (h : GetStep fd autoCreate stat s p es sh place) : s.next ≤ sh.next := by
  cases h with
  | create => exact Nat.le_succ _
  | _ => exact Nat.le_refl _

/-- A call keeps its context, and makes it under a new number. -/
theorem GetStep.ctx (h : GetStep fd autoCreate stat s p es sh (some q)) {ctx : FdCtxId}
    (hq : q.ctx = some ctx) : p.ctx = some ctx ∨ p = .creating ∧ ctx = s.next ∧
      sh.next = s.next + 1 ∧ sh.ctxs ctx = FdCtx.new fd stat := by
  cases h with
  | missed run => cases hq
  | create =>
    have hnext : ctx = s.next := by
      split at hq <;> exact (Option.some.inj hq).symm
    subst hnext
    exact Or.inr ⟨rfl, rfl, rfl, Function.update_self ..⟩
  | getfl nonblock run => exact Or.inl (afterGetfl_ctx.1.symm.trans hq)
  | test =>
    refine Or.inl ?_
    split at hq <;> exact hq
  | setfl run => exact Or.inl (afterSetfl_ctx.1.symm.trans hq)
  | flag => exact Or.inl hq

/-- A context of another call is one that the table holds. -/
theorem GetStep.other (h : GetStep fd autoCreate stat s p es sh (some q)) {o : FdCtxId}
    (hq : q.other = some o) : s.mgr.slot fd = some o := by
  cases h with
  | missed run => cases hq
  | create => split at hq <;> cases hq
  | getfl nonblock run =>
    rw [afterGetfl_ctx.2 o hq] at run
    exact found_some (look_found run).2.symm
  | test => split at hq <;> cases hq
  | setfl run =>
    rw [afterSetfl_ctx.2 o hq] at run
    exact found_some (look_found run).2.symm
  | flag => cases hq

theorem GetStep.returned (h : GetStep fd autoCreate stat s p es sh none) :
    (∃ r, FdManager.look fd autoCreate s.mgr = .ok (some r) sh.mgr) ∨
      ∃ ctx, p = .storing ctx ∧ FdManager.store fd ctx s.mgr = .ok () sh.mgr := by
  cases h with
  | found run => exact Or.inl ⟨_, run⟩
  | store run => exact Or.inr ⟨_, rfl, run⟩

/-- Whether `fcntl` takes a context for a descriptor's does not change. -/
theorem GetStep.managed (h : GetStep fd autoCreate stat s p es sh place) {ctx : FdCtxId}
    (hctx : ctx < s.next) : (sh.ctxs ctx).managed = (s.ctxs ctx).managed := by
  cases h with
  | create => exact congrArg FdCtx.managed (Function.update_of_ne (Nat.ne_of_lt hctx) _ _)
  | @flag _ other =>
    by_cases he : ctx = other
    · subst he
      dsimp only
      rw [Function.update_self]
      rfl
    · exact congrArg FdCtx.managed (Function.update_of_ne he _ _)
  | _ => rfl

end GetStep

/-- Contexts are numbered as they are made, and one that waits to be stored is nowhere else. -/
structure Inv (s : State T) : Prop where
  size : s.shared.mgr.fds.length < 2 ^ 32
  isInt : ∀ t c, s.calls t = some c → c.fd < 2 ^ 31
  slots : ∀ fd ctx, s.shared.mgr.slot fd = some ctx → ctx < s.shared.next
  other : ∀ t c o, s.calls t = some c → c.place.other = some o → o < s.shared.next
  new : ∀ t c ctx, s.calls t = some c → c.place.ctx = some ctx →
    ctx < s.shared.next ∧ ∀ fd, s.shared.mgr.slot fd ≠ some ctx
  distinct : ∀ t u c d ctx, s.calls t = some c → s.calls u = some d → c.place.ctx = some ctx →
    d.place.ctx = some ctx → t = u

theorem update_calls {calls : T → Option Call} {t u : T} {v : Option Call} {c : Call}
    (h : Function.update calls t v u = some c) : u = t ∧ v = some c ∨ u ≠ t ∧ calls u = some c := by
  by_cases hu : u = t
  · subst hu
    exact Or.inl ⟨rfl, (Function.update_self u v calls).symm.trans h⟩
  · exact Or.inr ⟨hu, (Function.update_of_ne hu v calls).symm.trans h⟩

theorem update_place {calls : T → Option Call} {t u : T} {c d : Call} {place : Option Place}
    (h : Function.update calls t (place.map fun p => { c with place := p }) u = some d) :
    (u = t ∧ place = some d.place ∧ d.fd = c.fd) ∨ u ≠ t ∧ calls u = some d := by
  refine (update_calls h).imp_left fun ⟨hu, hv⟩ => ?_
  obtain ⟨p, rfl, rfl⟩ := Option.map_eq_some_iff.mp hv
  exact ⟨hu, rfl, rfl⟩

theorem Inv.get {s : State T} (h : Inv s) (t : T) {fd : Int} (autoCreate : Bool)
    (isInt : fd < 2 ^ 31) :
    Inv { s with calls := Function.update s.calls t (some ⟨fd, autoCreate, .looking⟩) } where
  size := h.size
  isInt u c hu := by
    rcases update_calls hu with ⟨-, he⟩ | ⟨-, hu⟩
    · cases he
      exact isInt
    · exact h.isInt u c hu
  slots := h.slots
  other u c o hu ho := by
    rcases update_calls hu with ⟨-, he⟩ | ⟨-, hu⟩
    · cases he
      cases ho
    · exact h.other u c o hu ho
  new u c ctx hu hctx := by
    rcases update_calls hu with ⟨-, he⟩ | ⟨-, hu⟩
    · cases he
      cases hctx
    · exact h.new u c ctx hu hctx
  distinct u v c d ctx hu hv hc hd := by
    rcases update_calls hu with ⟨-, he⟩ | ⟨-, hu⟩
    · cases he
      cases hc
    · rcases update_calls hv with ⟨-, he⟩ | ⟨-, hv⟩
      · cases he
        cases hd
      · exact h.distinct u v c d ctx hu hv hc hd

section Go
variable {s : State T} {t : T} {c : Call} {es : List Event} {sh : Shared} {place : Option Place}
  {stat : Option Bool}

omit [DecidableEq T] in
theorem Inv.fresh (h : Inv s) (hstep : GetStep c.fd c.autoCreate stat s.shared c.place es sh place)
    (hc : s.calls t = some c) {q : Place} (hq : place = some q) {ctx : FdCtxId}
    (hctx : q.ctx = some ctx) :
    ctx < sh.next ∧ (∀ fd, s.shared.mgr.slot fd ≠ some ctx) ∧
      ∀ u d, s.calls u = some d → d.place.ctx = some ctx → u = t := by
  subst hq
  rcases hstep.ctx hctx with hctx | ⟨-, rfl, hnext, -⟩
  · obtain ⟨hlt, hslot⟩ := h.new t c ctx hc hctx
    exact ⟨Nat.lt_of_lt_of_le hlt hstep.next, hslot,
      fun u d hd hdctx => h.distinct u t d c ctx hd hc hdctx hctx⟩
  · refine ⟨hnext ▸ Nat.lt_succ_self _, fun fd hslot => ?_, fun u d hd hdctx => ?_⟩
    · exact Nat.lt_irrefl _ (h.slots fd _ hslot)
    · exact absurd (h.new u d _ hd hdctx).1 (Nat.lt_irrefl _)

theorem Inv.go (h : Inv s) (hc : s.calls t = some c)
    (hstep : GetStep c.fd c.autoCreate stat s.shared c.place es sh place) :
    Inv ⟨sh, Function.update s.calls t (place.map fun p => { c with place := p }),
      es ++ s.log⟩ where
  size := by
    rcases hstep.mgr with hmgr | ⟨ctx, -, -, -, hrun⟩
    · exact hmgr ▸ h.size
    · have hlength := (store_length hrun).2
      have hsize := h.size
      have hint := h.isInt t c hc
      show sh.mgr.fds.length < 2 ^ 32
      split at hlength <;> omega
  isInt u d hu := by
    rcases update_place hu with ⟨-, -, hfd⟩ | ⟨-, hu⟩
    · exact hfd ▸ h.isInt t c hc
    · exact h.isInt u d hu
  slots fd ctx hslot := by
    refine Nat.lt_of_lt_of_le ?_ hstep.next
    rcases hstep.slot hslot with hslot | hplace
    · exact h.slots fd ctx hslot
    · exact (h.new t c ctx hc (by rw [hplace]; rfl)).1
  other u d o hu ho := by
    refine Nat.lt_of_lt_of_le ?_ hstep.next
    rcases update_place hu with ⟨-, rfl, -⟩ | ⟨-, hu⟩
    · exact h.slots c.fd o (hstep.other ho)
    · exact h.other u d o hu ho
  new u d ctx hu hctx := by
    rcases update_place hu with ⟨-, hplace, -⟩ | ⟨hne, hu⟩
    · obtain ⟨hlt, hslot, -⟩ := h.fresh hstep hc hplace hctx
      refine ⟨hlt, fun fd hstored => ?_⟩
      rcases hstep.slot hstored with hold | hstoring
      · exact hslot fd hold
      · -- the store ends the call
        rcases hstep.mgr with hmgr | ⟨_, -, hnone, -, -⟩
        · exact hslot fd (hmgr ▸ hstored)
        · cases hnone.symm.trans hplace
    · obtain ⟨hlt, hslot⟩ := h.new u d ctx hu hctx
      refine ⟨Nat.lt_of_lt_of_le hlt hstep.next, fun fd hstored => ?_⟩
      rcases hstep.slot hstored with hold | hstoring
      · exact hslot fd hold
      · exact hne (h.distinct u t d c ctx hu hc hctx (by rw [hstoring]; rfl))
  distinct u v d e ctx hu hv hd he := by
    rcases update_place hu with ⟨rfl, hplace, -⟩ | ⟨-, hold⟩
    · rcases update_place hv with ⟨rfl, -, -⟩ | ⟨-, hv⟩
      · rfl
      · exact ((h.fresh hstep hc hplace hd).2.2 v e hv he).symm
    · rcases update_place hv with ⟨rfl, hplace, -⟩ | ⟨-, hv⟩
      · exact (h.fresh hstep hc hplace he).2.2 u d hold hd
      · exact h.distinct u v d e ctx hold hv hd he

end Go

omit [DecidableEq T] in
theorem Inv.del {s : State T} (h : Inv s) {fd : Int} {m : FdManager}
    (hrun : del fd s.shared.mgr = .ok () m) :
    Inv { s with shared := { s.shared with mgr := m }, log := .deleted fd :: s.log } := by
  refine ⟨(del_length hrun).symm ▸ h.size, h.isInt, fun fd' ctx hkept => ?_, h.other,
    fun t c ctx hc hctx => ?_, h.distinct⟩
  · exact h.slots fd' ctx (del_some hrun hkept)
  · obtain ⟨hlt, hslot⟩ := h.new t c ctx hc hctx
    exact ⟨hlt, fun fd' hkept => hslot fd' (del_some hrun hkept)⟩

theorem Inv.step {s s' : State T} {l : Label T} (h : Inv s) (hstep : Step s l s') : Inv s' := by
  cases hstep with
  | get fd autoCreate idle isInt => exact h.get _ autoCreate isInt
  | go stat call step => exact h.go call step
  | del fd idle isInt run => exact h.del run
  | setTimeout ctx type timeout => exact ⟨h.size, h.isInt, h.slots, h.other, h.new, h.distinct⟩
  | setUsrNonBlock ctx v => exact ⟨h.size, h.isInt, h.slots, h.other, h.new, h.distinct⟩
  | setSysNonBlock ctx v => exact ⟨h.size, h.isInt, h.slots, h.other, h.new, h.distinct⟩

theorem slot_new (fd : Int) : new.slot fd = none := by
  unfold slot
  split
  · rfl
  · rw [new, List.getElem?_replicate]
    split <;> rfl

theorem inductive_inv : (machine (T := T)).Inductive Inv where
  init := by
    rintro s ⟨hmgr, hcalls, -⟩
    constructor
    case size =>
      rw [hmgr]
      decide
    case slots =>
      intro fd ctx hslot
      rw [hmgr, slot_new] at hslot
      cases hslot
    case isInt => exact fun t c hc => by cases (hcalls t).symm.trans hc
    case other => exact fun t c o hc => by cases (hcalls t).symm.trans hc
    case new => exact fun t c ctx hc => by cases (hcalls t).symm.trans hc
    case distinct => exact fun t u c d ctx hc => by cases (hcalls t).symm.trans hc
  step _ _ _ h hstep := h.step hstep

/-! ## Which steps keep the promise -/

section Keeps
omit [DecidableEq T]
variable {s s' : State T} {fd : Int} {r : Option FdCtxId}

theorem Keeps.congr (h : Keeps s) (hmgr : s'.shared.mgr = s.shared.mgr) (hlog : s'.log = s.log) :
    Keeps s' :=
  ⟨hlog ▸ h.one, fun fd => by rw [hmgr, hlog, h.slots]⟩

theorem keeps_slot (h : Keeps s) {autoCreate : Bool} (hmgr : s'.shared.mgr = s.shared.mgr)
    (hlog : s'.log = .got fd autoCreate (s.shared.mgr.slot fd) :: s.log) : Keeps s' := by
  have hheld := h.slots fd
  refine ⟨?_, fun fd' => ?_⟩
  · rw [hlog, oneCtx_got_iff h.one, hheld]
    exact fun _ => id
  · rw [hmgr, hlog]
    by_cases he : fd = fd'
    · subst he
      exact (held_got hheld.symm).symm
    · rw [held_got_of_ne he, h.slots]

/-- A `get(fd)` returns what the slot holds unless the size is a negative `int`. -/
theorem keeps_found_iff (h : Keeps s) (hsize : s.shared.mgr.fds.length < 2 ^ 32)
    (hmgr : s'.shared.mgr = s.shared.mgr)
    (hlog : s'.log = .got fd false (s.shared.mgr.found fd) :: s.log) :
    Keeps s' ↔ s.shared.mgr.Finds fd := by
  rw [← found_eq_slot_iff hsize]
  constructor
  · intro hkeeps
    have hone := hkeeps.one
    rw [hlog, oneCtx_got_iff h.one, ← h.slots] at hone
    cases hslot : s.shared.mgr.slot fd with
    | some ctx => exact hone ctx hslot
    | none =>
      cases hfound : s.shared.mgr.found fd with
      | none => rfl
      | some ctx => cases hslot.symm.trans (found_some hfound)
  · intro hfound
    rw [hfound] at hlog
    exact keeps_slot h hmgr hlog

theorem keeps_store_iff (h : Keeps s) (hsize : s.shared.mgr.fds.length < 2 ^ 32) {ctx : FdCtxId}
    (hnew : s.shared.mgr.slot fd ≠ some ctx)
    (hrun : store fd ctx s.shared.mgr = .ok () s'.shared.mgr)
    (hlog : s'.log = .got fd true (some ctx) :: s.log) :
    Keeps s' ↔ s.shared.mgr.slot fd = none ∧ s.shared.mgr.Spares fd := by
  have hone : OneCtx s'.log ↔ s.shared.mgr.slot fd = none := by
    rw [hlog, oneCtx_got_iff h.one, ← h.slots]
    constructor
    · intro hheld
      cases hslot : s.shared.mgr.slot fd with
      | none => rfl
      | some old => exact absurd (hslot.trans (hheld old hslot).symm) hnew
    · intro hslot old hold
      cases hslot.symm.trans hold
  have hslots : (∀ fd', s'.shared.mgr.slot fd' = held fd' s'.log) ↔ s.shared.mgr.Spares fd := by
    rw [← store_spares_iff hsize hrun, hlog]
    refine forall_congr' fun fd' => ?_
    by_cases he : fd' = fd
    · subst he
      refine iff_of_true ?_ fun hne => absurd rfl hne
      rw [store_self hrun]
      exact (if_pos rfl).symm
    · rw [held_got_of_ne (Ne.symm he), ← h.slots]
      exact ⟨fun hkept _ => hkept, fun hkept => hkept he⟩
  rw [← hone, ← hslots]
  exact ⟨fun hk => ⟨hk.one, hk.slots⟩, fun hk => ⟨hk.1, hk.2⟩⟩

theorem keeps_del_iff (h : Keeps s) (hsize : s.shared.mgr.fds.length < 2 ^ 32)
    (hrun : del fd s.shared.mgr = .ok () s'.shared.mgr) (hlog : s'.log = .deleted fd :: s.log) :
    Keeps s' ↔ s.shared.mgr.Finds fd := by
  rw [← del_self_iff hsize hrun]
  constructor
  · intro hkeeps
    rw [hkeeps.slots, hlog]
    exact if_pos rfl
  · intro hgone
    refine ⟨hlog ▸ oneCtx_deleted h.one, fun fd' => ?_⟩
    rw [hlog]
    by_cases he : fd' = fd
    · subst he
      exact hgone.trans (if_pos rfl).symm
    · rw [del_of_ne hrun he, h.slots]
      exact (if_neg (Ne.symm he)).symm

theorem settings_rfl {l : Label T} (hctxs : s'.shared.ctxs = s.shared.ctxs) : Settings s l s' :=
  fun ctx _ => Or.inl (congrFun hctxs ctx)

/-- The F_SETFL of a call that found another's context changes it unless its flag is set. -/
theorem settings_flag_iff {t : T} {o : FdCtxId} (ho : o < s.shared.next)
    (hctxs : s'.shared.ctxs =
      Function.update s.shared.ctxs o ((s.shared.ctxs o).setUsrNonBlock true)) :
    Settings s (.go t) s' ↔ (s.shared.ctxs o).usrNonBlock = true := by
  constructor
  · intro hsettings
    rcases hsettings o ho with hsame | hset | hset
    · rw [hctxs, Function.update_self] at hsame
      exact (congrArg FdCtx.usrNonBlock hsame).symm
    · cases hset
    · cases hset
  · intro hflag ctx _
    refine Or.inl ?_
    have hsame : (s.shared.ctxs o).setUsrNonBlock true = s.shared.ctxs o := by
      rw [FdCtx.setUsrNonBlock, ← hflag]
    rw [hctxs, hsame, Function.update_eq_self]

theorem go_keeps_iff {t : T} {c : Call} {stat : Option Bool} {es : List Event} {sh : Shared}
    {place : Option Place} (h : Inv s) (hkeeps : Keeps s) (hc : s.calls t = some c)
    (hstep : GetStep c.fd c.autoCreate stat s.shared c.place es sh place)
    (hsh : s'.shared = sh) (hlog : s'.log = es ++ s.log) :
    Keeps s' ∧ Settings s (.go t) s' ↔ s.shared.Meets c := by
  obtain ⟨fd, autoCreate, p⟩ := c
  have hlook : ∀ {r m}, look fd false s.shared.mgr = .ok (some r) m →
      s'.shared = { s.shared with mgr := m } → s'.log = .got fd false r :: s.log →
        (Keeps s' ∧ Settings s (.go t) s' ↔ s.shared.mgr.Finds fd) := by
    intro r m run hsh hlog
    obtain ⟨rfl, rfl⟩ := look_found run
    rw [and_iff_left (settings_rfl (by rw [hsh]))]
    exact keeps_found_iff hkeeps h.size (by rw [hsh]) hlog
  cases hstep with
  | found run =>
    cases autoCreate with
    | false => exact (hlook run hsh hlog).trans (by simp [Shared.Meets])
    | true =>
      obtain rfl := look_slot run
      obtain rfl := (look_found run).1
      exact iff_of_true ⟨keeps_slot hkeeps (by rw [hsh]) hlog, settings_rfl (by rw [hsh])⟩
        (Or.inl rfl)
  | @missed m run =>
    obtain rfl := look_missed run
    have hkept : Keeps s' ∧ Settings s (.go t) s' :=
      ⟨hkeeps.congr (by rw [hsh]) hlog, settings_rfl (by rw [hsh])⟩
    refine iff_of_true hkept ?_
    cases autoCreate with
    | true => exact Or.inl rfl
    | false => exact absurd run look_false
  | create =>
    refine iff_of_true ⟨hkeeps.congr (by rw [hsh]) hlog, fun ctx hctx => Or.inl ?_⟩ trivial
    rw [hsh]
    exact Function.update_of_ne (Nat.ne_of_lt hctx) _ _
  | getfl nonblock run => exact hlook run hsh hlog
  | test =>
    exact iff_of_true ⟨hkeeps.congr (by rw [hsh]) hlog, settings_rfl (by rw [hsh])⟩ trivial
  | setfl run => exact hlook run hsh hlog
  | flag =>
    rw [and_iff_right (hkeeps.congr (by rw [hsh]) hlog)]
    exact settings_flag_iff (h.other t _ _ hc rfl) (by rw [hsh])
  | @store ctx m run =>
    rw [and_iff_left (settings_rfl (by rw [hsh]))]
    exact keeps_store_iff hkeeps h.size ((h.new t _ ctx hc rfl).2 fd) (by rw [hsh]; exact run) hlog

end Keeps

theorem step_keeps_iff {s s' : State T} {l : Label T} (h : Inv s) (hkeeps : Keeps s)
    (hstep : Step s l s') : Keeps s' ∧ Settings s l s' ↔ Meets s l := by
  have hset : ∀ {ctx c}, (∀ ctx', ctx' = ctx → l = .setTimeout ctx' ∨ l = .setNonBlock ctx') →
      s' = s.setCtx ctx c → Keeps s' ∧ Settings s l s' := by
    rintro ctx c hown rfl
    refine ⟨hkeeps.congr rfl rfl, fun ctx' _ => ?_⟩
    by_cases he : ctx' = ctx
    · exact Or.inr (hown ctx' he)
    · exact Or.inl (Function.update_of_ne he _ _)
  cases hstep with
  | get fd autoCreate idle isInt =>
    exact iff_of_true ⟨hkeeps.congr rfl rfl, settings_rfl rfl⟩ trivial
  | @go t c es sh place stat call step =>
    rw [go_keeps_iff h hkeeps call step rfl rfl]
    constructor
    · intro hmeets d hd
      cases call.symm.trans hd
      exact hmeets
    · exact fun hmeets => hmeets c call
  | del fd idle isInt run =>
    refine (and_iff_left (settings_rfl rfl)).trans ?_
    exact keeps_del_iff hkeeps h.size run rfl
  | setTimeout ctx type timeout =>
    exact iff_of_true (hset (fun ctx' he => Or.inl (by rw [he])) rfl) trivial
  | setUsrNonBlock ctx v =>
    exact iff_of_true (hset (fun ctx' he => Or.inr (by rw [he])) rfl) trivial
  | setSysNonBlock ctx v =>
    exact iff_of_true (hset (fun ctx' he => Or.inr (by rw [he])) rfl) trivial

theorem restrict_keeps {s : State T} (h : Reachable (machine.restrict Meets) s) : Keeps s := by
  apply Reachable.invariant (I := Inv) ?_ ?_ ?_ h
  · exact fun s hs => inductive_inv.reachable hs.of_restrict
  · rintro s ⟨hmgr, -, hlog⟩
    refine ⟨fun later between earlier fd autoCreate r ctx heq => ?_, fun fd => ?_⟩
    · rw [hlog] at heq
      exact absurd heq.symm (by simp)
    · rw [hmgr, hlog, slot_new]
      rfl
  · exact fun s l s' hs hkeeps hstep => ((step_keeps_iff hs hkeeps hstep.1).mpr hstep.2).1

/-- In every run whose steps meet the condition there is one context for each descriptor, and
its settings change by its own setters only; and the next step keeps to this exactly if it
meets the condition. -/
theorem one_ctx_iff {s : State T} (h : Reachable (machine.restrict Meets) s) :
    Keeps s ∧ ∀ l s', machine.step s l s' → (Keeps s' ∧ Settings s l s' ↔ Meets s l) := by
  have hkeeps := restrict_keeps h
  have hinv := inductive_inv.reachable h.of_restrict
  exact ⟨hkeeps, fun l s' hstep => step_keeps_iff hinv hkeeps hstep⟩

/-! ## Two threads -/

/-- No context is made yet, and no thread is in `get`. -/
def start : State Bool := ⟨⟨new, fun _ => FdCtx.new 0 none, 0⟩, fun _ => none, []⟩

theorem start_init : init start := ⟨rfl, fun _ => rfl, rfl⟩

/-- Thread `false` makes the context of the socket 5, thread `true` gets it again and takes
it out of the table. -/
theorem one_ctx_iff_alone : ∃ s s' : State Bool,
    s.log = [.got 5 false (some 0), .got 5 true (some 0), .got 5 false none] ∧ OneCtx s.log ∧
      s'.log = .deleted 5 :: s.log ∧ Keeps s' := by
  have hinit : Reachable (machine.restrict Meets) start := .init start_init
  have hcall := hinit.step ⟨Step.get (t := false) 5 true rfl (by omega), trivial⟩
  have hlook := hcall.step ⟨Step.go (t := false) none rfl
    (.missed (look_lt 5 (by decide) (by decide) true)), by
    rintro c hc
    cases hc
    exact Or.inl rfl⟩
  have hmade := hlook.step ⟨Step.go (t := false) (some true) rfl .create, by
    rintro c hc
    cases hc
    trivial⟩
  have hgetfl := hmade.step ⟨Step.go (t := false) none rfl
    (.getfl true (look_lt 5 (by decide) (by decide) false)), by
    rintro c hc
    cases hc
    exact Or.inl (by decide)⟩
  have hstore := hgetfl.step ⟨Step.go (t := false) none rfl
    (.store (store_lt 5 (by decide) (by decide) 0)), by
    rintro c hc
    cases hc
    exact ⟨rfl, Or.inl (by decide)⟩⟩
  have hagain := hstore.step ⟨Step.get (t := true) 5 false rfl (by omega), trivial⟩
  have hfound := hagain.step ⟨Step.go (t := true) none rfl
    (.found (look_lt 5 (by decide) (by decide) false)), by
    rintro c hc
    cases hc
    exact Or.inr (Or.inl (by decide))⟩
  have hone := one_ctx_iff hfound
  have hdel := (hone.2 (.del true 5) _ (Step.del 5 rfl (by omega)
    (del_lt 5 (by decide) (by decide)))).mpr (Or.inl (by decide))
  exact ⟨_, _, rfl, hone.1.one, rfl, hdel.1⟩

/-- Both threads miss the socket 5. `true` stores its context and returns; the F_SETFL of `false`
sets the flag of that context, and its store replaces it. -/
theorem two_contexts : (¬ ∀ s : State Bool, Reachable machine s → OneCtx s.log) ∧
    ¬ ∀ (s s' : State Bool) (l : Label Bool), Reachable machine s → Step s l s' →
      Settings s l s' := by
  have hinit : Reachable machine start := .init start_init
  have hget := hinit.step (Step.get (t := false) 5 true rfl (by omega))
  have hboth := hget.step (Step.get (t := true) 5 true rfl (by omega))
  have hmissed := hboth.step (Step.go (t := false) none rfl
    (.missed (look_lt 5 (by decide) (by decide) true)))
  have hmissed' := hmissed.step (Step.go (t := true) none rfl
    (.missed (look_lt 5 (by decide) (by decide) true)))
  have hmade := hmissed'.step (Step.go (t := false) (some true) rfl .create)
  have hmade' := hmade.step (Step.go (t := true) (some true) rfl .create)
  have hgetfl' := hmade'.step (Step.go (t := true) none rfl
    (.getfl true (look_lt 5 (by decide) (by decide) false)))
  have hstored' := hgetfl'.step (Step.go (t := true) none rfl
    (.store (store_lt 5 (by decide) (by decide) 1)))
  have hgetfl := hstored'.step (Step.go (t := false) none rfl
    (.getfl true (look_lt 5 (by decide) (by decide) false)))
  have htest := hgetfl.step (Step.go (t := false) none rfl .test)
  have hsetfl := htest.step (Step.go (t := false) none rfl
    (.setfl (look_lt 5 (by decide) (by decide) false)))
  have hflag := hsetfl.step (Step.go (t := false) none rfl .flag)
  have hstored := hflag.step (Step.go (t := false) none rfl
    (.store (store_lt 5 (by decide) (by decide) 0)))
  constructor
  · intro hall
    have hsame := hall _ hstored [] [.got 5 false (some 1), .got 5 false (some 1)]
      [.got 5 false none] 5 true (some 0) 1 rfl (by simp)
    cases hsame
  · intro hall
    have hflagged := hall _ _ _ hsetfl (Step.go (t := false) none rfl .flag) 1 (by decide)
    rcases hflagged with hsame | hset | hset
    · exact absurd (congrArg FdCtx.usrNonBlock hsame) (by decide)
    · cases hset
    · cases hset

end FdManager
end TwServer
