import TwServer.Hook.FdManager
import TwServer.Lib.Program
import TwServer.Lib.Runs

/-! The descriptor tables of `IOManager::addEvent` and `FdManager::get`. Both look under
the read lock whether the table has to grow and grow it under a later write lock; the
sizes are compared as `int`s. -/

namespace TwServer
open Programs Program Runs

/-- The `int`s from 0 on. -/
abbrev Descriptor := Fin (2 ^ 31)

/-- Which `FdContext`, and the `fd` that it was made with. -/
structure FdContextPtr where
  id : Nat
  fd : Int
  deriving DecidableEq, Repr

/-- `m_fdContexts`, and the number of contexts made so far. -/
structure FdContexts where
  slots : List (Option FdContextPtr)
  next : Nat

namespace FdContexts

/-- The loop of `fdContextResize` from slot `i` on, where `next` contexts are made. -/
def fill (i next : Nat) : List (Option FdContextPtr) → FdContexts
  | [] => ⟨[], next⟩
  | some p :: slots =>
    let t := fill (i + 1) next slots
    ⟨some p :: t.slots, t.next⟩
  | none :: slots =>
    let t := fill (i + 1) (next + 1) slots
    ⟨some ⟨next, castInt i⟩ :: t.slots, t.next⟩

def fdContextResize (size : Nat) (t : FdContexts) : FdContexts :=
  if size < t.slots.length then t
  else fill 0 t.next (t.slots.take size ++ List.replicate (size - t.slots.length) none)

/-- The table after the constructor. -/
def new : FdContexts := fdContextResize 32 ⟨[], 0⟩

/-- `m_fdContexts[fd]`, whose mutex is locked next. -/
def index (fd : Int) : Program FdContexts FdContextPtr := fun t =>
  if fd < 0 then .fault .outOfBounds
  else
    match t.slots[fd.toNat]? with
    | none => .fault .outOfBounds
    | some none => .fault .nullPointer
    | some (some p) => .ok p t

/-- `addEvent` under the read lock: `none` if the table has to grow. -/
def addRead (fd : Int) : Program FdContexts (Option FdContextPtr) := do
  let t ← get
  if fd < castInt t.slots.length then
    let p ← index fd
    return some p
  else return none

/-- `addEvent` under the write lock. -/
def addWrite (fd : Int) : Program FdContexts FdContextPtr := do
  -- `fd * 1.5` is exact and loses its half in the `size_t`
  modify (fdContextResize (fd * 3 / 2).toNat)
  index fd

end FdContexts

/-! ## The threads -/

namespace FdTables

inductive Pc where
  | idle
  /-- in `addEvent`, before the write lock -/
  | adding (fd : Descriptor)
  /-- in `get(fd, true)`, before the write lock -/
  | storing (fd : Descriptor)
  deriving DecidableEq, Repr

/-- `stored` holds the pointers that `addEvent` hands to `epoll_ctl`, under their
descriptors. -/
structure State (W : Type) where
  io : FdContexts
  mgr : FdManager
  pc : W → Pc
  stored : List (Descriptor × FdContextPtr)

variable {W : Type} [DecidableEq W]

def State.setPc (s : State W) (w : W) (pc : Pc) : State W :=
  { s with pc := Function.update s.pc w pc }

/-- The sections under a lock, by the thread and the descriptor of its call. -/
inductive Label (W : Type) where
  | addRead (w : W) (fd : Descriptor)
  | addWrite (w : W) (fd : Descriptor)
  | getRead (w : W) (fd : Descriptor)
  | getWrite (w : W) (fd : Descriptor) (ctx : FdCtxId)

def Enabled (s : State W) : Label W → Prop
  | .addRead w _ => s.pc w = .idle
  | .addWrite w fd => s.pc w = .adding fd
  | .getRead w _ => s.pc w = .idle
  | .getWrite w fd _ => s.pc w = .storing fd

/-- The state after a section of one of the tables, by what it returns and leaves. -/
def finish {σ α : Type} (s : State W) (o : Outcome σ α) (k : α → σ → State W) :
    Outcome (State W) Unit :=
  match o with
  | .ok a t => .ok () (k a t)
  | .throw what _ => .throw what s
  | .fault why => .fault why

def run (s : State W) : Label W → Outcome (State W) Unit
  | .addRead w fd =>
    finish s (FdContexts.addRead fd.val s.io) fun
      | some p, io => { s with io := io, stored := (fd, p) :: s.stored }
      | none, io => { s.setPc w (.adding fd) with io := io }
  | .addWrite w fd =>
    finish s (FdContexts.addWrite fd.val s.io) fun p io =>
      { s.setPc w .idle with io := io, stored := (fd, p) :: s.stored }
  | .getRead w fd =>
    finish s (FdManager.look fd.val true s.mgr) fun
      | some _, m => { s with mgr := m }
      | none, m => { s.setPc w (.storing fd) with mgr := m }
  | .getWrite w fd ctx =>
    finish s (FdManager.store fd.val ctx s.mgr) fun _ m => { s.setPc w .idle with mgr := m }

def init (s : State W) : Prop :=
  s.io = FdContexts.new ∧ s.mgr = FdManager.new ∧ (∀ w, s.pc w = .idle) ∧ s.stored = []

def machine : System (State W) (Label W) :=
  ⟨init, fun s l s' => Enabled s l ∧ run s l = .ok () s'⟩

end FdTables

/-! ## The table of the contexts -/

namespace FdContexts

/-- The context that the loop makes for slot `i` where all slots before are filled. -/
def made (i : Nat) : FdContextPtr := ⟨i, castInt i⟩

theorem made_fd (i : Nat) : (made i).fd = castInt i := by rw [made]

/-- The table of `n` slots. Contexts are made in the order of their slots, so that each has
the number of its own. -/
def filled (n : Nat) : FdContexts := ⟨(List.range' 0 n).map fun i => some (made i), n⟩

@[simp] theorem length_filled (n : Nat) : (filled n).slots.length = n := by
  rw [filled, List.length_map, List.length_range']

@[simp] theorem next_filled (n : Nat) : (filled n).next = n := rfl

theorem getElem?_filled {n i : Nat} (h : i < n) : (filled n).slots[i]? = some (some (made i)) := by
  rw [filled, List.getElem?_map, List.getElem?_range' h]
  simp

theorem of_getElem?_filled {n i : Nat} {slot : Option FdContextPtr}
    (h : (filled n).slots[i]? = some slot) : i < n ∧ slot = some (made i) := by
  have hi : i < n := by
    simpa using (List.getElem?_eq_some_iff.mp h).1
  rw [getElem?_filled hi] at h
  exact ⟨hi, (Option.some.inj h).symm⟩

theorem fill_replicate (i k : Nat) :
    fill i i (List.replicate k none) =
      ⟨(List.range' i k).map fun j => some (made j), i + k⟩ := by
  induction k generalizing i with
  | zero => rfl
  | succ k ih =>
    rw [List.replicate_succ, fill, ih, List.range'_succ]
    simp [made, Nat.add_comm, Nat.add_left_comm]

/-- The loop passes over the slots that are filled. -/
theorem fill_filled (i next k : Nat) (slots : List (Option FdContextPtr)) :
    fill i next ((List.range' i k).map (fun j => some (made j)) ++ slots) =
      ⟨(List.range' i k).map (fun j => some (made j)) ++ (fill (i + k) next slots).slots,
        (fill (i + k) next slots).next⟩ := by
  induction k generalizing i with
  | zero => rfl
  | succ k ih =>
    rw [List.range'_succ, List.map_cons, List.cons_append, fill, ih]
    simp [Nat.add_comm, Nat.add_left_comm]

theorem fdContextResize_filled (size n : Nat) :
    fdContextResize size (filled n) = filled (max n size) := by
  rw [fdContextResize, length_filled]
  split
  · rename_i h
    rw [Nat.max_eq_left (by omega)]
  · rename_i h
    have hsize : n + (size - n) = max n size := by omega
    have htake : (filled n).slots.take size = (filled n).slots :=
      List.take_of_length_le (by rw [length_filled]; omega)
    have hfill := fill_filled 0 n n (List.replicate (size - n) none)
    rw [Nat.zero_add, fill_replicate] at hfill
    rw [htake, next_filled, filled, hfill, hsize, filled, ← hsize, ← List.range'_append_1,
      List.map_append, Nat.zero_add]

theorem new_eq : new = filled 32 := by
  have h := fdContextResize_filled 32 0
  exact h

theorem index_filled {n fd : Nat} (h : fd < n) :
    index fd (filled n) = .ok (made fd) (filled n) := by
  simp [index, getElem?_filled h]

theorem addRead_filled {n : Nat} (hlt : n < 2 ^ 32) (fd : Nat) :
    addRead fd (filled n) =
      .ok (if n < 2 ^ 31 ∧ fd < n then some (made fd) else none) (filled n) := by
  rw [addRead, bind_ok (show get (filled n) = .ok (filled n) (filled n) from rfl)]
  simp only [length_filled, lt_castInt_iff hlt]
  by_cases h : n < 2 ^ 31 ∧ fd < n
  · rw [if_pos h, if_pos h, bind_ok (index_filled h.2)]
    rfl
  · rw [if_neg h, if_neg h]
    rfl

theorem addWrite_filled {n fd : Nat} (h : fd < max n (fd * 3 / 2)) :
    addWrite fd (filled n) = .ok (made fd) (filled (max n (fd * 3 / 2))) := by
  have hsize : ((fd : Int) * 3 / 2).toNat = fd * 3 / 2 := by omega
  have hmodify : modify (fdContextResize (fd * 3 / 2)) (filled n) =
      .ok () (filled (max n (fd * 3 / 2))) := by
    unfold Program.modify
    rw [fdContextResize_filled]
  rw [addWrite, hsize, bind_ok hmodify, index_filled h]

end FdContexts

/-! ## The table of `FdManager` -/

namespace FdManager

theorem look_ok {m : FdManager} (hlt : m.fds.length < 2 ^ 32) (fd : Nat) :
    ∃ r, look fd true m = .ok r m := by
  rw [look, if_neg (by omega)]
  by_cases h : castInt m.fds.length ≤ fd
  · exact ⟨none, by simp [h]⟩
  · obtain ⟨-, hfd⟩ := (lt_castInt_iff hlt).mp (Int.not_le.mp h)
    rw [if_neg h, if_neg (by omega)]
    simp only [Int.toNat_natCast, List.getElem?_eq_getElem hfd]
    split
    · exact ⟨_, rfl⟩
    · exact ⟨_, rfl⟩

/-- The size of the table in which the write section uses `fd`. -/
def sizeFor (fd : Nat) (m : FdManager) : Nat :=
  if castInt m.fds.length ≤ fd then fd * 3 / 2 else m.fds.length

theorem length_grow (fd : Nat) (m : FdManager) : (m.grow fd).fds.length = sizeFor fd m := by
  have hsize : ((fd : Int) * 3 / 2).toNat = fd * 3 / 2 := by omega
  rw [grow, sizeFor, hsize]
  split
  · exact length_resize _ m
  · rfl

theorem store_eq (fd : Nat) (ctx : FdCtxId) (m : FdManager) :
    store fd ctx m =
      if sizeFor fd m ≤ fd then .fault .outOfBounds
      else .ok () ⟨(m.grow fd).fds.set fd (some ctx)⟩ := by
  have hneg : ¬(fd : Int) < 0 := by omega
  unfold store
  simp only [length_grow, hneg, false_or, Int.ofNat_le, Int.toNat_natCast]

theorem store_ok {m : FdManager} {fd : Nat} (ctx : FdCtxId) (h : fd < sizeFor fd m) :
    ∃ m', store fd ctx m = .ok () m' ∧ m'.fds.length = sizeFor fd m := by
  refine ⟨⟨(m.grow fd).fds.set fd (some ctx)⟩, ?_, ?_⟩
  · rw [store_eq, if_neg (Nat.not_le.mpr h)]
  · rw [List.length_set, length_grow]

theorem store_fault {m : FdManager} {fd : Nat} (ctx : FdCtxId) (h : sizeFor fd m ≤ fd) :
    store fd ctx m = .fault .outOfBounds := by
  rw [store_eq, if_pos h]

/-- The write section keeps the index in the table and no slot goes. -/
def Fits (fd : Nat) (m : FdManager) : Prop :=
  m.fds.length < 2 ^ 31 ∨ m.fds.length ≤ fd * 3 / 2

theorem fits_iff {m : FdManager} {fd : Nat} (hpos : 2 ≤ m.fds.length)
    (hlt : m.fds.length < 2 ^ 32) (hfd : fd < 2 ^ 31) :
    Fits fd m ↔ fd < sizeFor fd m ∧ m.fds.length ≤ sizeFor fd m := by
  have hcast : castInt m.fds.length ≤ fd ↔ ¬(m.fds.length < 2 ^ 31 ∧ fd < m.fds.length) := by
    rw [← lt_castInt_iff hlt, Int.not_lt]
  rw [Fits, sizeFor]
  by_cases h : castInt m.fds.length ≤ fd
  · rw [if_pos h]
    have := hcast.mp h
    omega
  · rw [if_neg h]
    have : m.fds.length < 2 ^ 31 ∧ fd < m.fds.length := by
      by_contra hn
      exact h (hcast.mpr hn)
    omega

theorem sizeFor_bounds {m : FdManager} {fd : Nat} (hpos : 2 ≤ m.fds.length)
    (hlt : m.fds.length < 2 ^ 32) (hfd : fd < 2 ^ 31) (hin : fd < sizeFor fd m) :
    2 ≤ sizeFor fd m ∧ sizeFor fd m < 2 ^ 32 := by
  by_cases h : castInt m.fds.length ≤ fd
  · have hsize : sizeFor fd m = fd * 3 / 2 := if_pos h
    omega
  · have hsize : sizeFor fd m = m.fds.length := if_neg h
    rw [hsize]
    exact ⟨hpos, hlt⟩

end FdManager

/-! ## Every reachable state -/

namespace FdTables
open FdContexts FdManager

variable {W : Type}

/-- Every slot holds a context of its own, and the pointers in epoll are those of the
slots. -/
structure PointersRight (s : State W) : Prop where
  full : ∀ i < s.io.slots.length, ∃ p, s.io.slots[i]? = some (some p) ∧ p.fd = castInt i
  unique : ∀ (i j : Nat) (p q : FdContextPtr), s.io.slots[i]? = some (some p) →
    s.io.slots[j]? = some (some q) → p.id = q.id → i = j
  stored : ∀ fd p, (fd, p) ∈ s.stored → s.io.slots[fd.val]? = some (some p)

/-- No table gets shorter, no context is replaced, and a new one has the number of its
slot. -/
structure Grows (s s' : State W) : Prop where
  io : s.io.slots.length ≤ s'.io.slots.length
  mgr : s.mgr.fds.length ≤ s'.mgr.fds.length
  kept : ∀ (i : Nat) (p : FdContextPtr), s.io.slots[i]? = some (some p) →
    s'.io.slots[i]? = some (some p)
  numbered : ∀ (i : Nat) (p : FdContextPtr), s.io.slots.length ≤ i →
    s'.io.slots[i]? = some (some p) → p.fd = i

/-- Contexts are counted as `filled` does. Growing is enough for every `fd` from 2 on, and
a smaller one is in the table all along. -/
structure Inv (s : State W) : Prop where
  io : s.io = filled s.io.slots.length
  ioLeast : 2 ≤ s.io.slots.length
  ioLt : s.io.slots.length < 2 ^ 32
  mgrLeast : 2 ≤ s.mgr.fds.length
  mgrLt : s.mgr.fds.length < 2 ^ 32
  adding : ∀ w fd, s.pc w = .adding fd → 2 ≤ fd.val ∨ fd.val < s.io.slots.length
  stored : ∀ fd p, (fd, p) ∈ s.stored → fd.val < s.io.slots.length ∧ p = made fd.val

theorem Inv.pointersRight {s : State W} (h : Inv s) : PointersRight s := by
  obtain ⟨io, mgr, pc, stored⟩ := s
  obtain ⟨n, hn⟩ : ∃ n, io = filled n := ⟨_, h.io⟩
  subst hn
  refine ⟨fun i hi => ?_, fun i j p q hp hq hid => ?_, fun fd p hp => ?_⟩
  · rw [length_filled] at hi
    exact ⟨made i, getElem?_filled hi, made_fd i⟩
  · cases (of_getElem?_filled hp).2
    cases (of_getElem?_filled hq).2
    exact hid
  · obtain ⟨hfd, rfl⟩ := h.stored fd p hp
    rw [length_filled] at hfd
    exact getElem?_filled hfd

theorem grows_filled {s s' : State W} {n n' : Nat} (hs : s.io = filled n) (hs' : s'.io = filled n')
    (hio : n ≤ n') (hmgr : s.mgr.fds.length ≤ s'.mgr.fds.length) :
    Grows s s' ↔ n' ≤ 2 ^ 31 ∨ n' = n := by
  constructor
  · rintro ⟨-, -, -, hnumbered⟩
    by_contra hn
    obtain ⟨hbig, hne⟩ := not_or.mp hn
    -- the last slot is new, and no `int` is its number
    have hlast := hnumbered (n' - 1) (made (n' - 1)) (by rw [hs, length_filled]; omega)
      (by rw [hs', getElem?_filled (by omega)])
    have hle := castInt_lt (n' - 1)
    rw [made_fd] at hlast
    omega
  · intro hn
    refine ⟨by rw [hs, hs', length_filled, length_filled]; exact hio, hmgr, fun i p hp => ?_,
      fun i p hi hp => ?_⟩
    · rw [hs] at hp
      obtain ⟨hi, hslot⟩ := of_getElem?_filled hp
      rw [hs', getElem?_filled (by omega), hslot]
    · rw [hs, length_filled] at hi
      rw [hs'] at hp
      obtain ⟨hlt, hslot⟩ := of_getElem?_filled hp
      cases hslot
      rw [made_fd, castInt_of_lt (by omega)]

variable [DecidableEq W]

/-! ## What each section does -/

def SectionRight (s : State W) (l : Label W) : Prop := ∃ s', run s l = .ok () s' ∧ Grows s s'

/-- The write section of `addEvent` makes no context past `INT_MAX`, and that of `get` does
not take the size for a negative one and the table for too short. -/
def Meets (s : State W) : Label W → Prop
  | .addWrite _ fd => fd.val * 3 / 2 ≤ 2 ^ 31 ∨ fd.val * 3 / 2 ≤ s.io.slots.length
  | .getWrite _ fd _ => s.mgr.Fits fd.val
  | _ => True

theorem setPc_adding {s : State W} {n : Nat} {w : W} {pc : Pc}
    (h : ∀ w fd, s.pc w = .adding fd → 2 ≤ fd.val ∨ fd.val < s.io.slots.length)
    (hn : s.io.slots.length ≤ n) (hpc : ∀ fd, pc = .adding fd → 2 ≤ fd.val ∨ fd.val < n) :
    ∀ u fd, (s.setPc w pc).pc u = .adding fd → 2 ≤ fd.val ∨ fd.val < n := by
  intro u fd hu
  unfold State.setPc at hu
  simp only [Function.update_apply] at hu
  split at hu
  · exact hpc fd hu
  · exact (h u fd hu).imp_right fun hlt => Nat.lt_of_lt_of_le hlt hn

theorem Inv.addRead {s : State W} (h : Inv s) (w : W) (fd : Descriptor) :
    ∃ s', run s (.addRead w fd) = .ok () s' ∧ Inv s' ∧ s'.io = s.io ∧ s'.mgr = s.mgr := by
  have hrun := addRead_filled h.ioLt fd.val
  rw [← h.io] at hrun
  by_cases hin : s.io.slots.length < 2 ^ 31 ∧ fd.val < s.io.slots.length
  · rw [if_pos hin] at hrun
    refine ⟨{ s with stored := (fd, made fd.val) :: s.stored }, ?_,
      { h with stored := fun fd' p hp => ?_ }, rfl, rfl⟩
    · rw [run, hrun]
      rfl
    · rcases List.mem_cons.mp hp with he | hp
      · cases he
        exact ⟨hin.2, rfl⟩
      · exact h.stored fd' p hp
  · rw [if_neg hin] at hrun
    refine ⟨s.setPc w (.adding fd), ?_, { h with
      adding := setPc_adding h.adding (Nat.le_refl _) fun fd' he => ?_ }, rfl, rfl⟩
    · rw [run, hrun]
      rfl
    · cases he
      have hleast := h.ioLeast
      have hlt := fd.isLt
      show 2 ≤ fd.val ∨ fd.val < s.io.slots.length
      omega

theorem Inv.addWrite {s : State W} (h : Inv s) {w : W} {fd : Descriptor}
    (hpc : s.pc w = .adding fd) :
    ∃ s', run s (.addWrite w fd) = .ok () s' ∧ Inv s' ∧
      s'.io = filled (max s.io.slots.length (fd.val * 3 / 2)) ∧ s'.mgr = s.mgr := by
  have hfd : fd.val < max s.io.slots.length (fd.val * 3 / 2) := by
    have := h.adding w fd hpc
    omega
  have hrun := addWrite_filled hfd
  rw [← h.io] at hrun
  have hlt := fd.isLt
  have hioLt := h.ioLt
  have hioLeast := h.ioLeast
  refine ⟨{ s.setPc w .idle with
      io := filled (max s.io.slots.length (fd.val * 3 / 2))
      stored := (fd, made fd.val) :: s.stored }, by rw [run, hrun]; rfl, ?_, rfl, rfl⟩
  constructor
  case io => simp only [length_filled]
  case ioLeast =>
    simp only [length_filled]
    omega
  case ioLt =>
    simp only [length_filled]
    omega
  case mgrLeast => exact h.mgrLeast
  case mgrLt => exact h.mgrLt
  case adding =>
    simp only [length_filled]
    exact setPc_adding h.adding (Nat.le_max_left _ _) fun _ he => nomatch he
  case stored =>
    intro fd' p hp
    simp only [length_filled]
    rcases List.mem_cons.mp hp with he | hp
    · cases he
      exact ⟨hfd, rfl⟩
    · obtain ⟨hin, hmade⟩ := h.stored fd' p hp
      exact ⟨Nat.lt_of_lt_of_le hin (Nat.le_max_left _ _), hmade⟩

theorem Inv.getRead {s : State W} (h : Inv s) (w : W) (fd : Descriptor) :
    ∃ s', run s (.getRead w fd) = .ok () s' ∧ Inv s' ∧ s'.io = s.io ∧ s'.mgr = s.mgr := by
  obtain ⟨r, hr⟩ := look_ok h.mgrLt fd.val
  cases r with
  | some ctx =>
    refine ⟨s, ?_, h, rfl, rfl⟩
    rw [run, hr]
    rfl
  | none =>
    refine ⟨s.setPc w (.storing fd), ?_, { h with
      adding := setPc_adding h.adding (Nat.le_refl _) fun _ he => nomatch he }, rfl, rfl⟩
    rw [run, hr]
    rfl

theorem run_getWrite {s : State W} (w : W) (fd : Descriptor) (ctx : FdCtxId)
    (hfd : fd.val < s.mgr.sizeFor fd.val) :
    ∃ m, run s (.getWrite w fd ctx) = .ok () { s.setPc w .idle with mgr := m } ∧
      m.fds.length = s.mgr.sizeFor fd.val := by
  obtain ⟨m, hrun, hlength⟩ := store_ok ctx hfd
  refine ⟨m, ?_, hlength⟩
  rw [run, hrun]
  rfl

theorem run_getWrite_fault {s : State W} (w : W) {fd : Descriptor} (ctx : FdCtxId)
    (hfd : s.mgr.sizeFor fd.val ≤ fd.val) :
    run s (.getWrite w fd ctx) = .fault .outOfBounds := by
  rw [run, store_fault ctx hfd]
  rfl

theorem Inv.getWrite {s : State W} (h : Inv s) (w : W) {fd : Descriptor} (ctx : FdCtxId)
    (hfd : fd.val < s.mgr.sizeFor fd.val) :
    ∃ s', run s (.getWrite w fd ctx) = .ok () s' ∧ Inv s' ∧ s'.io = s.io ∧
      s'.mgr.fds.length = s.mgr.sizeFor fd.val := by
  obtain ⟨m, hrun, hlength⟩ := run_getWrite w fd ctx hfd
  have hbound := sizeFor_bounds h.mgrLeast h.mgrLt fd.isLt hfd
  rw [← hlength] at hbound
  exact ⟨{ s.setPc w .idle with mgr := m }, hrun, { h with
    mgrLeast := hbound.1
    mgrLt := hbound.2
    adding := setPc_adding h.adding (Nat.le_refl _) fun _ he => nomatch he }, rfl, hlength⟩

/-- Only the write section of `addEvent` changes the table of the contexts. -/
theorem Inv.of_run {s s' : State W} {l : Label W} (h : Inv s) (henabled : Enabled s l)
    (hrun : run s l = .ok () s') :
    Inv s' ∧ (s'.io = s.io ∨ ∃ w fd, l = .addWrite w fd ∧
      s'.io = filled (max s.io.slots.length (fd.val * 3 / 2))) := by
  cases l with
  | addRead w fd =>
    obtain ⟨t, ht, hinv, hio, -⟩ := h.addRead w fd
    cases ht.symm.trans hrun
    exact ⟨hinv, Or.inl hio⟩
  | addWrite w fd =>
    obtain ⟨t, ht, hinv, hio, -⟩ := h.addWrite henabled
    cases ht.symm.trans hrun
    exact ⟨hinv, Or.inr ⟨w, fd, rfl, hio⟩⟩
  | getRead w fd =>
    obtain ⟨t, ht, hinv, hio, -⟩ := h.getRead w fd
    cases ht.symm.trans hrun
    exact ⟨hinv, Or.inl hio⟩
  | getWrite w fd ctx =>
    rcases Nat.lt_or_ge fd.val (s.mgr.sizeFor fd.val) with hfd | hfd
    · obtain ⟨t, ht, hinv, hio, -⟩ := h.getWrite w ctx hfd
      cases ht.symm.trans hrun
      exact ⟨hinv, Or.inl hio⟩
    · cases (run_getWrite_fault w ctx hfd).symm.trans hrun

theorem inductive_inv : (machine (W := W)).Inductive Inv where
  init := by
    rintro s ⟨hio, hmgr, hpc, hstored⟩
    have hlength : s.io.slots.length = 32 := by rw [hio, new_eq, length_filled]
    have hfds : s.mgr.fds.length = 64 := by rw [hmgr]; rfl
    constructor
    case io => rw [hlength, hio, new_eq]
    case ioLeast => omega
    case ioLt => omega
    case mgrLeast => omega
    case mgrLt => omega
    case adding => exact fun w fd hw => nomatch (hpc w).symm.trans hw
    case stored =>
      rw [hstored]
      exact fun fd p hp => nomatch hp
  step _ _ _ h hstep := (h.of_run hstep.1 hstep.2).1

/-! ## Which sections are right -/

theorem Inv.sectionRight_iff {s : State W} (h : Inv s) {l : Label W} (henabled : Enabled s l) :
    SectionRight s l ↔ Meets s l := by
  cases l with
  | addRead w fd =>
    obtain ⟨s', hs', -, hio, hmgr⟩ := h.addRead w fd
    refine iff_of_true ⟨s', hs', ?_⟩ trivial
    exact (grows_filled h.io (hio.trans h.io) (Nat.le_refl _) (by rw [hmgr])).mpr (Or.inr rfl)
  | addWrite w fd =>
    obtain ⟨s', hs', -, hio, hmgr⟩ := h.addWrite henabled
    have hiff := grows_filled h.io hio (Nat.le_max_left _ _) (by rw [hmgr])
    constructor
    · rintro ⟨t, ht, hgrows⟩
      cases hs'.symm.trans ht
      have := hiff.mp hgrows
      show fd.val * 3 / 2 ≤ 2 ^ 31 ∨ fd.val * 3 / 2 ≤ s.io.slots.length
      omega
    · intro hmeets
      refine ⟨s', hs', hiff.mpr ?_⟩
      have : fd.val * 3 / 2 ≤ 2 ^ 31 ∨ fd.val * 3 / 2 ≤ s.io.slots.length := hmeets
      omega
  | getRead w fd =>
    obtain ⟨s', hs', -, hio, hmgr⟩ := h.getRead w fd
    refine iff_of_true ⟨s', hs', ?_⟩ trivial
    exact (grows_filled h.io (hio.trans h.io) (Nat.le_refl _) (by rw [hmgr])).mpr (Or.inr rfl)
  | getWrite w fd ctx =>
    refine Iff.trans ?_ (fits_iff h.mgrLeast h.mgrLt fd.isLt).symm
    constructor
    · rintro ⟨t, ht, hgrows⟩
      rcases Nat.lt_or_ge fd.val (s.mgr.sizeFor fd.val) with hfd | hfd
      · obtain ⟨s', hs', -, -, hlength⟩ := h.getWrite w ctx hfd
        cases hs'.symm.trans ht
        exact ⟨hfd, hlength ▸ hgrows.mgr⟩
      · cases (run_getWrite_fault w ctx hfd).symm.trans ht
    · rintro ⟨hfd, hle⟩
      obtain ⟨s', hs', -, hio, hlength⟩ := h.getWrite w ctx hfd
      refine ⟨s', hs', ?_⟩
      exact (grows_filled h.io (hio.trans h.io) (Nat.le_refl _) (hlength.symm ▸ hle)).mpr
        (Or.inr rfl)

/-- The number of a context is its slot's, not the `int` that this wraps to. -/
def NumbersRight (s : State W) : Prop :=
  ∀ (i : Nat) (p : FdContextPtr), s.io.slots[i]? = some (some p) → p.fd = i

theorem meets_length {s : State W} (h : Reachable (machine.restrict Meets) s) :
    s.io.slots.length ≤ 2 ^ 31 := by
  have hinv : ∀ s : State W, Reachable (machine.restrict Meets) s → Inv s :=
    fun _ h => inductive_inv.reachable h.of_restrict
  refine Reachable.invariant (J := fun s => s.io.slots.length ≤ 2 ^ 31) hinv ?_ ?_ h
  · rintro s ⟨hio, -⟩
    rw [hio, new_eq, length_filled]
    omega
  · rintro s l s' h hle ⟨⟨henabled, hrun⟩, hmeets⟩
    rcases (h.of_run henabled hrun).2 with hio | ⟨w, fd, rfl, hio⟩
    · rw [hio]
      exact hle
    · rw [hio, length_filled]
      have : fd.val * 3 / 2 ≤ 2 ^ 31 ∨ fd.val * 3 / 2 ≤ s.io.slots.length := hmeets
      omega

/-- Where nothing has run. -/
def start : State Unit := ⟨FdContexts.new, FdManager.new, fun _ => .idle, []⟩

theorem reachable_start : Reachable machine start := Reachable.init ⟨rfl, rfl, fun _ => rfl, rfl⟩

/-- The least descriptor whose table is larger than `INT_MAX`. -/
def large : Descriptor := ⟨1431655766, by decide⟩

/-- The contexts and the pointers to them stay right in every run. A section also keeps the
sizes and its index exactly if it meets the bounds. -/
theorem reachable_right_iff {s : State W} (h : Reachable machine s) :
    PointersRight s ∧ (Reachable (machine.restrict Meets) s → NumbersRight s) ∧
      ∀ l, Enabled s l → (SectionRight s l ↔ Meets s l) := by
  have hinv : Inv s := inductive_inv.reachable h
  refine ⟨hinv.pointersRight, fun hmeets i p hp => ?_, fun l => hinv.sectionRight_iff⟩
  have hlength := meets_length hmeets
  obtain ⟨q, hq, hfd⟩ := hinv.pointersRight.full i (List.getElem?_eq_some_iff.mp hp).1
  cases hp.symm.trans hq
  have hi := (List.getElem?_eq_some_iff.mp hp).1
  rw [hfd, castInt_of_lt (by omega)]

/-- `addEvent` of a descriptor past the 32 slots has to grow the table. -/
theorem run_adding {fd : Descriptor} (h : 32 ≤ fd.val) :
    run start (.addRead () fd) = .ok () (start.setPc () (.adding fd)) := by
  have hlt : 32 < 2 ^ 32 := by decide
  have hread := addRead_filled hlt fd.val
  rw [← new_eq, if_neg (by omega)] at hread
  rw [run, start, hread]
  rfl

/-- Descriptor 40 takes 28 slots more. -/
theorem reachable_right_iff_grown : ∃ s s' : State Unit, s.io.slots.length = 32 ∧
    s'.io.slots.length = 60 ∧ PointersRight s ∧ NumbersRight s ∧
      run s (.addWrite () ⟨40, by decide⟩) = .ok () s' ∧ Grows s s' := by
  have hread : machine.step start (.addRead () ⟨40, by decide⟩)
      (start.setPc () (.adding ⟨40, by decide⟩)) := ⟨rfl, run_adding (by decide)⟩
  have hstart : Reachable (machine.restrict Meets) start := .init ⟨rfl, rfl, fun _ => rfl, rfl⟩
  have hright := reachable_right_iff (reachable_start.step hread)
  obtain ⟨s', hrun, hgrows⟩ :=
    (hright.2.2 (.addWrite () ⟨40, by decide⟩) rfl).mpr (Or.inl (by decide))
  have hwrite : addWrite (40 : Nat) (filled 32) = .ok (made 40) (filled 60) :=
    addWrite_filled (by decide)
  rw [← new_eq] at hwrite
  have hlength : s'.io.slots.length = 60 := by
    rw [run, show (start.setPc () _).io = FdContexts.new from rfl, hwrite] at hrun
    cases hrun
    exact length_filled 60
  have hslots : start.io.slots.length = 32 := by rw [start, new_eq, length_filled]
  have hnumbers := hright.2.1 (hstart.step ⟨hread, trivial⟩)
  exact ⟨start.setPc () (.adding ⟨40, by decide⟩), s', hslots, hlength, hright.1, hnumbers,
    hrun, hgrows⟩

/-! ## A table that shrinks -/

theorem reachable_run {s s' : State W} {l : Label W} (h : Reachable machine s)
    (hrun : run s l = .ok () s') (henabled : Enabled s l) : Reachable machine s' :=
  h.step ⟨henabled, hrun⟩

theorem run_getRead {s : State W} (w : W) {fd : Descriptor}
    (h : castInt s.mgr.fds.length ≤ fd.val) :
    run s (.getRead w fd) = .ok () (s.setPc w (.storing fd)) := by
  have hlook : look fd.val true s.mgr = .ok none s.mgr := by
    rw [look, if_neg (by omega), if_pos h]
    rfl
  rw [run, hlook]
  rfl

theorem castInt_large_le {m : FdManager} (h : m.fds.length = 2147483649) (fd : Nat) :
    castInt m.fds.length ≤ fd := by
  have hneg : castInt 2147483649 < 0 := by decide
  rw [h]
  omega

/-- After `get(large, true)` every `get(fd, true)` wants to grow. -/
theorem reachable_large (fd : Descriptor) :
    ∃ s : State Unit, Reachable machine s ∧ s.pc () = .storing fd ∧
      s.mgr.fds.length = 2147483649 := by
  have hread : run start (.getRead () large) = .ok () (start.setPc () (.storing large)) :=
    run_getRead () (by decide)
  have hstoring := reachable_run reachable_start hread rfl
  have hsize : start.mgr.sizeFor large.val = 2147483649 := by decide
  obtain ⟨m, hwrite, hlength⟩ :=
    run_getWrite (s := start.setPc () (.storing large)) () large 0 (by decide)
  have hlarge := reachable_run hstoring hwrite rfl
  have hlength : m.fds.length = 2147483649 := hlength.trans hsize
  exact ⟨_, reachable_run hlarge (run_getRead () (castInt_large_le hlength fd.val)) rfl, rfl,
    hlength⟩

theorem reachable_adding : Reachable machine (start.setPc () (.adding large)) :=
  reachable_run reachable_start (run_adding (by decide)) rfl

/-- After it `get(5, true)` leaves 7 slots, and `get(0, true)` none to store in. The last
context that `addEvent(large)` makes has a negative number. -/
theorem table_shrinks :
    (∃ s s' : State Unit, Reachable machine s ∧ Enabled s (.getWrite () ⟨5, by decide⟩ 1) ∧
      run s (.getWrite () ⟨5, by decide⟩ 1) = .ok () s' ∧
      s.mgr.fds.length = 2147483649 ∧ s'.mgr.fds.length = 7) ∧
    (∃ s : State Unit, Reachable machine s ∧ Enabled s (.getWrite () ⟨0, by decide⟩ 1) ∧
      run s (.getWrite () ⟨0, by decide⟩ 1) = .fault .outOfBounds) ∧
    ∃ s : State Unit, Reachable machine s ∧ Enabled s (.addWrite () large) ∧
      ¬SectionRight s (.addWrite () large) := by
  refine ⟨?_, ?_, ?_⟩
  · obtain ⟨s, hs, hpc, hlength⟩ := reachable_large ⟨5, by decide⟩
    have hsize : s.mgr.sizeFor 5 = 7 := if_pos (castInt_large_le hlength 5)
    obtain ⟨m, hrun, hm⟩ :=
      run_getWrite (s := s) () ⟨5, by decide⟩ 1 (by rw [hsize]; decide)
    exact ⟨s, _, hs, hpc, hrun, hlength, hm.trans hsize⟩
  · obtain ⟨s, hs, hpc, hlength⟩ := reachable_large ⟨0, by decide⟩
    have hsize : s.mgr.sizeFor 0 = 0 := if_pos (castInt_large_le hlength 0)
    exact ⟨s, hs, hpc, run_getWrite_fault () 1 (by rw [hsize])⟩
  · have hinv : Inv (start.setPc () (.adding large)) := inductive_inv.reachable reachable_adding
    refine ⟨_, reachable_adding, rfl, fun hright => ?_⟩
    have hlength : start.io.slots.length = 32 := by rw [start, new_eq, length_filled]
    have hmeets : large.val * 3 / 2 ≤ 2 ^ 31 ∨ large.val * 3 / 2 ≤ start.io.slots.length :=
      (hinv.sectionRight_iff (l := .addWrite () large) rfl).mp hright
    rw [hlength] at hmeets
    exact absurd hmeets (by decide)

end FdTables

end TwServer
