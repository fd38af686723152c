import TwServer.Hook.FdManager

/-! The descriptors of `tw::Socket` between the kernel and `FdManager`, with any number of threads
inside `newSock`, `accept` and `close`. The hooks of `socket` and `accept` go through the steps of
`get(fd, true)` with a new descriptor; the hook of `close` takes the context away before the kernel
gets the descriptor back. -/

namespace TwServer
open Programs Runs

namespace Descriptors

/-- What a descriptor is opened for: `newSock` of a `Socket`, or a new one for `accept`. -/
inductive Opening (S : Type) where
  | newSock (x : S)
  | accept (x : S)

def Opening.sock {S : Type} : Opening S → S
  | newSock x => x
  | accept x => x

/-- Where a thread is in a method of a `Socket`. -/
inductive Pc (S : Type) where
  | idle
  /-- in `get(fd, true)` -/
  | getting (how : Opening S) (fd : Nat) (place : FdManager.Place)
  /-- the hook returned to `newSock` or `accept` -/
  | returned (how : Opening S) (fd : Nat)
  /-- before the `get(fd)` of the hooked `close` -/
  | closing (x : S) (fd : Nat)
  /-- before `del(fd)` -/
  | cancelled (x : S) (fd : Nat)
  /-- before `close_f` -/
  | deleted (x : S) (fd : Nat)
  /-- before `m_sock = -1` -/
  | closed (x : S)

/-- The `Socket` whose method the thread is in. -/
def Pc.uses {S : Type} : Pc S → Option S
  | idle => none
  | getting how _ _ | returned how _ => some how.sock
  | closing x _ | cancelled x _ | deleted x _ | closed x => some x

/-- The descriptor the thread has to see to, and whether it has a context by then. -/
def Pc.holds {S : Type} : Pc S → Option (Nat × Bool)
  | getting _ fd _ | deleted _ fd => some (fd, false)
  | returned _ fd | closing _ fd | cancelled _ fd => some (fd, true)
  | idle | closed _ => none

/-- The context that the thread has made and not stored yet, and for which descriptor. -/
def Pc.making {S : Type} : Pc S → Option (Nat × FdCtxId)
  | getting _ fd place => place.ctx.map (fd, ·)
  | _ => none

theorem Pc.holds_making {S : Type} {pc : Pc S} {fd : Nat} {ctx : FdCtxId}
    (h : pc.making = some (fd, ctx)) : pc.holds = some (fd, false) := by
  cases pc with
  | getting how fd' place =>
    obtain ⟨c, -, he⟩ := Option.map_eq_some_iff.mp h
    cases he
    rfl
  | _ => cases h

/-- Where `get(fd, true)` goes on, or it has returned. -/
def Pc.afterGet {S : Type} (how : Opening S) (fd : Nat) : Option FdManager.Place → Pc S
  | some place => .getting how fd place
  | none => .returned how fd

/-- `kernel` numbers the descriptors in the order of their opening. `served` is the number of the
descriptor that a context was made for. -/
structure State (T S : Type) where
  kernel : Nat → Option Nat
  serial : Nat
  shared : FdManager.Shared
  served : FdCtxId → Option Nat
  sock : S → Option Nat
  connected : S → Bool
  pc : T → Pc S

variable {T S : Type}

/-- No thread is in a method of the `Socket`. -/
def State.Free (s : State T S) (x : S) : Prop := ∀ t, (s.pc t).uses ≠ some x

variable [DecidableEq T] [DecidableEq S]

def State.setPc (s : State T S) (t : T) (pc : Pc S) : State T S :=
  { s with pc := Function.update s.pc t pc }

/-- `init` takes a descriptor with the context of an open socket. -/
def Accepts (s : State T S) (ctx : FdCtxId) : Prop :=
  (s.shared.ctxs ctx).managed = true

/-- `m_fds` after a lock section. -/
def State.setMgr (s : State T S) (m : FdManager) : State T S :=
  { s with shared := { s.shared with mgr := m } }

/-- After a step of `get(fd, true)`. -/
def State.afterGet (s : State T S) (t : T) (how : Opening S) (fd : Nat) (place : FdManager.Place)
    (sh : FdManager.Shared) (next : Option FdManager.Place) : State T S :=
  { s.setPc t (.afterGet how fd next) with
    shared := sh
    served := if place = .creating then
      Function.update s.served s.shared.next (s.kernel fd) else s.served }

def State.setCtx (s : State T S) (ctx : FdCtxId) (c : FdCtx) : State T S :=
  { s with shared := { s.shared with ctxs := Function.update s.shared.ctxs ctx c } }

/-- The steps of the threads. A `Socket` is in the hands of one thread at a time. `hook t` is the
thread's `t_hook_enable`, and the kernel opens descriptors below `limit` only. -/
inductive Step (hook : T → Bool) (limit : Nat) : State T S → T → State T S → Prop
  | open {s : State T S} {t : T} (how : Opening S) (fd : Nat) (pc : s.pc t = .idle)
      (free : s.Free how.sock) (invalid : s.sock how.sock = none) (unused : s.kernel fd = none)
      (below : fd < limit) :
      Step hook limit s t
        { s.setPc t (if hook t then .getting how fd .looking else .returned how fd) with
          kernel := Function.update s.kernel fd (some s.serial), serial := s.serial + 1 }
  | get {s : State T S} {t : T} {how : Opening S} {fd : Nat} {place : FdManager.Place}
      {es : List FdManager.Event} {sh : FdManager.Shared} {next : Option FdManager.Place}
      (pc : s.pc t = .getting how fd place)
      (step : FdManager.GetStep fd true ((s.kernel fd).map fun _ => true) s.shared place es sh
        next) :
      Step hook limit s t (s.afterGet t how fd place sh next)
  | settle {s : State T S} {t : T} {x : S} {fd : Nat} (pc : s.pc t = .returned (.newSock x) fd) :
      Step hook limit s t { s.setPc t .idle with sock := Function.update s.sock x (some fd) }
  | init {s : State T S} {t : T} {x : S} {fd : Nat} {ctx : FdCtxId} {m : FdManager}
      (pc : s.pc t = .returned (.accept x) fd)
      (run : FdManager.look fd false s.shared.mgr = .ok (some (some ctx)) m)
      (takes : Accepts s ctx) :
      Step hook limit s t
        { (s.setPc t .idle).setMgr m with
          sock := Function.update s.sock x (some fd)
          connected := Function.update s.connected x true }
  | initFails {s : State T S} {t : T} {x : S} {fd : Nat} {ctx : Option FdCtxId} {m : FdManager}
      (pc : s.pc t = .returned (.accept x) fd)
      (run : FdManager.look fd false s.shared.mgr = .ok (some ctx) m)
      (refuses : ∀ c, ctx = some c → ¬ Accepts s c) :
      Step hook limit s t ((s.setPc t .idle).setMgr m)
  | connect {s : State T S} {t : T} {x : S} (pc : s.pc t = .idle) (free : s.Free x)
      (valid : (s.sock x).isSome) :
      Step hook limit s t { s with connected := Function.update s.connected x true }
  | close {s : State T S} {t : T} {x : S} {fd : Nat} (pc : s.pc t = .idle) (free : s.Free x)
      (valid : s.sock x = some fd) :
      Step hook limit s t
        { s.setPc t (if hook t then .closing x fd else .deleted x fd) with
          connected := Function.update s.connected x false }
  | closeInvalid {s : State T S} {t : T} {x : S} (pc : s.pc t = .idle) (free : s.Free x)
      (invalid : s.sock x = none) :
      Step hook limit s t { s with connected := Function.update s.connected x false }
  | cancelAll {s : State T S} {t : T} {x : S} {fd : Nat} {ctx : FdCtxId} {m : FdManager}
      (pc : s.pc t = .closing x fd)
      (run : FdManager.look fd false s.shared.mgr = .ok (some (some ctx)) m) :
      Step hook limit s t ((s.setPc t (.cancelled x fd)).setMgr m)
  | unmanaged {s : State T S} {t : T} {x : S} {fd : Nat} {m : FdManager}
      (pc : s.pc t = .closing x fd)
      (run : FdManager.look fd false s.shared.mgr = .ok (some none) m) :
      Step hook limit s t ((s.setPc t (.deleted x fd)).setMgr m)
  | del {s : State T S} {t : T} {x : S} {fd : Nat} {m : FdManager} (pc : s.pc t = .cancelled x fd)
      (run : FdManager.del fd s.shared.mgr = .ok () m) :
      Step hook limit s t ((s.setPc t (.deleted x fd)).setMgr m)
  | closeF {s : State T S} {t : T} {x : S} {fd : Nat} (pc : s.pc t = .deleted x fd) :
      Step hook limit s t
        { s.setPc t (.closed x) with kernel := Function.update s.kernel fd none }
  | reset {s : State T S} {t : T} {x : S} (pc : s.pc t = .closed x) :
      Step hook limit s t { s.setPc t .idle with sock := Function.update s.sock x none }
  | setTimeout {s : State T S} {t : T} (ctx : FdCtxId) (type : TimeoutType) (timeout : Nat) :
      Step hook limit s t (s.setCtx ctx ((s.shared.ctxs ctx).setTimeout type timeout))
  | setUsrNonBlock {s : State T S} {t : T} (ctx : FdCtxId) (v : Bool) :
      Step hook limit s t (s.setCtx ctx ((s.shared.ctxs ctx).setUsrNonBlock v))

/-- No descriptor is open, and no `Socket` is valid. -/
def init (s : State T S) : Prop :=
  (∀ fd, s.kernel fd = none) ∧ s.shared.mgr = FdManager.new ∧ (∀ x, s.sock x = none) ∧
    ∀ t, s.pc t = .idle

def machine (hook : T → Bool) (limit : Nat) : System (State T S) T := ⟨init, Step hook limit⟩

/-! ## Who holds a descriptor -/

inductive Place (T S : Type) where
  | sock (x : S)
  | thread (t : T)

omit [DecidableEq T] [DecidableEq S]

/-- The descriptor is in `m_sock` of a `Socket` that no thread is in, or a thread has it in
hand. The flag says whether it has a context. -/
def State.Holds (s : State T S) : Place T S → Nat → Bool → Prop
  | .sock x, fd, b => s.Free x ∧ s.sock x = some fd ∧ b = true
  | .thread t, fd, b => (s.pc t).holds = some (fd, b)

/-- The context was made for the descriptor as it is open now. -/
structure State.Serves (s : State T S) (ctx : FdCtxId) (fd : Nat) : Prop where
  known : ctx < s.shared.next
  current : s.served ctx = s.kernel fd
  takes : Accepts s ctx

/-- `p` alone holds the descriptor; it is open, and `b` says whether it has a context. -/
structure State.HeldBy (s : State T S) (fd : Nat) (p : Place T S) (b : Bool) : Prop where
  isOpen : s.kernel fd ≠ none
  holder : ∀ q b', s.Holds q fd b' ↔ q = p ∧ b' = b
  slot : (s.shared.mgr.slot fd).isSome = b
  serves : ∀ ctx, s.shared.mgr.slot fd = some ctx → s.Serves ctx fd

/-- Nothing is left of a descriptor that is not open. -/
structure State.Gone (s : State T S) (fd : Nat) : Prop where
  notOpen : s.kernel fd = none
  slot : s.shared.mgr.slot fd = none
  holder : ∀ p b, ¬ s.Holds p fd b

def State.Kept (s : State T S) (fd : Nat) : Prop := s.Gone fd ∨ ∃ p b, s.HeldBy fd p b

structure Inv (s : State T S) : Prop where
  kept : ∀ fd, s.Kept fd
  made : ∀ t fd ctx, (s.pc t).making = some (fd, ctx) → s.Serves ctx fd
  uses : ∀ t u x, (s.pc t).uses = some x → (s.pc u).uses = some x → t = u

section Kept
variable {s s' : State T S} {fd : Nat} {p : Place T S} {b : Bool}

theorem Inv.heldBy (h : Inv s) (hp : s.Holds p fd b) : s.HeldBy fd p b := by
  rcases h.kept fd with hgone | ⟨q, b', hheld⟩
  · exact absurd hp (hgone.holder p b)
  · obtain ⟨rfl, rfl⟩ := (hheld.holder p b).mp hp
    exact hheld

theorem Inv.hand (h : Inv s) {t : T} (hold : (s.pc t).holds = some (fd, b)) :
    s.HeldBy fd (.thread t) b :=
  h.heldBy (p := .thread t) hold

theorem Inv.gone (h : Inv s) (hfd : s.kernel fd = none) : s.Gone fd := by
  rcases h.kept fd with hgone | ⟨q, b', hheld⟩
  · exact hgone
  · exact absurd hfd hheld.isOpen

/-- A descriptor that a step leaves alone. -/
theorem State.Kept.congr (h : s.Kept fd) (hkernel : s'.kernel fd = s.kernel fd)
    (hslot : s'.shared.mgr.slot fd = s.shared.mgr.slot fd)
    (hholds : ∀ p b, s'.Holds p fd b ↔ s.Holds p fd b)
    (hserves : ∀ ctx, s.Serves ctx fd → s'.Serves ctx fd) : s'.Kept fd := by
  rcases h with hgone | ⟨p, b, hheld⟩
  · refine .inl ⟨hkernel.trans hgone.notOpen, hslot.trans hgone.slot, fun p b hp => ?_⟩
    exact hgone.holder p b ((hholds p b).mp hp)
  · refine .inr ⟨p, b, hkernel ▸ hheld.isOpen, fun q b' => (hholds q b').trans (hheld.holder q b'),
      hslot.symm ▸ hheld.slot, fun ctx hctx => hserves ctx (hheld.serves ctx (hslot ▸ hctx))⟩

theorem State.Serves.congr {ctx : FdCtxId} (h : s.Serves ctx fd)
    (hnext : s.shared.next ≤ s'.shared.next)
    (hkernel : s'.kernel fd = s.kernel fd) (hserved : s'.served ctx = s.served ctx)
    (hctxs : Accepts s ctx → Accepts s' ctx) : s'.Serves ctx fd :=
  ⟨Nat.lt_of_lt_of_le h.known hnext, (hserved.trans h.current).trans hkernel.symm, hctxs h.takes⟩

/-- Serving does not depend on the rest of the state. -/
theorem State.Serves.same {ctx : FdCtxId} (h : s.Serves ctx fd) {serial : Nat} {mgr : FdManager}
    {sock : S → Option Nat} {connected : S → Bool} {pc : T → Pc S} :
    (State.mk s.kernel serial { s.shared with mgr := mgr } s.served sock connected pc).Serves ctx
      fd :=
  ⟨h.known, h.current, h.takes⟩

end Kept

/-! ## The holders after a step -/

section Holders
variable [DecidableEq T] {s s' : State T S} {t : T} {x : S} {a : Pc S} {fd : Nat}
  {p : Place T S} {b : Bool}

theorem pc_of_ne {u : T} (hpc : s'.pc = Function.update s.pc t a) (hu : u ≠ t) :
    s'.pc u = s.pc u := by
  rw [hpc, Function.update_of_ne hu]

theorem pc_self (hpc : s'.pc = Function.update s.pc t a) : s'.pc t = a := by
  rw [hpc, Function.update_self]

/-- Inside a method. -/
theorem holds_turn (hpc : s'.pc = Function.update s.pc t a) (hsock : s'.sock = s.sock)
    (huses : a.uses = (s.pc t).uses) :
    s'.Holds p fd b ↔ p = .thread t ∧ a.holds = some (fd, b) ∨ p ≠ .thread t ∧ s.Holds p fd b := by
  cases p with
  | thread u =>
    by_cases hu : u = t
    · subst hu
      simp [State.Holds, pc_self hpc]
    · simp [State.Holds, pc_of_ne hpc hu, hu]
  | sock y =>
    have hfree : s'.Free y ↔ s.Free y := by
      refine forall_congr' fun u => ?_
      by_cases hu : u = t
      · subst hu
        rw [pc_self hpc, huses]
      · rw [pc_of_ne hpc hu]
    simp [State.Holds, hsock, hfree]

/-- On the way into a method of `x`. -/
theorem holds_enter (hpc : s'.pc = Function.update s.pc t a) (hsock : s'.sock = s.sock)
    (hidle : s.pc t = .idle) (huses : a.uses = some x) :
    s'.Holds p fd b ↔
      p = .thread t ∧ a.holds = some (fd, b) ∨ p ≠ .thread t ∧ p ≠ .sock x ∧ s.Holds p fd b := by
  cases p with
  | thread u =>
    by_cases hu : u = t
    · subst hu
      simp [State.Holds, pc_self hpc]
    · simp [State.Holds, pc_of_ne hpc hu, hu]
  | sock y =>
    have hfree : s'.Free y ↔ y ≠ x ∧ s.Free y := by
      constructor
      · intro h
        refine ⟨fun hy => h t (by rw [pc_self hpc, huses, hy]), fun u => ?_⟩
        by_cases hu : u = t
        · rw [hu, hidle]
          exact Option.some_ne_none _ |>.symm
        · exact pc_of_ne hpc hu ▸ h u
      · rintro ⟨hy, h⟩ u
        by_cases hu : u = t
        · rw [hu, pc_self hpc, huses]
          exact fun he => hy (Option.some.inj he).symm
        · exact pc_of_ne hpc hu ▸ h u
    simp [State.Holds, hsock, hfree, and_assoc]

variable [DecidableEq S]

/-- On the way out of a method of `x`, with `m_sock` set to `v`. -/
theorem holds_leave (h : Inv s) (hpc : s'.pc = Function.update s.pc t .idle) {v : Option Nat}
    (hsock : s'.sock = Function.update s.sock x v) (huses : (s.pc t).uses = some x) :
    s'.Holds p fd b ↔
      p = .sock x ∧ v = some fd ∧ b = true ∨ p ≠ .sock x ∧ p ≠ .thread t ∧ s.Holds p fd b := by
  cases p with
  | thread u =>
    by_cases hu : u = t
    · subst hu
      simp [State.Holds, pc_self hpc, Pc.holds]
    · simp [State.Holds, pc_of_ne hpc hu, hu]
  | sock y =>
    by_cases hy : y = x
    · subst hy
      have hfree : s'.Free y := by
        intro u hu
        by_cases hut : u = t
        · rw [hut, pc_self hpc] at hu
          cases hu
        · rw [pc_of_ne hpc hut] at hu
          exact hut (h.uses u t y hu huses)
      simp [State.Holds, hsock, hfree]
    · have hfree : s'.Free y ↔ s.Free y := by
        refine forall_congr' fun u => ?_
        by_cases hu : u = t
        · rw [hu, pc_self hpc, huses]
          simp [Pc.uses, Ne.symm hy]
        · rw [pc_of_ne hpc hu]
      simp [State.Holds, hsock, hy, hfree]

end Holders

/-! ## What the steps keep -/

section Steps
variable [DecidableEq T] {s s' : State T S} {t : T} {x : S} {a : Pc S} {fd : Nat} {b c : Bool}

theorem uses_update (h : Inv s) (hpc : s'.pc = Function.update s.pc t a)
    (huses : ∀ y, a.uses = some y → (s.pc t).uses = some y ∨ s.Free y) (u v : T) (y : S)
    (hu : (s'.pc u).uses = some y) (hv : (s'.pc v).uses = some y) : u = v := by
  have hother : ∀ w, w ≠ t → (s'.pc w).uses = some y → (s'.pc t).uses = some y → False := by
    intro w hw hwy hty
    rw [pc_of_ne hpc hw] at hwy
    rw [pc_self hpc] at hty
    rcases huses y hty with hold | hfree
    · exact hw (h.uses w t y hwy hold)
    · exact hfree w hwy
  by_cases hut : u = t
  · by_cases hvt : v = t
    · rw [hut, hvt]
    · exact (hother v hvt hv (hut ▸ hu)).elim
  · by_cases hvt : v = t
    · exact (hother u hut hu (hvt ▸ hv)).elim
    · rw [pc_of_ne hpc hut] at hu
      rw [pc_of_ne hpc hvt] at hv
      exact h.uses u v y hu hv

/-- A step of a thread with a descriptor in hand that concerns no other descriptor. -/
theorem Inv.turn (h : Inv s) (hpc : s'.pc = Function.update s.pc t a) (hsock : s'.sock = s.sock)
    (huses : a.uses = (s.pc t).uses) (hold : (s.pc t).holds = some (fd, b))
    (hnew : a.holds = some (fd, c)) (hkernel : s'.kernel = s.kernel)
    (hslots : ∀ fd' : Nat, fd' ≠ fd → s'.shared.mgr.slot fd' = s.shared.mgr.slot fd')
    (hslot : (s'.shared.mgr.slot fd).isSome = c)
    (hctx : ∀ ctx, s'.shared.mgr.slot fd = some ctx → s'.Serves ctx fd)
    (hserves : ∀ ctx fd', s.Serves ctx fd' → s'.Serves ctx fd')
    (hmade : ∀ fd' ctx, a.making = some (fd', ctx) → s'.Serves ctx fd') : Inv s' := by
  have hheld := h.hand hold
  refine ⟨fun fd' => ?_, fun u fd' ctx hu => ?_, uses_update h hpc fun y hy => .inl (huses ▸ hy)⟩
  · by_cases hfd : fd' = fd
    · subst hfd
      refine .inr ⟨.thread t, c, hkernel ▸ hheld.isOpen, fun q b'' => ?_, hslot, hctx⟩
      rw [holds_turn hpc hsock huses, hnew, hheld.holder]
      constructor
      · rintro (⟨rfl, he⟩ | ⟨hne, rfl, -⟩)
        · exact ⟨rfl, (Prod.mk.inj (Option.some.inj he)).2.symm⟩
        · exact absurd rfl hne
      · rintro ⟨rfl, rfl⟩
        exact .inl ⟨rfl, rfl⟩
    · refine (h.kept fd').congr (congrFun hkernel fd') (hslots fd' hfd) (fun q b'' => ?_)
        fun ctx => hserves ctx fd'
      rw [holds_turn hpc hsock huses, hnew]
      constructor
      · rintro (⟨-, he⟩ | ⟨-, hq⟩)
        · exact absurd (Prod.mk.inj (Option.some.inj he)).1.symm hfd
        · exact hq
      · intro hq
        refine .inr ⟨?_, hq⟩
        rintro rfl
        exact hfd (Prod.mk.inj (Option.some.inj (hq.symm.trans hold))).1
  · by_cases hut : u = t
    · rw [hut, pc_self hpc] at hu
      exact hmade fd' ctx hu
    · rw [pc_of_ne hpc hut] at hu
      exact hserves ctx fd' (h.made u fd' ctx hu)

omit [DecidableEq T] in
/-- A step that moves no descriptor. -/
theorem Inv.still (h : Inv s) (hpc : s'.pc = s.pc) (hsock : s'.sock = s.sock)
    (hkernel : s'.kernel = s.kernel) (hmgr : s'.shared.mgr = s.shared.mgr)
    (hserves : ∀ ctx fd, s.Serves ctx fd → s'.Serves ctx fd) : Inv s' := by
  refine ⟨fun fd => ?_, fun t fd ctx ht => ?_, ?_⟩
  · refine (h.kept fd).congr (congrFun hkernel fd) (by rw [hmgr]) (fun p b => ?_)
      fun ctx => hserves ctx fd
    cases p with
    | thread t => simp only [State.Holds, hpc]
    | sock y => simp only [State.Holds, State.Free, hpc, hsock]
  · exact hserves ctx fd (h.made t fd ctx (hpc ▸ ht))
  · rw [hpc]
    exact h.uses

/-- Out of a method with `m_sock` set to the descriptor in hand, if there is one. -/
theorem Inv.leave [DecidableEq S] (h : Inv s) (hpc : s'.pc = Function.update s.pc t .idle)
    {v : Option Nat} (hsock : s'.sock = Function.update s.sock x v)
    (huses : (s.pc t).uses = some x) (hold : (s.pc t).holds = v.map (·, true))
    (hkernel : s'.kernel = s.kernel) (hmgr : s'.shared.mgr = s.shared.mgr)
    (hserves : ∀ ctx fd, s.Serves ctx fd → s'.Serves ctx fd) : Inv s' := by
  have hbusy : ∀ fd b, ¬ s.Holds (.sock x) fd b := fun fd b hx => hx.1 t huses
  refine ⟨fun fd => ?_, fun u fd ctx hu => ?_, uses_update h hpc fun y hy => by cases hy⟩
  · by_cases hv : v = some fd
    · have hheld := h.hand (hold.trans (congrArg (Option.map (·, true)) hv))
      refine .inr ⟨.sock x, true, hkernel ▸ hheld.isOpen, fun q b' => ?_, hmgr ▸ hheld.slot,
        fun ctx hctx => hserves ctx fd (hheld.serves ctx (hmgr ▸ hctx))⟩
      rw [holds_leave h hpc hsock huses, hheld.holder]
      constructor
      · rintro (⟨rfl, -, rfl⟩ | ⟨-, hne, rfl, -⟩)
        · exact ⟨rfl, rfl⟩
        · exact absurd rfl hne
      · rintro ⟨rfl, rfl⟩
        exact .inl ⟨rfl, hv, rfl⟩
    · refine (h.kept fd).congr (congrFun hkernel fd) (by rw [hmgr]) (fun q b' => ?_)
        fun ctx => hserves ctx fd
      rw [holds_leave h hpc hsock huses]
      constructor
      · rintro (⟨-, he, -⟩ | ⟨-, -, hq⟩)
        · exact absurd he hv
        · exact hq
      · intro hq
        refine .inr ⟨?_, ?_, hq⟩
        · rintro rfl
          exact hbusy fd b' hq
        · rintro rfl
          rw [State.Holds, hold] at hq
          cases v with
          | none => cases hq
          | some fd' => exact hv (congrArg some (Prod.mk.inj (Option.some.inj hq)).1)
  · by_cases hut : u = t
    · rw [hut, pc_self hpc] at hu
      cases hu
    · rw [pc_of_ne hpc hut] at hu
      exact hserves ctx fd (h.made u fd ctx hu)

/-- Into a method, with a new descriptor or that of the `Socket`. -/
theorem Inv.enter (h : Inv s) (hpc : s'.pc = Function.update s.pc t a) (hsock : s'.sock = s.sock)
    (hidle : s.pc t = .idle) (huses : a.uses = some x) (hfree : s.Free x)
    (hnew : a.holds = some (fd, b)) (hown : ∀ fd', s.sock x = some fd' → fd' = fd)
    (hbefore : ∀ p b', s.Holds p fd b' → p = .sock x)
    (hkernel : ∀ fd', fd' ≠ fd → s'.kernel fd' = s.kernel fd') (hopen : s'.kernel fd ≠ none)
    (hmgr : s'.shared.mgr = s.shared.mgr) (hslot : (s'.shared.mgr.slot fd).isSome = b)
    (hctx : ∀ ctx, s'.shared.mgr.slot fd = some ctx → s'.Serves ctx fd)
    (hserves : ∀ ctx fd', fd' ≠ fd → s.Serves ctx fd' → s'.Serves ctx fd')
    (hmade : a.making = none) : Inv s' := by
  refine ⟨fun fd' => ?_, fun u fd' ctx hu => ?_, uses_update h hpc fun y hy => .inr ?_⟩
  · by_cases hfd : fd' = fd
    · subst hfd
      refine .inr ⟨.thread t, b, hopen, fun q b' => ?_, hslot, hctx⟩
      rw [holds_enter hpc hsock hidle huses, hnew]
      constructor
      · rintro (⟨rfl, he⟩ | ⟨-, hne, hq⟩)
        · exact ⟨rfl, (Prod.mk.inj (Option.some.inj he)).2.symm⟩
        · exact absurd (hbefore q b' hq) hne
      · rintro ⟨rfl, rfl⟩
        exact .inl ⟨rfl, rfl⟩
    · refine (h.kept fd').congr (hkernel fd' hfd) (by rw [hmgr]) (fun q b' => ?_)
        fun ctx => hserves ctx fd' hfd
      rw [holds_enter hpc hsock hidle huses, hnew]
      constructor
      · rintro (⟨-, he⟩ | ⟨-, -, hq⟩)
        · exact absurd (Prod.mk.inj (Option.some.inj he)).1.symm hfd
        · exact hq
      · intro hq
        refine .inr ⟨?_, ?_, hq⟩
        · rintro rfl
          rw [State.Holds, hidle] at hq
          cases hq
        · rintro rfl
          exact hfd (hown fd' hq.2.1)
  · by_cases hut : u = t
    · rw [hut, pc_self hpc] at hu
      cases hmade.symm.trans hu
    · rw [pc_of_ne hpc hut] at hu
      refine hserves ctx fd' ?_ (h.made u fd' ctx hu)
      rintro rfl
      have hplace := hbefore (.thread u) false (Pc.holds_making hu)
      cases hplace
  · rw [huses] at hy
    exact Option.some.inj hy ▸ hfree

/-- The descriptor goes back to the kernel. -/
theorem Inv.closeF (h : Inv s) (hpc : s'.pc = Function.update s.pc t a) (hsock : s'.sock = s.sock)
    (huses : a.uses = (s.pc t).uses) (hold : (s.pc t).holds = some (fd, false))
    (hnew : a.holds = none) (hkernel : s'.kernel = Function.update s.kernel fd none)
    (hmgr : s'.shared.mgr = s.shared.mgr)
    (hserves : ∀ ctx fd', fd' ≠ fd → s.Serves ctx fd' → s'.Serves ctx fd')
    (hmade : a.making = none) : Inv s' := by
  have hheld := h.hand hold
  refine ⟨fun fd' => ?_, fun u fd' ctx hu => ?_, uses_update h hpc fun y hy => .inl (huses ▸ hy)⟩
  · by_cases hfd : fd' = fd
    · subst hfd
      refine .inl ⟨by rw [hkernel, Function.update_self], ?_, fun q b' => ?_⟩
      · have hslot := hheld.slot
        rw [hmgr]
        exact Option.not_isSome_iff_eq_none.mp (by rw [hslot]; exact Bool.false_ne_true)
      · rw [holds_turn hpc hsock huses, hnew, hheld.holder]
        rintro (⟨-, he⟩ | ⟨hne, rfl, -⟩)
        · cases he
        · exact hne rfl
    · refine (h.kept fd').congr (by rw [hkernel, Function.update_of_ne hfd]) (by rw [hmgr])
        (fun q b' => ?_) fun ctx => hserves ctx fd' hfd
      rw [holds_turn hpc hsock huses, hnew]
      constructor
      · rintro (⟨-, he⟩ | ⟨-, hq⟩)
        · cases he
        · exact hq
      · intro hq
        refine .inr ⟨?_, hq⟩
        rintro rfl
        exact hfd (Prod.mk.inj (Option.some.inj (hq.symm.trans hold))).1
  · by_cases hut : u = t
    · rw [hut, pc_self hpc] at hu
      cases hmade.symm.trans hu
    · rw [pc_of_ne hpc hut] at hu
      refine hserves ctx fd' ?_ (h.made u fd' ctx hu)
      rintro rfl
      have hplace := ((hheld.holder (.thread u) false).mp (Pc.holds_making hu)).1
      exact hut (Place.thread.inj hplace)

end Steps

/-! ## The size of the table -/

/-- `fd * 1.5` is never larger than `INT_MAX`. -/
structure Sized (limit : Nat) (s : State T S) : Prop where
  below : ∀ t how fd place, s.pc t = .getting how fd place → fd < limit
  size : s.shared.mgr.fds.length < 2 ^ 31

section Sized
variable [DecidableEq T] {limit : Nat} {s s' : State T S} {t : T} {a : Pc S}

theorem Sized.turn (h : Sized limit s) (hpc : s'.pc = Function.update s.pc t a)
    (ha : ∀ how fd place, a = .getting how fd place → fd < limit)
    (hsize : s'.shared.mgr.fds.length = s.shared.mgr.fds.length) : Sized limit s' := by
  refine ⟨fun u how fd place hu => ?_, hsize ▸ h.size⟩
  by_cases hut : u = t
  · rw [hut, pc_self hpc] at hu
    exact ha how fd place hu
  · exact h.below u how fd place (pc_of_ne hpc hut ▸ hu)

omit [DecidableEq T] in
theorem Sized.found (h : Sized limit s) (fd : Int) :
    s.shared.mgr.found fd = s.shared.mgr.slot fd := by
  have hsize := h.size
  exact (FdManager.found_eq_slot_iff (by omega)).mpr (.inl h.size)

variable [DecidableEq S] {hook : T → Bool}

theorem Sized.step (h : Sized limit s) (hlimit : limit ≤ 1431655766)
    (hstep : Step hook limit s t s') : Sized limit s' := by
  cases hstep with
  | «open» how fd pc free invalid unused below =>
    refine h.turn rfl (fun how' fd' place he => ?_) rfl
    split at he
    · cases he
      exact below
    · cases he
  | @get how fd place es sh next pc step =>
    have hbelow := h.below t how fd place pc
    refine ⟨fun u how' fd' place' hu => ?_, ?_⟩
    · by_cases hut : u = t
      · subst hut
        have hu : Pc.afterGet how fd next = _ := (Function.update_self u _ s.pc).symm.trans hu
        cases next with
        | none => cases hu
        | some q =>
          cases hu
          exact hbelow
      · exact h.below u how' fd' place' ((Function.update_of_ne hut _ s.pc).symm.trans hu)
    · have hsize := h.size
      show sh.mgr.fds.length < 2 ^ 31
      rcases step.mgr with hmgr | ⟨ctx, -, -, -, hrun⟩
      · exact hmgr ▸ hsize
      · have hlength := (FdManager.store_length hrun).2
        split at hlength <;> omega
  | del pc run => exact h.turn rfl (fun _ _ _ he => by cases he) (FdManager.del_length run)
  | init pc run takes | initFails pc run refuses | cancelAll pc run | unmanaged pc run =>
    obtain ⟨rfl, -⟩ := FdManager.look_found run
    exact h.turn rfl (fun _ _ _ he => by cases he) rfl
  | close pc free valid =>
    refine h.turn rfl (fun _ _ _ he => ?_) rfl
    split at he <;> cases he
  | settle pc | closeF pc | reset pc => exact h.turn rfl (fun _ _ _ he => by cases he) rfl
  | _ => exact ⟨h.below, h.size⟩

end Sized

/-! ## Every step with the hooks on -/

section Hooked
variable [DecidableEq T] [DecidableEq S] {hook : T → Bool} {limit : Nat} {s s' : State T S} {t : T}

omit [DecidableEq S] in
/-- A thread inside `get(fd, true)` with a descriptor that it alone holds. -/
theorem Inv.get (h : Inv s) (hsized : Sized limit s) {how : Opening S} {fd : Nat}
    {place : FdManager.Place} {es : List FdManager.Event} {sh : FdManager.Shared}
    {next : Option FdManager.Place} (hpc : s.pc t = .getting how fd place)
    (hstep : FdManager.GetStep fd true ((s.kernel fd).map fun _ => true) s.shared place es sh
      next) :
    Inv (s.afterGet t how fd place sh next) := by
  have hold : (s.pc t).holds = some (fd, false) := by rw [hpc]; rfl
  have hheld := h.hand hold
  have hnone := Option.isNone_iff_eq_none.mp (Option.isSome_eq_false_iff.mp hheld.slot)
  have hserves : ∀ ctx fd', s.Serves ctx fd' →
      (s.afterGet t how fd place sh next).Serves ctx fd' := by
    intro ctx fd' hs
    refine hs.congr hstep.next rfl ?_ fun htakes => (hstep.managed hs.known).trans htakes
    unfold State.afterGet
    dsimp only
    split
    · exact Function.update_of_ne (Nat.ne_of_lt hs.known) _ _
    · rfl
  have hmade : ∀ fd' ctx, (Pc.afterGet how fd next).making = some (fd', ctx) →
      (s.afterGet t how fd place sh next).Serves ctx fd' := by
    intro fd' ctx hmaking
    cases next with
    | none => cases hmaking
    | some q =>
      obtain ⟨c, hctx, he⟩ := Option.map_eq_some_iff.mp hmaking
      cases he
      rcases hstep.ctx hctx with hold | ⟨rfl, rfl, hnext, hnew⟩
      · exact hserves ctx fd (h.made t fd ctx (by rw [hpc, Pc.making, hold]; rfl))
      · -- the context is that of an open socket
        obtain ⟨serial, hserial⟩ := Option.ne_none_iff_exists'.mp hheld.isOpen
        refine ⟨hnext ▸ Nat.lt_succ_self _, ?_, ?_⟩
        · exact Function.update_self ..
        · show (sh.ctxs s.shared.next).managed = true
          rw [hnew, hserial]
          rfl
  cases next with
  | some q =>
    have hmgr : sh.mgr = s.shared.mgr := by
      rcases hstep.mgr with hmgr | ⟨_, -, he, -, -⟩
      · exact hmgr
      · cases he
    refine h.turn rfl rfl (by rw [hpc]; rfl) hold rfl rfl (fun fd' _ => congrArg (·.slot fd') hmgr)
      (hmgr ▸ hheld.slot) (fun ctx hctx => ?_) hserves hmade
    cases hnone.symm.trans ((congrArg (·.slot fd) hmgr).symm.trans hctx)
  | none =>
    rcases hstep.returned with ⟨r, hrun⟩ | ⟨ctx, rfl, hrun⟩
    · -- it finds no context before it has made one
      have hsome := FdManager.look_auto hrun (by omega)
      rw [FdManager.look_slot hrun, hnone] at hsome
      cases hsome
    · have hsize := hsized.size
      have hkept := (FdManager.store_spares_iff (by omega) hrun).mpr (.inl hsize)
      have hself := FdManager.store_self hrun
      refine h.turn (c := true) rfl rfl (by rw [hpc]; rfl) hold rfl rfl
        (fun fd' hne => hkept fd' (by omega)) ?_ (fun ctx' hctx => ?_) hserves hmade
      · show (sh.mgr.slot fd).isSome = true
        rw [hself]
        rfl
      · obtain rfl := Option.some.inj (hself.symm.trans hctx)
        exact hserves _ fd (h.made t fd _ (by rw [hpc]; rfl))

theorem Inv.step (h : Inv s) (hsized : Sized limit s) (hhook : ∀ t, hook t = true)
    (hstep : Step hook limit s t s') : Inv s' := by
  cases hstep with
  | «open» how fd pc free invalid unused below =>
    have hgone := h.gone unused
    rw [if_pos (hhook t)]
    refine h.enter (b := false) rfl rfl pc rfl free rfl
      (fun fd' hx => ?_) (fun p b hp => absurd hp (hgone.holder p b))
      (fun fd' hne => Function.update_of_ne hne _ _) ?_ rfl ?_ (fun ctx hctx => ?_)
      (fun ctx fd' hne hs => hs.congr (Nat.le_refl _) (Function.update_of_ne hne _ _) rfl id) rfl
    · rw [invalid] at hx
      cases hx
    · show Function.update s.kernel fd _ fd ≠ none
      simp
    · show (s.shared.mgr.slot fd).isSome = false
      rw [hgone.slot]
      rfl
    · cases hgone.slot.symm.trans hctx
  | get pc step => exact h.get hsized pc step
  | settle pc =>
    rename_i x fd
    exact h.leave (v := some fd) rfl rfl (by rw [pc]; rfl) (by rw [pc]; rfl) rfl rfl
      fun _ _ hs => hs.same
  | init pc run takes =>
    rename_i x fd ctx m
    obtain ⟨rfl, -⟩ := FdManager.look_found run
    exact h.leave (v := some fd) rfl rfl (by rw [pc]; rfl) (by rw [pc]; rfl) rfl rfl
      fun _ _ hs => hs.same
  | initFails pc run refuses =>
    rename_i x fd ctx m
    obtain ⟨rfl, hfound⟩ := FdManager.look_found run
    rw [hsized.found] at hfound
    subst hfound
    have hold : (s.pc t).holds = some (fd, true) := by rw [pc]; rfl
    have hheld := h.hand hold
    obtain ⟨c, hc⟩ := Option.isSome_iff_exists.mp hheld.slot
    exact absurd (hheld.serves c hc).takes (refuses c hc)
  | connect pc free valid => exact h.still rfl rfl rfl rfl fun _ _ hs => hs.same
  | close pc free valid =>
    rename_i x fd
    have hheld : s.HeldBy fd (.sock x) true := h.heldBy ⟨free, valid, rfl⟩
    rw [if_pos (hhook t)]
    exact h.enter (b := true) rfl rfl pc rfl free rfl
      (fun fd' hx => Option.some.inj (hx.symm.trans valid))
      (fun p b hp => ((hheld.holder p b).mp hp).1) (fun _ _ => rfl) hheld.isOpen rfl hheld.slot
      (fun ctx hctx => (hheld.serves ctx hctx).same) (fun _ _ _ hs => hs.same) rfl
  | closeInvalid pc free invalid => exact h.still rfl rfl rfl rfl fun _ _ hs => hs.same
  | cancelAll pc run =>
    rename_i x fd ctx m
    obtain ⟨rfl, -⟩ := FdManager.look_found run
    have hold : (s.pc t).holds = some (fd, true) := by rw [pc]; rfl
    have hheld := h.hand hold
    exact h.turn rfl rfl (by rw [pc]; rfl) hold rfl rfl
      (fun _ _ => rfl) hheld.slot (fun ctx hctx => (hheld.serves ctx hctx).same)
      (fun _ _ hs => hs.same) (fun _ _ he => by cases he)
  | unmanaged pc run =>
    rename_i x fd m
    obtain ⟨rfl, hnone⟩ := FdManager.look_found run
    have hold : (s.pc t).holds = some (fd, true) := by rw [pc]; rfl
    have hheld := h.hand hold
    have hslot := hheld.slot
    rw [← hsized.found, ← hnone] at hslot
    cases hslot
  | del pc run =>
    rename_i x fd m
    have hsize := hsized.size
    have hslot := (FdManager.del_self_iff (by omega) run).mpr (.inl hsize)
    have hold : (s.pc t).holds = some (fd, true) := by rw [pc]; rfl
    refine h.turn (c := false) rfl rfl (by rw [pc]; rfl) hold rfl rfl
      (fun fd' hne => FdManager.del_of_ne run (by omega)) ?_ (fun ctx hctx => ?_)
      (fun _ _ hs => hs.same) (fun _ _ he => by cases he)
    · show (m.slot fd).isSome = false
      rw [hslot]
      rfl
    · cases hslot.symm.trans hctx
  | closeF pc =>
    rename_i x fd
    have hold : (s.pc t).holds = some (fd, false) := by rw [pc]; rfl
    exact h.closeF rfl rfl (by rw [pc]; rfl) hold rfl rfl rfl
      (fun ctx fd' hne hs => hs.congr (Nat.le_refl _) (Function.update_of_ne hne _ _) rfl id) rfl
  | reset pc =>
    exact h.leave (v := none) rfl rfl (by rw [pc]; rfl) (by rw [pc]; rfl) rfl rfl
      fun _ _ hs => hs.same
  | setTimeout ctx type timeout =>
    refine h.still rfl rfl rfl rfl fun c fd hs => hs.congr (Nat.le_refl _) rfl rfl fun htakes => ?_
    by_cases hc : c = ctx
    · subst hc
      cases type <;>
        simpa [Accepts, State.setCtx, FdCtx.managed, FdCtx.setTimeout] using htakes
    · simpa only [Accepts, State.setCtx, Function.update_of_ne hc] using htakes
  | setUsrNonBlock ctx v =>
    refine h.still rfl rfl rfl rfl fun c fd hs => hs.congr (Nat.le_refl _) rfl rfl fun htakes => ?_
    by_cases hc : c = ctx
    · subst hc
      simpa [Accepts, State.setCtx, FdCtx.managed, FdCtx.setUsrNonBlock] using htakes
    · simpa only [Accepts, State.setCtx, Function.update_of_ne hc] using htakes

omit [DecidableEq T] [DecidableEq S] in
theorem Inv.of_init (h : init s) : Inv s := by
  obtain ⟨hkernel, hmgr, hsock, hpc⟩ := h
  refine ⟨fun fd => .inl ⟨hkernel fd, by rw [hmgr, FdManager.slot_new], fun p b hp => ?_⟩,
    fun t fd ctx ht => ?_, fun t u x ht => ?_⟩
  · cases p with
    | sock x => cases (hsock x).symm.trans hp.2.1
    | thread t =>
      rw [State.Holds, hpc t] at hp
      cases hp
  · rw [hpc t] at ht
    cases ht
  · rw [hpc t] at ht
    cases ht

omit [DecidableEq T] [DecidableEq S] in
theorem Sized.of_init (h : init s) : Sized limit s := by
  obtain ⟨-, hmgr, -, hpc⟩ := h
  refine ⟨fun t how fd place ht => ?_, ?_⟩
  · cases (hpc t).symm.trans ht
  · rw [hmgr]
    decide

theorem inv_of_reachable (hhook : ∀ t, hook t = true) (hlimit : limit ≤ 1431655766)
    (h : Reachable (machine hook limit) s) : Sized limit s ∧ Inv s := by
  induction h with
  | init hs => exact ⟨Sized.of_init hs, Inv.of_init hs⟩
  | step _ hstep ih => exact ⟨ih.1.step hlimit hstep, ih.2.step ih.1 hhook hstep⟩

/-! ## Every descriptor has one owner and its own context -/

omit [DecidableEq T] [DecidableEq S] in
theorem Inv.holds_open (h : Inv s) (fd : Nat) : s.kernel fd ≠ none ↔ ∃ p b, s.Holds p fd b := by
  constructor
  · intro hopen
    rcases h.kept fd with hgone | ⟨p, b, hheld⟩
    · exact absurd hgone.notOpen hopen
    · exact ⟨p, b, (hheld.holder p b).mpr ⟨rfl, rfl⟩⟩
  · rintro ⟨p, b, hp⟩
    exact (h.heldBy hp).isOpen

omit [DecidableEq T] [DecidableEq S] in
theorem Inv.slot_open (h : Inv s) {fd : Nat} {ctx : FdCtxId}
    (hctx : s.shared.mgr.slot fd = some ctx) :
    s.kernel fd ≠ none ∧ s.served ctx = s.kernel fd ∧ Accepts s ctx := by
  rcases h.kept fd with hgone | ⟨p, b, hheld⟩
  · cases hgone.slot.symm.trans hctx
  · have hserves := hheld.serves ctx hctx
    exact ⟨hheld.isOpen, hserves.current, hserves.takes⟩

/-- With the hooks on in every thread, a descriptor is open exactly while one `Socket` or one
thread inside a method holds it, so none is lost and none is closed twice. Outside of the hooks it
has a context, made since it was opened; a descriptor that is not open has none. Once all are
closed, nothing is left in the kernel or in `FdManager`. -/
theorem descriptors_kept (hhook : ∀ t, hook t = true) (hlimit : limit ≤ 1431655766)
    (h : Reachable (machine (S := S) hook limit) s) :
    (∀ fd, s.kernel fd ≠ none ↔ ∃ p b, s.Holds p fd b) ∧
    (∀ fd p q b b', s.Holds p fd b → s.Holds q fd b' → p = q) ∧
    (∀ fd p, s.Holds p fd true → ∃ ctx, s.shared.mgr.slot fd = some ctx) ∧
    (∀ (fd : Nat) ctx, s.shared.mgr.slot fd = some ctx →
      s.kernel fd ≠ none ∧ s.served ctx = s.kernel fd ∧ Accepts s ctx) ∧
    ((∀ t, s.pc t = .idle) → (∀ x, s.sock x = none) →
      ∀ fd : Nat, s.kernel fd = none ∧ s.shared.mgr.slot fd = none) := by
  have hinv := (inv_of_reachable hhook hlimit h).2
  refine ⟨hinv.holds_open, fun fd p q b b' hp hq => ?_, fun fd p hp => ?_,
    fun fd ctx => hinv.slot_open, fun hidle hclosed fd => ?_⟩
  · exact (((hinv.heldBy hq).holder p b).mp hp).1
  · exact Option.isSome_iff_exists.mp (hinv.heldBy hp).slot
  · rcases hinv.kept fd with hgone | ⟨p, b, hheld⟩
    · exact ⟨hgone.notOpen, hgone.slot⟩
    · have hp := (hheld.holder p b).mpr ⟨rfl, rfl⟩
      cases p with
      | sock x => cases (hclosed x).symm.trans hp.2.1
      | thread t =>
        rw [State.Holds, hidle t] at hp
        cases hp

end Hooked

/-- Nothing open; two `Socket`s and one thread. -/
def start : State Unit Bool where
  kernel := fun _ => none
  serial := 0
  shared := ⟨FdManager.new, fun _ => FdCtx.new 0 none, 0⟩
  served := fun _ => none
  sock := fun _ => none
  connected := fun _ => false
  pc := fun _ => .idle

theorem start_init : init start := ⟨fun _ => rfl, rfl, fun _ => rfl, fun _ => rfl⟩

/-- A `Socket` with the descriptor 5 that it opened. -/
theorem reachable_open : ∃ s : State Unit Bool, Reachable (machine (fun _ => true) 1024) s ∧
    s.Holds (.sock false) 5 true := by
  have hinit : Reachable (machine (fun _ : Unit => true) 1024) start := .init start_init
  have hopen := hinit.step (l := ()) (.open (.newSock false) 5 rfl
    (by simp [State.Free, start, Pc.uses]) rfl rfl (by decide))
  have hlook := hopen.step (l := ()) (.get rfl
    (.missed (FdManager.look_lt 5 (by decide) (by decide) true)))
  have hmade := hlook.step (l := ()) (.get rfl .create)
  have hgetfl := hmade.step (l := ()) (.get rfl
    (.getfl true (FdManager.look_lt 5 (by decide) (by decide) false)))
  have hstore := hgetfl.step (l := ()) (.get rfl
    (.store (FdManager.store_lt 5 (by decide) (by decide) 0)))
  have hsettle := hstore.step (l := ()) (.settle rfl)
  refine ⟨_, hsettle, ?_, rfl, rfl⟩
  intro t ht
  cases ht

theorem descriptors_kept_open : ∃ s : State Unit Bool,
    s.Holds (.sock false) 5 true ∧ s.kernel 5 ≠ none ∧ ∃ ctx, s.shared.mgr.slot 5 = some ctx := by
  obtain ⟨s, hreach, hholds⟩ := reachable_open
  have hkept := descriptors_kept (fun _ => rfl) (by decide) hreach
  exact ⟨s, hholds, (hkept.1 5).mpr ⟨_, _, hholds⟩, hkept.2.2.1 5 _ hholds⟩

/-- Without the hooks a descriptor that `accept` got has no context; `init` does not take it, and
nobody closes it. -/
theorem accept_unhooked_leaks : ∃ s : State Unit Bool,
    Reachable (machine (fun _ => false) 1024) s ∧ s.kernel 5 ≠ none ∧
      ∀ p b, ¬ s.Holds p 5 b := by
  have hinit : Reachable (machine (fun _ : Unit => false) 1024) start := .init start_init
  have hopen := hinit.step (l := ()) (.open (.accept true) 5 rfl
    (by simp [State.Free, start, Pc.uses]) rfl rfl (by decide))
  have hrefused := hopen.step (l := ()) (.initFails rfl
    (FdManager.look_lt 5 (by decide) (by decide) false) fun _ hc => by cases hc)
  refine ⟨_, hrefused, fun hk => Option.some_ne_none 0 hk, fun p b hp => ?_⟩
  cases p with
  | sock x => cases hp.2.1
  | thread t => cases hp

end Descriptors
end TwServer
