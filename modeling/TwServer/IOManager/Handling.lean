import TwServer.Lib.Runs
import TwServer.IOManager.Report

/-! `IOManager::idle` going through what `epoll_wait` returned, one lock section
at a time, while other threads use the registrations. Between the test of
`fd_ctx->events` and the removal the lock is free. A report without EPOLLERR and
EPOLLHUP cancels whatever is registered, reported or not. -/

namespace TwServer
open Programs Program Counting Runs

namespace IOManager

/-! ## The rounds of one report -/

inductive Removal where
  | drop
  | cancel
  deriving DecidableEq, Repr

/-- `if(fd_ctx->events & ev)` and the call that it guards. -/
structure Round where
  removal : Removal
  ev : Event
  deriving DecidableEq, Repr

def Removal.run (epollCtl : Bool) (fd : Nat) (ev : Event) : Removal → Program IOManager Bool
  | .drop => delEvent epollCtl fd ev
  | .cancel => cancelEvent epollCtl fd ev

def Report.rounds (r : Report) : List Round :=
  (if r.epollerr || r.epollhup then [⟨.drop, .read⟩, ⟨.drop, .write⟩] else []) ++
    [⟨.cancel, .read⟩, ⟨.cancel, .write⟩]

/-- Without other threads in between, the rounds are the body of the loop. -/
theorem handleReport_rounds {s : IOManager} {r : Report} {c : FdContext}
    (hc : s.fdContexts[r.ctx]? = some c) :
    handleReport r s =
      (r.rounds.forM fun round =>
        ifRegistered r.ctx round.ev (round.removal.run true c.fd round.ev)) s := by
  unfold handleReport Report.rounds
  simp only [hc]
  cases r.epollerr || r.epollhup with
  | false =>
    simp only [Bool.false_eq_true, ↓reduceIte, List.nil_append, forM_pair]
    rfl
  | true =>
    simp only [↓reduceIte, bind_bind, List.cons_append, List.nil_append]
    rw [forM_cons, forM_cons, forM_pair]
    rfl

theorem Report.covers_of_drop {r : Report} {ev : Event} (h : ⟨.drop, ev⟩ ∈ r.rounds) (ev' : Event) :
    r.covers ev' = true := by
  have herr : (r.epollerr || r.epollhup) = true := by
    cases he : r.epollerr || r.epollhup with
    | true => rfl
    | false => simp [rounds, he] at h
  rcases Bool.or_eq_true_iff.mp herr with he | he <;> cases ev' <;> simp [covers, he]

/-! ## The system -/

/-- Where a worker stands in `idle`. -/
inductive IdlePc where
  | waiting
  | next (batch : List Report)
  | test (r : Report) (rounds : List Round) (batch : List Report)
  | remove (r : Report) (round : Round) (rounds : List Round) (batch : List Report)

def IdlePc.report? : IdlePc → Option Report
  | .waiting | .next _ => none
  | .test r _ _ | .remove r _ _ _ => some r

structure Idle (W : Type) where
  io : IOManager
  pc : W → IdlePc

/-- What other threads, and the fibers of the workers, do to the registrations. -/
inductive Call where
  | addEvent (here : Caller) (epollCtl : Bool) (fd : Nat) (ev : Event) (cb : Option Callback)
  | delEvent (epollCtl : Bool) (fd : Nat) (ev : Event)
  | cancelEvent (epollCtl : Bool) (fd : Nat) (ev : Event)
  | schedule (scheduler : SchedulerId) (task : Task)
  | others (fibers : FiberId → Fiber)

def Call.run : Call → Program IOManager Unit
  | .addEvent here ctl fd ev cb => do let _ ← IOManager.addEvent here ctl fd ev cb
  | .delEvent ctl fd ev => do let _ ← IOManager.delEvent ctl fd ev
  | .cancelEvent ctl fd ev => do let _ ← IOManager.cancelEvent ctl fd ev
  | .schedule scheduler task => modify (·.schedule scheduler (some task))
  | .others fibers => modify fun s => { s with fibers := fibers }

namespace Idle
variable {W : Type} [DecidableEq W]

def setPc (s : Idle W) (w : W) (pc : IdlePc) : Idle W :=
  { s with pc := Function.update s.pc w pc }

@[simp] theorem setPc_io (s : Idle W) (w : W) (pc : IdlePc) : (s.setPc w pc).io = s.io := rfl

inductive Label (W : Type) where
  | call (c : Call)
  /-- `epollCtl`: whether `epoll_ctl` succeeds, should the worker call it -/
  | idle (w : W) (epollCtl : Bool)

inductive Step : Idle W → Label W → Idle W → Prop
  | call {s : Idle W} {io : IOManager} (c : Call) (run : (c.run s.io).state? = some io) :
      Step s (.call c) { s with io := io }
  | epollWait {s : Idle W} {w : W} (ctl : Bool) (batch : List Report) (pc : s.pc w = .waiting)
      (size : batch.length ≤ 64) (known : ∀ r ∈ batch, r.ctx < s.io.fdContexts.length) :
      Step s (.idle w ctl) (s.setPc w (.next batch))
  | report {s : Idle W} {w : W} (ctl : Bool) {r : Report} {batch : List Report}
      (pc : s.pc w = .next (r :: batch)) :
      Step s (.idle w ctl) (s.setPc w (.test r r.rounds batch))
  | done {s : Idle W} {w : W} (ctl : Bool) (pc : s.pc w = .next []) :
      Step s (.idle w ctl) (s.setPc w .waiting)
  | test {s : Idle W} {w : W} (ctl : Bool) {r : Report} {round : Round} {rounds : List Round}
      {batch : List Report} (pc : s.pc w = .test r (round :: rounds) batch) :
      Step s (.idle w ctl) (s.setPc w
        (if s.io.registered r.ctx round.ev then .remove r round rounds batch
          else .test r rounds batch))
  | handled {s : Idle W} {w : W} (ctl : Bool) {r : Report} {batch : List Report}
      (pc : s.pc w = .test r [] batch) :
      Step s (.idle w ctl) (s.setPc w (.next batch))
  | remove {s : Idle W} {w : W} (ctl : Bool) {r : Report} {round : Round} {rounds : List Round}
      {batch : List Report} {c : FdContext} {io : IOManager}
      (pc : s.pc w = .remove r round rounds batch) (ctx : s.io.fdContexts[r.ctx]? = some c)
      (run : (round.removal.run ctl c.fd round.ev s.io).state? = some io) :
      Step s (.idle w ctl) { s.setPc w (.test r rounds batch) with io := io }

def init (s : Idle W) : Prop := (∃ fibers, s.io = new fibers) ∧ ∀ w, s.pc w = .waiting

def machine : System (Idle W) (Label W) := ⟨init, Step⟩

end Idle

/-! ## What one removal does -/

/-- The registration of `ev` is gone, its waiter enqueued at most; everything
else of the table is as before. -/
structure Removed (s : IOManager) (fd : Nat) (ev : Event) (s' : IOManager) : Prop where
  enqueued : ∃ tasks, s'.scheduled = s.scheduled ++ tasks ∧ ∀ e ∈ tasks, s.waiter? fd ev = some e
  fdContexts : ∃ c c', s.fdContexts[fd]? = some c ∧ c.events.has ev = true ∧
    s'.fdContexts = s.fdContexts.set fd c' ∧ c'.fd = c.fd ∧ c'.events = c.events.erase ev ∧
    ∀ ev', ev' ≠ ev → c'.getContext ev' = c.getContext ev'

theorem delEvent_removed {s s' : IOManager} {ctl : Bool} {fd : Nat} {ev : Event}
    (hr : s.registered fd ev = true) (h : (delEvent ctl fd ev s).state? = some s') :
    Removed s fd ev s' := by
  obtain ⟨c, hc, hb⟩ := registered_eq_true.mp hr
  cases ctl with
  | true =>
    rcases delEvent_registered hc hb with ⟨why, hrun⟩ | ⟨t, hrun, hd⟩
    · rw [hrun] at h
      cases h
    · rw [hrun] at h
      obtain rfl : t = s' := Option.some.inj h
      obtain ⟨c', hset, hfd, hev, -, hother⟩ := hd.fdContexts
      refine ⟨⟨[], by rw [hd.scheduled, List.append_nil], ?_⟩, c, c', hc, hb, hset, hfd, hev, hother⟩
      intro e he
      cases he
  | false =>
    simp only [delEvent, hc, hb, Bool.not_true, Bool.false_eq_true, Bool.not_false, ↓reduceIte] at h
    obtain rfl : _ = s' := Option.some.inj h
    refine ⟨⟨[], (List.append_nil _).symm, ?_⟩, c, _, hc, hb, rfl, rfl, rfl, ?_⟩
    · intro e he
      cases he
    · intro ev' _
      exact FdContext.getContext_events _ _ _

/-- A waiter that lacks a fiber and a callback is dropped on the way to the queue. -/
theorem swapTask_entry {ctx : EventContext} {sc : SchedulerId} (h : ctx.scheduler = some sc) :
    ((swapTask ctx).1.map fun t => (sc, t)) = ctx.entry := by
  rcases ctx with ⟨_ | sc', _ | f, _ | cb⟩ <;> cases h <;> rfl

theorem schedule_appends (s : IOManager) (sc : SchedulerId) (task : Option Task) :
    (s.schedule sc task).scheduled = s.scheduled ++ (task.map fun t => (sc, t)).toList := by
  cases task with
  | none => exact (List.append_nil _).symm
  | some t => rfl

section
variable {s : IOManager} {fd : Nat} {ev : Event} {c : FdContext} (hc : s.fdContexts[fd]? = some c)
  (hb : c.events.has ev = true)
include hc hb

/-- A registered event without a scheduler. -/
theorem cancelEvent_null (hs : (c.getContext ev).scheduler = none) :
    cancelEvent true fd ev s = .fault .nullPointer := by
  simp only [cancelEvent, hc, hb, Bool.not_true, Bool.false_eq_true, ↓reduceIte, triggerEvent, hs]

/-- The waiter of a registered event goes to its scheduler. -/
theorem cancelEvent_hands {sc : SchedulerId} (hs : (c.getContext ev).scheduler = some sc) :
    cancelEvent true fd ev s = .ok true
      { s.schedule sc (swapTask (c.getContext ev)).1 with
        fdContexts := s.fdContexts.set fd ({ c with events := c.events.erase ev }.setContext
          { (swapTask (c.getContext ev)).2 with scheduler := none } ev)
        pendingEventCount := decrement s.pendingEventCount } := by
  simp only [cancelEvent, hc, hb, Bool.not_true, Bool.false_eq_true, ↓reduceIte, triggerEvent, hs]
  cases (swapTask (c.getContext ev)).1 with
  | none => rfl
  | some t => rfl

end

theorem cancelEvent_removed {s s' : IOManager} {fd : Nat} {ev : Event}
    (hr : s.registered fd ev = true) (h : (cancelEvent true fd ev s).state? = some s') :
    Removed s fd ev s' := by
  obtain ⟨c, hc, hb⟩ := registered_eq_true.mp hr
  cases hs : (c.getContext ev).scheduler with
  | none =>
    rw [cancelEvent_null hc hb hs] at h
    cases h
  | some sc =>
    rw [cancelEvent_hands hc hb hs] at h
    obtain rfl : _ = s' := Option.some.inj h
    have hw : s.waiter? fd ev = (c.getContext ev).entry := by
      simp only [waiter?, hc, hb, ↓reduceIte]
    refine ⟨⟨_, schedule_appends s sc (swapTask (c.getContext ev)).1, ?_⟩, c, _, hc, hb, rfl,
      ?_, ?_, ?_⟩
    · intro e he
      rw [swapTask_entry hs, Option.mem_toList] at he
      rw [hw]
      exact he
    · exact FdContext.setContext_fd _ _ _
    · exact FdContext.setContext_events _ _ _
    · intro ev' hne
      rw [FdContext.getContext_setContext_of_ne hne, FdContext.getContext_events]

/-- A removal changes something exactly when the event is registered and, for
`cancelEvent`, `epoll_ctl` succeeds. -/
theorem Removal.run_cases {removal : Removal} {ctl : Bool} {fd : Nat} {ev : Event}
    {s s' : IOManager} (h : (removal.run ctl fd ev s).state? = some s') :
    s' = s ∧ ¬ (s.registered fd ev = true ∧ (removal = .cancel → ctl = true)) ∨
      (s.registered fd ev = true ∧ (removal = .cancel → ctl = true)) ∧ Removed s fd ev s' := by
  cases hr : s.registered fd ev with
  | false =>
    refine Or.inl ⟨?_, fun hcond => Bool.false_ne_true hcond.1⟩
    cases removal with
    | drop =>
      rw [Removal.run, delEvent_unregistered hr] at h
      exact (Option.some.inj h).symm
    | cancel =>
      rw [Removal.run, cancelEvent_unregistered hr] at h
      exact (Option.some.inj h).symm
  | true =>
    cases removal with
    | drop => exact Or.inr ⟨⟨rfl, fun hd => nomatch hd⟩, delEvent_removed hr h⟩
    | cancel =>
      cases ctl with
      | true => exact Or.inr ⟨⟨rfl, fun _ => rfl⟩, cancelEvent_removed hr h⟩
      | false =>
        refine Or.inl ⟨?_, fun hcond => Bool.false_ne_true (hcond.2 rfl)⟩
        obtain ⟨c, hc, hb⟩ := registered_eq_true.mp hr
        simp only [Removal.run, cancelEvent, hc, hb, Bool.not_true, Bool.false_eq_true,
          Bool.not_false, ↓reduceIte] at h
        exact (Option.some.inj h).symm

theorem Removed.unregistered {s s' : IOManager} {fd : Nat} {ev : Event} (h : Removed s fd ev s') :
    s'.registered fd ev = false := by
  obtain ⟨c, c', hc, -, hset, -, hev, -⟩ := h.fdContexts
  have hlt : fd < s.fdContexts.length := (List.getElem?_eq_some_iff.mp hc).1
  simp only [registered, hset, List.getElem?_set_self hlt, hev, Events.has_erase_self]

theorem Removed.numbered {s s' : IOManager} {fd : Nat} {ev : Event} (h : Removed s fd ev s')
    (hs : Numbered s) : Numbered s' := by
  obtain ⟨c, c', hc, -, hset, hfd, -, -⟩ := h.fdContexts
  exact hs.set hc hfd hset

/-! ## The promise, for one step of a worker -/

/-- From `s` to `s'`, in the course of handling `r`: only waiters of reported
events were enqueued; every other waiter keeps its bit and its slot; and the
pending count moved only for a reported event. -/
structure OnlyReported (s : IOManager) (r : Report) (s' : IOManager) : Prop where
  enqueued : ∃ tasks, s'.scheduled = s.scheduled ++ tasks ∧
    ∀ e ∈ tasks, ∃ ev, r.covers ev = true ∧ s.waiter? r.ctx ev = some e
  stays : ∀ fd ev c, s.fdContexts[fd]? = some c → c.events.has ev = true →
    (fd = r.ctx → r.covers ev = false) →
    ∃ c', s'.fdContexts[fd]? = some c' ∧ c'.events.has ev = true ∧
      c'.getContext ev = c.getContext ev
  pending : s'.pendingEventCount ≠ s.pendingEventCount →
    ∃ ev, r.covers ev = true ∧ s.registered r.ctx ev = true ∧ s'.registered r.ctx ev = false

theorem OnlyReported.refl (s : IOManager) (r : Report) : OnlyReported s r s where
  enqueued := by
    refine ⟨[], (List.append_nil _).symm, ?_⟩
    intro e he
    cases he
  stays fd ev c hc hb _ := ⟨c, hc, hb, rfl⟩
  pending hne := absurd rfl hne

/-- Removing one event of the reported descriptor keeps the promise exactly if
that event was reported. -/
theorem Removed.onlyReported_iff {s s' : IOManager} {r : Report} {ev : Event}
    (hr : s.registered r.ctx ev = true) (h : Removed s r.ctx ev s') :
    OnlyReported s r s' ↔ r.covers ev = true := by
  constructor
  · intro hok
    cases hcov : r.covers ev with
    | true => rfl
    | false =>
      obtain ⟨c, hc, hb⟩ := registered_eq_true.mp hr
      obtain ⟨c', hc', hb', -⟩ := hok.stays r.ctx ev c hc hb fun _ => hcov
      have hreg : s'.registered r.ctx ev = true := registered_eq_true.mpr ⟨c', hc', hb'⟩
      exact absurd (h.unregistered.symm.trans hreg) Bool.false_ne_true
  · intro hcov
    obtain ⟨tasks, hsch, htasks⟩ := h.enqueued
    refine ⟨⟨tasks, hsch, fun e he => ⟨ev, hcov, htasks e he⟩⟩, ?_, ?_⟩
    · intro fd ev' d hd hb' hun
      obtain ⟨c, c', hc, -, hset, -, hev, hother⟩ := h.fdContexts
      rw [hset, List.getElem?_set]
      by_cases hfd : r.ctx = fd
      · have hlt : r.ctx < s.fdContexts.length := (List.getElem?_eq_some_iff.mp hc).1
        subst hfd
        obtain rfl : c = d := Option.some.inj (hc.symm.trans hd)
        have hne : ev' ≠ ev := by
          rintro rfl
          exact absurd ((hun rfl).symm.trans hcov) Bool.false_ne_true
        rw [if_pos rfl, if_pos hlt]
        exact ⟨c', rfl, by rw [hev, Events.has_erase_of_ne hne]; exact hb', hother ev' hne⟩
      · rw [if_neg hfd]
        exact ⟨d, hd, hb', rfl⟩
    · intro _
      exact ⟨ev, hcov, hr, h.unregistered⟩

/-! ## Calls of other threads -/

theorem Numbered.grown {s : IOManager} (hs : Numbered s) (fd : Nat) : Numbered (s.grown fd) := by
  unfold IOManager.grown
  split
  · exact hs
  · exact hs.resize _

theorem addEvent_numbered {s s' : IOManager} (hs : Numbered s) {here : Caller} {ctl : Bool} {fd : Nat}
    {ev : Event} {cb : Option Callback} (h : (addEvent here ctl fd ev cb s).state? = some s') :
    Numbered s' := by
  obtain ⟨c, hc, -, ⟨-, rfl⟩ | ⟨-, rfl⟩⟩ := addEvent_cases h
  · exact hs.grown fd
  · refine (hs.grown fd).set hc ?_ rfl
    exact FdContext.setContext_fd _ _ _

theorem Removal.run_numbered (removal : Removal) {ctl : Bool} {fd : Nat} {ev : Event}
    {s s' : IOManager} (hs : Numbered s) (h : (removal.run ctl fd ev s).state? = some s') :
    Numbered s' := by
  rcases Removal.run_cases h with ⟨rfl, -⟩ | ⟨-, hrem⟩
  · exact hs
  · exact hrem.numbered hs

theorem Call.run_numbered {s s' : IOManager} (hs : Numbered s) {c : Call}
    (h : (c.run s).state? = some s') : Numbered s' := by
  cases c with
  | addEvent here ctl fd ev cb =>
    rw [Call.run, state?_bind_unit] at h
    exact addEvent_numbered hs h
  | delEvent ctl fd ev =>
    rw [Call.run, state?_bind_unit] at h
    exact Removal.drop.run_numbered hs h
  | cancelEvent ctl fd ev =>
    rw [Call.run, state?_bind_unit] at h
    exact Removal.cancel.run_numbered hs h
  | schedule sc task =>
    obtain rfl : _ = s' := Option.some.inj h
    exact hs
  | others fibers =>
    obtain rfl : _ = s' := Option.some.inj h
    exact hs

/-! ## Every reachable state -/

/-- The rounds that are left belong to the report. -/
def IdlePc.Sound : IdlePc → Prop
  | .waiting | .next _ => True
  | .test r rounds _ => ∀ x ∈ rounds, x ∈ r.rounds
  | .remove r round rounds _ => ∀ x ∈ round :: rounds, x ∈ r.rounds

namespace Idle
variable {W : Type} [DecidableEq W]

structure Inv (s : Idle W) : Prop where
  numbered : Numbered s.io
  rounds : ∀ w, (s.pc w).Sound

theorem Inv.setPc {s : Idle W} (h : Inv s) {w : W} {pc : IdlePc} (hpc : pc.Sound) :
    Inv (s.setPc w pc) where
  numbered := h.numbered
  rounds v := by
    show (Function.update s.pc w pc v).Sound
    by_cases hv : v = w
    · subst hv
      rw [Function.update_self]
      exact hpc
    · rw [Function.update_of_ne hv]
      exact h.rounds v

theorem step_inv {s s' : Idle W} {l : Label W} (h : Inv s) (hstep : Step s l s') : Inv s' := by
  cases hstep with
  | call c run => exact ⟨Call.run_numbered h.numbered run, h.rounds⟩
  | epollWait _ batch pc size known => exact h.setPc trivial
  | report _ pc => exact h.setPc fun _ hx => hx
  | done _ pc => exact h.setPc trivial
  | @test w ctl r round rounds batch pc =>
    have hs : (IdlePc.test r (round :: rounds) batch).Sound := pc ▸ h.rounds w
    apply h.setPc
    split
    · exact hs
    · exact fun x hx => hs x (List.mem_cons_of_mem _ hx)
  | handled _ pc => exact h.setPc trivial
  | @remove w ctl r round rounds batch c io pc ctx run =>
    have hs : (IdlePc.remove r round rounds batch).Sound := pc ▸ h.rounds w
    have hnext : (IdlePc.test r rounds batch).Sound :=
      fun x hx => hs x (List.mem_cons_of_mem _ hx)
    exact ⟨round.removal.run_numbered h.numbered run, (h.setPc hnext).rounds⟩

theorem inductive_inv : (machine (W := W)).Inductive Inv where
  init := by
    rintro s ⟨⟨fibers, hio⟩, hpc⟩
    refine ⟨?_, ?_⟩
    · rw [hio]
      exact (new_consistent fibers).numbered
    · intro w
      rw [hpc w]
      trivial
  step _ _ _ h hstep := step_inv h hstep

/-- When a worker is about to `cancelEvent` an event that is registered, and
`epoll_ctl` will succeed, the report it handles is about that event. -/
def Meets (s : Idle W) (w : W) (epollCtl : Bool) : Prop :=
  ∀ r ev rounds batch, s.pc w = .remove r ⟨.cancel, ev⟩ rounds batch → epollCtl = true →
    s.io.registered r.ctx ev = true → r.covers ev = true

/-- In every reachable state, whatever else runs, the next step of a worker that
handles a report keeps to what was reported exactly if it meets the condition. -/
theorem only_reported_iff {s s' : Idle W} (h : Reachable machine s) {w : W} {epollCtl : Bool}
    (hstep : machine.step s (.idle w epollCtl) s') {r : Report}
    (hr : (s.pc w).report? = some r) :
    OnlyReported s.io r s'.io ↔ Meets s w epollCtl := by
  have hinv := inductive_inv.reachable h
  cases hstep with
  | epollWait _ batch pc size known =>
    rw [pc] at hr
    cases hr
  | report _ pc =>
    rw [pc] at hr
    cases hr
  | done _ pc =>
    rw [pc] at hr
    cases hr
  | test _ pc =>
    refine iff_of_true (OnlyReported.refl _ _) ?_
    intro r' ev rounds' batch' hpc
    cases pc.symm.trans hpc
  | handled _ pc =>
    refine iff_of_true (OnlyReported.refl _ _) ?_
    intro r' ev rounds' batch' hpc
    cases pc.symm.trans hpc
  | @remove _ _ r' round rounds batch c io pc ctx run =>
    rw [pc] at hr
    obtain rfl : r' = r := Option.some.inj hr
    have hsound : (IdlePc.remove r' round rounds batch).Sound := pc ▸ hinv.rounds w
    rw [hinv.numbered _ _ ctx] at run
    rcases Removal.run_cases run with ⟨rfl, hnot⟩ | ⟨⟨hreg, hctl⟩, hrem⟩
    · refine iff_of_true (OnlyReported.refl _ _) ?_
      intro r₁ ev rounds₁ batch₁ hpc htrue hreg
      cases pc.symm.trans hpc
      exact absurd ⟨hreg, fun _ => htrue⟩ hnot
    · refine (hrem.onlyReported_iff hreg).trans ?_
      constructor
      · intro hcov r₁ ev rounds₁ batch₁ hpc _ _
        cases pc.symm.trans hpc
        exact hcov
      · intro hmeets
        rcases round with ⟨removal, ev⟩
        cases removal with
        | drop => exact Report.covers_of_drop (hsound _ List.mem_cons_self) ev
        | cancel => exact hmeets r' ev rounds batch pc (hctl rfl) hreg

/-! ## Fiber 7 waits to read descriptor 5 -/

/-- The only worker got one report for it and has passed the test of the READ bit. -/
theorem waiting_run (epollin epollout : Bool) : ∃ s s' : Idle Unit,
    Reachable machine s ∧ machine.step s (.idle () true) s' ∧
      s.pc () = .remove ⟨5, epollin, epollout, false, false⟩ ⟨.cancel, .read⟩
        [⟨.cancel, .write⟩] [] ∧
      s.io.registered 5 .read = true ∧ s'.io.registered 5 .read = false := by
  have h₀ : Reachable machine
      (⟨new fun _ => ⟨true, .exec, none⟩, fun _ => .waiting⟩ : Idle Unit) :=
    Reachable.init ⟨⟨_, rfl⟩, fun _ => rfl⟩
  have h₁ := h₀.step (Step.call (.addEvent ⟨some 0, 7⟩ true 5 .read none) rfl)
  have h₂ := h₁.step (Step.epollWait (w := ()) true [⟨5, epollin, epollout, false, false⟩] rfl
    (by simp) (by simp; decide))
  have h₃ := h₂.step (Step.report (w := ()) true rfl)
  have h₄ := h₃.step (Step.test (w := ()) true rfl)
  exact ⟨_, _, h₄, Step.remove (w := ()) true rfl rfl rfl, rfl, rfl, rfl⟩

/-- EPOLLIN arrives: its reader is woken. -/
theorem only_reported_in : ∃ s s' : Idle Unit, Reachable machine s ∧
    machine.step s (.idle () true) s' ∧ s.io.registered 5 .read = true ∧
      OnlyReported s.io ⟨5, true, false, false, false⟩ s'.io := by
  obtain ⟨s, s', h, hstep, hpc, hreg, -⟩ := waiting_run true false
  refine ⟨s, s', h, hstep, hreg, (only_reported_iff h hstep (by rw [hpc]; rfl)).mpr ?_⟩
  intro r ev rounds batch hpc' _ _
  cases hpc.symm.trans hpc'
  rfl

/-- Only EPOLLOUT arrives: the reader is woken all the same. -/
theorem writable_wakes_reader : ¬ ∀ (s s' : Idle Unit) w epollCtl r, Reachable machine s →
    machine.step s (.idle w epollCtl) s' → (s.pc w).report? = some r →
    OnlyReported s.io r s'.io := by
  intro hall
  obtain ⟨s, s', h, hstep, hpc, hreg, hgone⟩ := waiting_run false true
  obtain ⟨c, hc, hb⟩ := registered_eq_true.mp hreg
  obtain ⟨c', hc', hb', -⟩ :=
    (hall s s' () true _ h hstep (by rw [hpc]; rfl)).stays 5 .read c hc hb fun _ => rfl
  have hreg' : s'.io.registered 5 .read = true := registered_eq_true.mpr ⟨c', hc', hb'⟩
  exact absurd (hgone.symm.trans hreg') Bool.false_ne_true

end Idle
end IOManager
end TwServer
