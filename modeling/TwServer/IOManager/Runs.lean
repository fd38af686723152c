import TwServer.Lib.Runs
import TwServer.IOManager.Report

/-! Runs of the registration operations. The invariant holds as long as
`delEvent` removes no registered event; the first one that does ends the process
or leaves a stale fiber behind. -/

namespace TwServer
open Programs Program Counting Runs

namespace IOManager

/-- The operations of any threads, each atomic and with `epoll_ctl` succeeding;
`report` is one round of `idle`'s loop and `others` is whatever else runs, which
moves the fibers from state to state. -/
inductive Op where
  | addEvent (here : Caller) (fd : Nat) (ev : Event) (cb : Option Callback)
  | delEvent (fd : Nat) (ev : Event)
  | cancelEvent (fd : Nat) (ev : Event)
  | report (r : Report)
  | others (fibers : FiberId → Fiber)

def Op.run : Op → Program IOManager Unit
  | .addEvent here fd ev cb => do let _ ← IOManager.addEvent here true fd ev cb
  | .delEvent fd ev => do let _ ← IOManager.delEvent true fd ev
  | .cancelEvent fd ev => do let _ ← IOManager.cancelEvent true fd ev
  | .report r => handleReport r
  | .others fibers => fun s => .ok () { s with fibers := fibers }

def machine : System IOManager Op where
  init s := ∃ fibers, s = new fibers
  step s op s' := (op.run s).state? = some s'

/-- No registered event is removed by `delEvent`, whether called or by way of an
EPOLLERR or EPOLLHUP, and events are added on a scheduler's threads. -/
def Op.Sound (s : IOManager) : Op → Prop
  | .addEvent here _ _ _ => here.scheduler.isSome = true
  | .delEvent fd ev => s.registered fd ev = false
  | .cancelEvent _ _ => True
  | .report r => ¬ Hits s r
  | .others _ => True

/-! ## One step -/

theorem addEvent_step {s s' : IOManager} (h : Consistent s) {here : Caller} {fd : Nat}
    {ev : Event} {cb : Option Callback}
    (hstep : (addEvent here true fd ev cb s).state? = some s') :
    Consistent s' ↔ here.scheduler.isSome = true := by
  have hgrown : Consistent (s.grown fd) := by
    unfold IOManager.grown
    split
    · exact h
    · exact resize_consistent h _
  obtain ⟨c, hc, hb, ⟨hf, -⟩ | ⟨-, rfl⟩⟩ := addEvent_cases hstep
  · cases hf
  · have hempty := (hgrown.slots c (List.mem_of_getElem? hc) ev).2 hb
    rw [hempty]
    cases cb with
    | some f => exact withWaiter_consistent hgrown hc hb ⟨here.scheduler, none, some f⟩ (by simp)
    | none =>
      exact withWaiter_consistent hgrown hc hb ⟨here.scheduler, some here.fiber, none⟩ (by simp)

theorem cancelEvent_step {s s' : IOManager} (h : Consistent s) {fd : Nat} {ev : Event}
    (hstep : (cancelEvent true fd ev s).state? = some s') : Consistent s' := by
  cases hr : s.registered fd ev with
  | false =>
    rw [cancelEvent_unregistered hr] at hstep
    obtain rfl : s = s' := Option.some.inj hstep
    exact h
  | true =>
    obtain ⟨c, hc, hb⟩ := registered_eq_true.mp hr
    have hfull := (h.slots c (List.mem_of_getElem? hc) ev).1.mp hb
    obtain ⟨t, ht, hd⟩ := cancelEvent_registered hc hb hfull
    rw [ht] at hstep
    obtain rfl : t = s' := Option.some.inj hstep
    exact hd.consistent h hc hb

theorem delEvent_step {s s' : IOManager} (h : Consistent s) {fd : Nat} {ev : Event}
    (hstep : (delEvent true fd ev s).state? = some s') :
    Consistent s' ↔ s.registered fd ev = false := by
  cases hr : s.registered fd ev with
  | false =>
    rw [delEvent_unregistered hr] at hstep
    obtain rfl : s = s' := Option.some.inj hstep
    exact iff_of_true h rfl
  | true =>
    obtain ⟨c, hc, hb⟩ := registered_eq_true.mp hr
    refine iff_of_false ?_ (by simp)
    rcases delEvent_registered hc hb with ⟨why, hrun⟩ | ⟨t, hrun, hd⟩
    · rw [hrun] at hstep
      cases hstep
    · rw [hrun] at hstep
      obtain rfl : t = s' := Option.some.inj hstep
      exact fun h' => h'.not_stale (hd.stale hc)

theorem report_step {s s' : IOManager} (h : Consistent s) {r : Report}
    (hstep : ((Op.report r).run s).state? = some s') : Consistent s' ↔ ¬ Hits s r := by
  by_cases hr : Hits s r
  · refine iff_of_false ?_ (not_not_intro hr)
    rcases handleReport_hits h hr with ⟨why, hrun⟩ | ⟨t, hrun, -, ev, hstale⟩
    · rw [Op.run, hrun] at hstep
      cases hstep
    · rw [Op.run, hrun] at hstep
      obtain rfl : t = s' := Option.some.inj hstep
      exact fun h' => h'.not_stale hstale
  · refine iff_of_true ?_ hr
    cases hc : s.fdContexts[r.ctx]? with
    | none =>
      simp only [Op.run, handleReport, hc] at hstep
      cases hstep
    | some c =>
      obtain ⟨t, hrun, ht, -⟩ := handleReport_woken h (List.getElem?_eq_some_iff.mp hc).1 hr
      rw [Op.run, hrun] at hstep
      obtain rfl : t = s' := Option.some.inj hstep
      exact ht

/-- Exactly the sound operations keep the invariant. -/
theorem step_consistent_iff {s s' : IOManager} (h : Consistent s) {op : Op}
    (hstep : machine.step s op s') : Consistent s' ↔ op.Sound s := by
  cases op with
  | addEvent here fd ev cb => exact addEvent_step h ((state?_bind_unit _ s).symm.trans hstep)
  | delEvent fd ev => exact delEvent_step h ((state?_bind_unit _ s).symm.trans hstep)
  | cancelEvent fd ev =>
    exact iff_of_true (cancelEvent_step h ((state?_bind_unit _ s).symm.trans hstep)) trivial
  | report r => exact report_step h hstep
  | others fibers =>
    obtain rfl : _ = s' := Option.some.inj hstep
    exact iff_of_true ⟨h.numbered, h.slots, h.pending⟩ trivial

/-! ## Whole runs -/

theorem restrict_inductive : (machine.restrict Op.Sound).Inductive Consistent where
  init := by
    rintro s ⟨fibers, rfl⟩
    exact new_consistent fibers
  step s op s' h hstep := (step_consistent_iff h hstep.1).mpr hstep.2

/-- `delEvent` does what its callers expect of a registered event: it returns
true, leaves the fibers alone and the slot without a stale one. -/
def CleanDel (s : IOManager) (fd : Nat) (ev : Event) : Prop :=
  ∃ s', delEvent true fd ev s = .ok true s' ∧ s'.fibers = s.fibers ∧ ¬ Stale s' fd ev

/-- In every run of sound operations the registrations are consistent, whatever
step comes next keeps them so exactly when it is sound, and `delEvent` of a
registered event is never clean. -/
theorem registrations_consistent {s : IOManager} (h : Reachable (machine.restrict Op.Sound) s) :
    Consistent s ∧ (∀ op s', machine.step s op s' → (Consistent s' ↔ op.Sound s)) ∧
      ∀ fd ev, s.registered fd ev = true → ¬ CleanDel s fd ev := by
  have hs := restrict_inductive.reachable h
  refine ⟨hs, fun op s' hstep => step_consistent_iff hs hstep, ?_⟩
  rintro fd ev hreg ⟨s', hrun, -, hclean⟩
  obtain ⟨c, hc, hb⟩ := registered_eq_true.mp hreg
  rcases delEvent_registered hc hb with ⟨why, hrun'⟩ | ⟨t, hrun', hd⟩
  · rw [hrun'] at hrun
    cases hrun
  · rw [hrun'] at hrun
    cases hrun
    exact hclean (hd.stale hc)

/-- Fiber 7 starts to wait for descriptor 5, with a manager whose fibers all run. -/
theorem registrations_consistent_read : ∃ s,
    machine.step (new fun _ => ⟨true, .exec, none⟩) (.addEvent ⟨some 0, 7⟩ 5 .read none) s ∧
      Consistent s := by
  have hstep : machine.step (new fun _ => ⟨true, .exec, none⟩)
      (.addEvent ⟨some 0, 7⟩ 5 .read none) _ := rfl
  have hinit : Reachable (machine.restrict Op.Sound) (new fun _ => ⟨true, .exec, none⟩) :=
    Reachable.init ⟨_, rfl⟩
  exact ⟨_, hstep, (registrations_consistent (hinit.step ⟨hstep, rfl⟩)).1⟩

/-- A callback waits for descriptor 5: deleting the event reaches through the
null fiber of its slot. -/
theorem delEvent_callback : ¬ ∀ s, Reachable machine s →
    Consistent s ∧ ∀ fd ev, s.registered fd ev = true → CleanDel s fd ev := by
  intro h
  have hinit : Reachable machine (new fun _ => ⟨true, .exec, none⟩) := Reachable.init ⟨_, rfl⟩
  have hstep : machine.step (new fun _ => ⟨true, .exec, none⟩)
      (.addEvent ⟨some 0, 7⟩ 5 .read (some 1)) _ := rfl
  obtain ⟨s', hrun, -⟩ := (h _ (hinit.step hstep)).2 5 .read rfl
  cases hrun

/-- After every run of sound operations a report is handled without a fault,
waking every waiter it covers exactly once and ending no other registration,
exactly when it brings no error for a descriptor on which somebody waits. -/
theorem reports_wake_iff {s : IOManager} (h : Reachable (machine.restrict Op.Sound) s)
    {r : Report} (hctx : r.ctx < s.fdContexts.length) :
    (∃ s', handleReport r s = .ok () s' ∧ Woken s r s') ↔ ¬ Hits s r := by
  have hs := restrict_inductive.reachable h
  constructor
  · rintro ⟨s', hrun, hw⟩ hhits
    rcases handleReport_hits hs hhits with ⟨why, hrun'⟩ | ⟨t, hrun', hsch, -⟩
    · rw [hrun'] at hrun
      cases hrun
    · rw [hrun'] at hrun
      cases hrun
      exact hhits.not_woken hsch hw
  · intro hno
    obtain ⟨s', hrun, -, hw⟩ := handleReport_woken hs hctx hno
    exact ⟨s', hrun, hw⟩

/-- Fiber 7 waits to read descriptor 5 and EPOLLIN arrives. -/
theorem reports_wake_iff_in : ∃ s s',
    machine.step (new fun _ => ⟨true, .exec, none⟩) (.addEvent ⟨some 0, 7⟩ 5 .read none) s ∧
      handleReport ⟨5, true, false, false, false⟩ s = .ok () s' ∧
      Woken s ⟨5, true, false, false, false⟩ s' := by
  have hstep : machine.step (new fun _ => ⟨true, .exec, none⟩)
      (.addEvent ⟨some 0, 7⟩ 5 .read none) _ := rfl
  have hinit : Reachable (machine.restrict Op.Sound) (new fun _ => ⟨true, .exec, none⟩) :=
    Reachable.init ⟨_, rfl⟩
  have hno : ∀ s, ¬ Hits s ⟨5, true, false, false, false⟩ := by
    rintro s ⟨he | he, -⟩ <;> cases he
  obtain ⟨s', hrun, hw⟩ := (reports_wake_iff (hinit.step ⟨hstep, rfl⟩) (by decide)).mpr (hno _)
  exact ⟨_, s', hstep, hrun, hw⟩

/-- A callback waits for descriptor 5 and EPOLLERR arrives. -/
theorem report_error_callback : ¬ ∀ s (r : Report), Reachable machine s →
    r.ctx < s.fdContexts.length → ∃ s', handleReport r s = .ok () s' ∧ Woken s r s' := by
  intro h
  have hinit : Reachable machine (new fun _ => ⟨true, .exec, none⟩) := Reachable.init ⟨_, rfl⟩
  have hstep : machine.step (new fun _ => ⟨true, .exec, none⟩)
      (.addEvent ⟨some 0, 7⟩ 5 .read (some 1)) _ := rfl
  obtain ⟨s', hrun, -⟩ := h _ ⟨5, false, false, true, false⟩ (hinit.step hstep) (by decide)
  cases hrun

end IOManager
end TwServer
