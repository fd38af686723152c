import TwServer.IOManager.Tickle

/-! Which idle workers `tickle()` wakes. The counter is the number of workers
inside the idle fiber, so while one of them is there no test of `hasIdleThread()`
lets a call through to its `write`: who is woken is woken by an earlier byte. -/

namespace TwServer
open Counting Programs Runs Scheduler

namespace Scheduler

/-- Between `++a_idleThreadCount` and `--a_idleThreadCount`. -/
def Worker.inIdle (wk : Worker) : Bool :=
  match wk.pc with
  | .idle | .idleBack => true
  | _ => false

theorem Worker.inIdle_of_idle {wk : Worker} (h : wk.pc = .idle) : wk.inIdle = true := by
  rw [inIdle, h]

/-- What a step of `run()` does to the counter it does to the workers counted. -/
theorem RunStep.idleThreadCount {s sh : Shared} {wk wk' : Worker} (h : RunStep s wk sh wk')
    (hpos : wk.inIdle = true → 0 < s.idleThreadCount) :
    sh.idleThreadCount + wk.inIdle.toNat = s.idleThreadCount + wk'.inIdle.toNat := by
  cases h with
  | idleBack pc =>
    have hin : wk.inIdle = true := by rw [Worker.inIdle, pc]
    have hdec := decrement_of_pos (hpos hin)
    simp only [Worker.inIdle, pc, Bool.toNat_true, Bool.toNat_false, Nat.add_zero]
    exact hdec
  | pick pc | pickNone pc | accept pc | discard pc | acceptCb pc | swapIn pc | lower pc | ready pc
  | ended pc | suspended pc | requeue pc | hold pc | leave pc | idleYields pc | idleEnds pc
  | toIdle pc =>
    simp [Worker.inIdle, pc, Shared.take, Shared.lower, Shared.newFiber, Shared.setState,
      Shared.start, Shared.push]

theorem TaskStep.idleThreadCount {s sh : Shared} {wk wk' : Worker} (h : TaskStep s wk sh wk') :
    sh.idleThreadCount = s.idleThreadCount ∧ wk.inIdle = false ∧ wk'.inIdle = false := by
  cases h with
  | schedule t pc => simp [Worker.inIdle, pc, Shared.push]
  | setState st pc => simp [Worker.inIdle, pc, Shared.setState]
  | swapOut pc => simp [Worker.inIdle, pc]

theorem StopStep.idleThreadCount {s sh : Shared} (h : StopStep s sh) :
    sh.idleThreadCount = s.idleThreadCount := by
  cases h <;> rfl

/-- Only `schedule(ff.fiber)` puts a task into an empty queue. -/
theorem RunStep.tasks_nil {s sh : Shared} {wk wk' : Worker} (h : RunStep s wk sh wk')
    (hnil : s.tasks = []) (quiet : sh.pushed = s.pushed) : sh.tasks = [] := by
  cases h with
  | pick pc found =>
    rw [hnil] at found
    cases found
  | requeue pc => exact absurd quiet (Nat.succ_ne_self _)
  | _ => exact hnil

theorem TaskStep.tasks_nil {s sh : Shared} {wk wk' : Worker} (h : TaskStep s wk sh wk')
    (hnil : s.tasks = []) (quiet : sh.pushed = s.pushed) : sh.tasks = [] := by
  cases h with
  | schedule t pc => exact absurd quiet (Nat.succ_ne_self _)
  | _ => exact hnil

theorem StopStep.tasks_eq {s sh : Shared} (h : StopStep s sh) : sh.tasks = s.tasks := by
  cases h <;> rfl

theorem Shared.scheduleNoLock_idleThreadCount (f : Option Task) (s : Shared) :
    (s.scheduleNoLock f).2.idleThreadCount = s.idleThreadCount := by
  cases f <;> rfl

theorem Shared.scheduleAll_cons (f : Option Task) (fs : List (Option Task)) (need : Bool)
    (s : Shared) : s.scheduleAll (f :: fs) need =
      (s.scheduleNoLock f).2.scheduleAll fs ((s.scheduleNoLock f).1 || need) := rfl

theorem Shared.scheduleAll_idleThreadCount (fs : List (Option Task)) (need : Bool) (s : Shared) :
    (s.scheduleAll fs need).2.idleThreadCount = s.idleThreadCount := by
  induction fs generalizing need s with
  | nil => rfl
  | cons f fs ih =>
    rw [scheduleAll_cons, ih]
    exact s.scheduleNoLock_idleThreadCount f

theorem Shared.scheduleAll_true (fs : List (Option Task)) (s : Shared) :
    (s.scheduleAll fs true).1 = true := by
  induction fs generalizing s with
  | nil => rfl
  | cons f fs ih =>
    rw [scheduleAll_cons, Bool.or_true]
    exact ih _

/-- A task put into the empty queue asks for a wake-up. -/
theorem Shared.scheduleAll_need {fs : List (Option Task)} {s : Shared} (h : s.tasks = [])
    (hne : (s.scheduleAll fs false).2.tasks ≠ []) : (s.scheduleAll fs false).1 = true := by
  cases fs with
  | nil => exact absurd h hne
  | cons f fs =>
    have hempty : (s.scheduleNoLock f).1 = true := List.isEmpty_iff.mpr h
    rw [scheduleAll_cons, hempty, Bool.true_or]
    exact scheduleAll_true fs _

section
variable {W : Type} [DecidableEq W] [Fintype W]

/-- The counter is the number of workers in the idle fiber. -/
def State.Counted (s : State W) : Prop :=
  s.shared.idleThreadCount = count Worker.inIdle s.workers

theorem State.Counted.set {s : State W} {w : W} {sh : Shared} {wk : Worker} (h : s.Counted)
    (hm : sh.idleThreadCount + (s.workers w).inIdle.toNat =
      s.shared.idleThreadCount + wk.inIdle.toNat) : (s.set w sh wk).Counted :=
  counter_update h hm

theorem State.Counted.enter {caller : Option W} {s t : State W} {w : W} (h : s.Counted)
    (hstep : Step caller s (.enter w) t) : t.Counted := by
  cases hstep with
  | enter pc | enterCaller pc | skipCaller pc =>
    refine h.set ?_
    simp [Worker.inIdle, pc]

end
end Scheduler

namespace Tickle
variable {W C : Type} [DecidableEq W] [DecidableEq C]

structure Sound [Fintype W] (s : State W C) : Prop where
  count : s.sched.Counted
  marks : ∀ w m, (s.idles w).mark = some m → m ≤ s.written
  draining : ∀ w, s.idles w = .draining → (s.sched.workers w).pc = .idle

/-- Nobody has emptied the pipe and not said so. -/
def State.Undrained (s : State W C) : Prop := ∀ w, s.idles w ≠ .draining

section
variable {caller : Option W} {s t : State W C} {l : Label W C} {w : W}

/-! ## What a step does -/

omit [DecidableEq C] in
theorem State.setIdle_cases {v w : W} {i : Idle} {s : State W C} {Q : Idle → Prop}
    (h : Q ((s.setIdle v i).idles w)) : w = v ∧ Q i ∨ w ≠ v ∧ Q (s.idles w) := by
  by_cases hw : w = v
  · subst hw
    exact Or.inl ⟨rfl, Function.update_self w i s.idles ▸ h⟩
  · exact Or.inr ⟨hw, Function.update_of_ne hw i s.idles ▸ h⟩

/-- No byte goes without an `epoll_wait` that has reported the pipe. -/
theorem Step.pipe (h : Step caller s l t) (hready : s.ready = true) (hnone : s.Undrained) :
    (t.ready = true ∧ t.Undrained) ∨ ∃ w, l = .report w := by
  have hset : ∀ (v : W) {i : Idle}, i ≠ .draining → ∀ w, (s.setIdle v i).idles w ≠ .draining := by
    intro v i hi w hw
    rcases State.setIdle_cases (Q := (· = .draining)) hw with ⟨-, hw⟩ | ⟨-, hw⟩
    · exact hi hw
    · exact hnone w hw
  cases h with
  | run pc step quiet => exact Or.inl ⟨hready, hset _ (by simp)⟩
  | getNextTime now pc idle next => exact Or.inl ⟨hready, hset _ (by simp)⟩
  | block pc idle stop => exact Or.inl ⟨hready, hset _ (by simp)⟩
  | wake pc idle => exact Or.inl ⟨hready, hset _ (by simp)⟩
  | drained pc idle empty => exact Or.inl ⟨hready, hset _ (by simp)⟩
  | report pc idle ready => exact Or.inr ⟨_, rfl⟩
  | read pc idle byte => exact absurd idle (hnone _)
  | write call room => exact Or.inl ⟨by simp [State.ready], hnone⟩
  | _ => exact Or.inl ⟨hready, hnone⟩

theorem Step.written (h : Step caller s l t) : s.written ≤ t.written := by
  cases h with
  | write call room => exact Nat.le_succ _
  | _ => exact Nat.le_refl _

/-- The call `c` leaves its critical section for `tickle()`. -/
def Asks (s t : State W C) (c : C) : Prop := s.calls c = .free ∧ t.calls c = .tickle

omit [DecidableEq W] in
theorem State.call_asks {c : C} : (s.call c true).calls c = .tickle :=
  Function.update_self _ _ _

/-- Whoever puts a task into the empty queue goes on to `tickle()`. -/
theorem Step.asks (h : Step caller s l t) (hnil : s.sched.shared.tasks = [])
    (hput : t.sched.shared.tasks ≠ []) : ∃ c, Asks s t c := by
  cases h with
  | run pc step quiet => exact absurd (step.tasks_nil hnil quiet) hput
  | @requeue _ f c pc free need sh push =>
    obtain rfl : need = true := (congrArg Prod.fst push).symm.trans (List.isEmpty_iff.mpr hnil)
    exact ⟨c, free, State.call_asks⟩
  | task step quiet => exact absurd (step.tasks_nil hnil quiet) hput
  | enter step =>
    cases step with
    | enter | enterCaller | skipCaller => exact absurd hnil hput
  | flag step => exact absurd (step.tasks_eq.trans hnil) hput
  | @schedule c need sh fs free push =>
    have hput' : (s.sched.shared.scheduleAll fs false).2.tasks ≠ [] := by
      rw [push]
      exact hput
    obtain rfl : need = true :=
      (congrArg Prod.fst push).symm.trans (Shared.scheduleAll_need hnil hput')
    exact ⟨c, free, State.call_asks⟩
  | _ => exact absurd hnil hput

/-- It changes nothing of the pipe. -/
theorem Step.asks_pipe (h : Step caller s l t) {c : C} (hc : Asks s t c) :
    t.pipe = s.pipe ∧ t.edge = s.edge ∧ t.written = s.written ∧ t.idles = s.idles := by
  have hother : ∀ {d : C} {a : Call}, a ≠ .tickle → ¬ Asks s { t with
      calls := Function.update s.calls d a } c := by
    rintro d a ha ⟨hfree, htickle⟩
    simp only [Function.update_apply] at htickle
    split at htickle
    · exact ha htickle
    · cases hfree.symm.trans htickle
  have hsame : t.calls = s.calls → ¬ Asks s t c := by
    rintro hcalls ⟨hfree, htickle⟩
    rw [hcalls, hfree] at htickle
    cases htickle
  cases h with
  | requeue | schedule | addTimer | reset => exact ⟨rfl, rfl, rfl, rfl⟩
  | tickle call =>
    refine absurd hc (hother ?_)
    split <;> simp
  | write call room => exact absurd hc (hother (by simp))
  | _ => exact absurd hc (hsame rfl)

/-- A worker inside the idle fiber stays there. -/
theorem Step.asks_idle (h : Step caller s l t) {c : C} (hc : Asks s t c)
    (hw : (s.sched.workers w).pc = .idle) : (t.sched.workers w).pc = .idle := by
  cases h with
  | requeue pc free push =>
    rw [State.set_of_ne]
    · exact hw
    · rintro rfl
      cases hw.symm.trans pc
  | schedule | addTimer | reset | tickle | write => exact hw
  | _ =>
    obtain ⟨hfree, htickle⟩ := hc
    cases hfree.symm.trans htickle

end

/-! ## The counter and the marks -/

section
variable [Fintype W] {caller : Option W} {s t : State W C} {l : Label W C}

theorem Step.count (h : Step caller s l t) (hs : s.sched.Counted) : t.sched.Counted := by
  cases h with
  | run pc step quiet =>
    refine hs.set (step.idleThreadCount ?_)
    intro hin
    rw [hs]
    exact count_pos hin
  | @requeue _ f _ pc free _ sh push =>
    have hsh : sh.idleThreadCount = s.sched.shared.idleThreadCount := by
      rw [← Shared.scheduleNoLock_idleThreadCount (some (.fiber f)) s.sched.shared, push]
    refine hs.set ?_
    simp [Worker.inIdle, pc, hsh]
  | task step quiet =>
    obtain ⟨hsh, hold, hnew⟩ := step.idleThreadCount
    refine hs.set ?_
    rw [hsh, hold, hnew]
  | enter step => exact hs.enter step
  | flag step => exact step.idleThreadCount.trans hs
  | quit pc idle stop | yields pc idle =>
    refine hs.set ?_
    simp [Worker.inIdle, pc]
  | schedule fs free push =>
    have hsh := Shared.scheduleAll_idleThreadCount fs false s.sched.shared
    rw [push] at hsh
    exact hsh.trans hs
  | _ => exact hs

omit [Fintype W] in
theorem Step.marks (h : Step caller s l t) (hs : ∀ w m, (s.idles w).mark = some m → m ≤ s.written)
    (w : W) (m : Nat) (hm : (t.idles w).mark = some m) : m ≤ t.written := by
  have hset : ∀ {v : W} {i : Idle}, (∀ m, i.mark = some m → m ≤ s.written) →
      ((s.setIdle v i).idles w).mark = some m → m ≤ s.written := by
    intro v i hi hm
    rcases State.setIdle_cases (Q := fun i => i.mark = some m) hm with ⟨-, hm⟩ | ⟨-, hm⟩
    · exact hi m hm
    · exact hs w m hm
  cases h with
  | run pc step quiet | wake pc idle | report pc idle ready | drained pc idle empty =>
    exact hset (fun _ h => by cases h) hm
  | getNextTime now pc idle next =>
    refine hset (fun m h => ?_) hm
    cases h
    exact Nat.le_refl _
  | block pc idle stop =>
    refine hset (fun m h => ?_) hm
    exact hs _ m ((congrArg Idle.mark idle).trans h)
  | write call room => exact Nat.le_succ_of_le (hs w m hm)
  | _ => exact hs w m hm

omit [Fintype W] in
theorem Step.draining (h : Step caller s l t)
    (hs : ∀ w, s.idles w = .draining → (s.sched.workers w).pc = .idle) (w : W)
    (hw : t.idles w = .draining) : (t.sched.workers w).pc = .idle := by
  have hpc : ∀ {v : W} {sh : Shared} {wk : Worker}, (s.idles v = .draining → False) →
      s.idles w = .draining → ((s.sched.set v sh wk).workers w).pc = .idle := by
    intro v sh wk hv hw
    rw [State.set_of_ne]
    · exact hs w hw
    · rintro rfl
      exact hv hw
  have hset : ∀ {v : W} {i : Idle}, i ≠ .draining → (s.setIdle v i).idles w = .draining →
      (s.sched.workers w).pc = .idle := by
    intro v i hi hw
    rcases State.setIdle_cases (Q := (· = .draining)) hw with ⟨-, hw⟩ | ⟨-, hw⟩
    · exact absurd hw hi
    · exact hs w hw
  cases h with
  | run pc step quiet =>
    rcases State.setIdle_cases (Q := (· = .draining)) hw with ⟨-, hw⟩ | ⟨hne, hw⟩
    · cases hw
    · exact hpc (fun hv => pc (hs _ hv)) hw
  | requeue pc free push => exact hpc (fun hv => by cases (hs _ hv).symm.trans pc) hw
  | task step quiet =>
    refine hpc (fun hv => ?_) hw
    have hidle := step.idleThreadCount.2.1
    rw [Worker.inIdle_of_idle (hs _ hv)] at hidle
    cases hidle
  | enter step =>
    cases step with
    | enter pc | enterCaller pc | skipCaller pc =>
      exact hpc (fun hv => by cases (hs _ hv).symm.trans pc) hw
  | quit pc idle stop => exact hpc (fun hv => by cases idle.symm.trans hv) hw
  | yields pc idle => exact hpc (fun hv => by cases idle.symm.trans hv) hw
  | getNextTime | block | wake | drained => exact hset (by simp) hw
  | report pc idle ready =>
    rcases State.setIdle_cases (Q := (· = .draining)) hw with ⟨rfl, -⟩ | ⟨-, hw⟩
    · exact pc
    · exact hs w hw
  | _ => exact hs w hw

theorem machine_inductive (caller : Option W) :
    (machine caller : System (State W C) (Label W C)).Inductive Sound where
  init := by
    rintro s ⟨⟨-, -, -, -, -, -, hidle, -, -, hworkers⟩, -, -, hidles, -⟩
    refine ⟨?_, fun w m hm => ?_, fun w hw => ?_⟩
    · rw [State.Counted, hidle, eq_comm, count_eq_zero]
      intro w
      rw [hworkers w]
      rfl
    · rw [hidles w] at hm
      cases hm
    · rw [hidles w] at hw
      cases hw
  step s l t hs hstep :=
    ⟨hstep.count hs.count, hstep.marks hs.marks, hstep.draining hs.draining⟩

omit [DecidableEq W] [DecidableEq C] in
theorem Sound.hasIdleThread {w : W} (hs : Sound s) (hw : (s.sched.workers w).pc = .idle) :
    s.sched.shared.hasIdleThread = true := by
  have hpos := count_pos (p := Worker.inIdle) (Worker.inIdle_of_idle hw)
  rw [← show _ = _ from hs.count] at hpos
  exact decide_eq_true hpos

/-! ## Runs after a call has asked -/

omit [Fintype W] in
/-- A ready pipe stays ready until an `epoll_wait` has reported it. -/
theorem run_ready {ls : List (Label W C)} (hrun : Run (machine caller) s ls t)
    (hready : s.ready = true) (hnone : s.Undrained) :
    t.ready = true ∨ ∃ w, .report w ∈ ls := by
  induction hrun with
  | refl s => exact Or.inl hready
  | next hstep _ ih =>
    rcases Step.pipe hstep hready hnone with ⟨hready, hnone⟩ | ⟨w, rfl⟩
    · exact (ih hready hnone).imp_right fun ⟨w, hw⟩ => ⟨w, List.mem_cons_of_mem _ hw⟩
    · exact Or.inr ⟨w, List.mem_cons_self⟩

omit [Fintype W] in
theorem run_written {ls : List (Label W C)} (hrun : Run (machine caller) s ls t) :
    s.written ≤ t.written := by
  induction hrun with
  | refl s => exact Nat.le_refl _
  | next hstep _ ih => exact Nat.le_trans (Step.written hstep) ih

variable (caller) in
omit [Fintype W] in
/-- A worker that empties the pipe goes on until it is empty. -/
theorem run_drain {w : W} (hpc : (s.sched.workers w).pc = .idle) (hw : s.idles w = .draining) :
    ∃ n, Run (machine caller) s (List.replicate n (.worker w)) { s with pipe := 0 } := by
  induction hn : s.pipe generalizing s with
  | zero =>
    have hempty : { s with pipe := 0 } = s := by
      cases s
      cases hn
      rfl
    exact ⟨0, by rw [hempty]; exact Run.refl s⟩
  | succ n ih =>
    have hstep : Step caller s (.worker w) { s with pipe := s.pipe - 1 } :=
      Step.read hpc hw (by omega)
    obtain ⟨n, hrun⟩ := ih (s := { s with pipe := s.pipe - 1 }) hpc hw (by simp [hn])
    exact ⟨n + 1, Run.next hstep hrun⟩

/-- Whenever the call `c` has returned after `s`, a byte has been written since `w` computed its
timeout, if it had, and the pipe is ready for its `epoll_wait` unless it was reported to one. -/
def Wakes (caller : Option W) (s : State W C) (c : C) (w : W) : Prop :=
  ∀ ls t, Run (machine caller) s ls t → t.calls c = .free →
    (∀ m, (s.idles w).mark = some m → m < t.written) ∧ (t.ready = true ∨ ∃ v, .report v ∈ ls)

/-- An earlier byte does it: it was written since `w` computed its timeout, no `epoll_wait` has
reported it, and nobody is emptying the pipe. -/
structure State.Signalled (s : State W C) (w : W) : Prop where
  mark : ∀ m, (s.idles w).mark = some m → m < s.written
  ready : s.ready = true
  undrained : s.Undrained

/-- The call returns without a byte. -/
theorem Sound.returns {c : C} {w : W} (hs : Sound s) (hw : (s.sched.workers w).pc = .idle)
    (hc : s.calls c = .tickle) : Run (machine caller) s [.call c]
      { s with calls := Function.update s.calls c .free } := by
  have hstep : Step caller s (.call c) _ := Step.tickle hc
  rw [hs.hasIdleThread hw] at hstep
  exact Run.next hstep (Run.refl _)

theorem wakes_signalled {c : C} {w : W} (hs : Sound s) (hw : (s.sched.workers w).pc = .idle)
    (hc : s.calls c = .tickle) : Wakes caller s c w ↔ s.Signalled w := by
  constructor
  · intro hwakes
    obtain ⟨hmark, hready⟩ := hwakes _ _ (hs.returns hw hc) (Function.update_self ..)
    refine ⟨hmark, ?_, fun v hv => ?_⟩
    · rcases hready with hready | ⟨v, hv⟩
      · exact hready
      · simp at hv
    · -- `v` leaves nothing in the pipe before the call returns
      obtain ⟨n, hdrain⟩ := run_drain caller (hs.draining v hv) hv
      have hdrained : Sound { s with pipe := 0 } := ⟨hs.count, hs.marks, hs.draining⟩
      have hrun := hdrain.append (hdrained.returns hw hc)
      rcases (hwakes _ _ hrun (Function.update_self ..)).2 with hready | ⟨u, hu⟩
      · simp [State.ready] at hready
      · simp at hu
  · intro hsignalled ls t hrun _
    refine ⟨fun m hm => ?_, run_ready hrun hsignalled.ready hsignalled.undrained⟩
    exact Nat.lt_of_lt_of_le (hsignalled.mark m hm) (run_written hrun)

/-- Who puts a task into the empty queue asks for a wake-up. Whoever asks, with a timer in front
too, while `w` is anywhere inside `idle()`: `w` is woken in every continuation exactly if the
state before would have woken it. -/
theorem wakes_iff {w : W} (hr : Reachable (machine caller) s) (hstep : Step caller s l t)
    (hw : (s.sched.workers w).pc = .idle) :
    (s.sched.shared.tasks = [] → t.sched.shared.tasks ≠ [] → ∃ c, Asks s t c) ∧
      ∀ c, Asks s t c → (Wakes caller t c w ↔ s.Signalled w) := by
  refine ⟨hstep.asks, fun c hc => ?_⟩
  have ht : Sound t := (machine_inductive caller).reachable (hr.step hstep)
  obtain ⟨hpipe, hedge, hwritten, hidles⟩ := hstep.asks_pipe hc
  have hready : t.ready = s.ready := by rw [State.ready, State.ready, hpipe, hedge]
  rw [wakes_signalled ht (hstep.asks_idle hc hw) hc.2]
  constructor
  · rintro ⟨hmark, hpipe, hnone⟩
    exact ⟨hwritten ▸ hidles ▸ hmark, hready ▸ hpipe, fun v => hidles ▸ hnone v⟩
  · rintro ⟨hmark, hpipe, hnone⟩
    exact ⟨hwritten.symm ▸ hidles.symm ▸ hmark, hready.symm ▸ hpipe,
      fun v => hidles.symm ▸ hnone v⟩

end

/-! ## One worker -/

section
variable {C : Type}

/-- The worker has not entered `run()`, and nothing is scheduled. -/
def quiet : State Unit C where
  sched := ⟨⟨[], 0, [], [], fun _ => .init, 0, 0, 0, false, false, false⟩, fun _ => ⟨.start, false⟩⟩
  timers := ⟨fun _ => ⟨false, 0, 0, none⟩, [], 0, false⟩
  idles _ := .entered
  calls _ := .free
  pipe := 0
  edge := false
  written := 0

theorem quiet_init : init (quiet : State Unit C) :=
  ⟨⟨rfl, rfl, rfl, rfl, (fun _ h => by cases h), rfl, rfl, rfl, rfl, fun _ => rfl⟩,
    rfl, rfl, (fun _ => rfl), (fun _ => rfl), rfl, rfl, rfl⟩

/-- A call added a timer in front before the worker came, and writes its byte when the worker is
in `epoll_wait`: so the next call, which schedules a callback, finds it woken. -/
theorem wakes_iff_earlier : ∃ s t : State Unit Bool, Reachable (machine none) s ∧
    Asks s t false ∧ (s.idles ()).mark = some 0 ∧ t.sched.shared.tasks = [⟨0, .cb 3⟩] ∧
      Wakes none t false () := by
  have hinit : Reachable (machine none) (quiet : State Unit Bool) := .init quiet_init
  have hadded := hinit.step (Step.addTimer (c := true) 0 0 1000 7 false rfl (by simp [quiet]) rfl)
  have hpast := hadded.step (Step.tickle (c := true) rfl)
  have hentered := hpast.step (Step.enter (w := ()) (Scheduler.Step.enter rfl (by simp)))
  have hnone := hentered.step (Step.run (w := ()) (by decide) (RunStep.pickNone rfl rfl) rfl)
  have hidle := hnone.step (Step.run (w := ()) (by decide) (RunStep.toIdle rfl rfl) rfl)
  have hcomputed := hidle.step (Step.getNextTime (w := ()) 1 rfl rfl rfl)
  have hblocked := hcomputed.step (Step.block (w := ()) rfl rfl rfl)
  have hwritten := hblocked.step (Step.write (c := true) rfl (by decide))
  have hasks := (wakes_iff (w := ()) hwritten
    (Step.schedule (c := false) [some (.cb 3)] rfl rfl) rfl).2 false ⟨rfl, rfl⟩
  have hwakes := hasks.mpr ⟨fun m hm => by cases hm; exact Nat.one_pos, rfl, fun v hv => by cases hv⟩
  exact ⟨_, _, hwritten, ⟨rfl, rfl⟩, rfl, rfl, hwakes⟩

/-- The worker is in `epoll_wait`, and nothing is scheduled. -/
def waiting : State Unit C where
  sched := ⟨⟨[], 0, [], [], fun _ => .init, 0, 0, 1, false, false, false⟩, fun _ => ⟨.idle, false⟩⟩
  timers := ⟨fun _ => ⟨false, 0, 0, none⟩, [], 0, false⟩
  idles _ := .blocked 3000 0
  calls _ := .free
  pipe := 0
  edge := false
  written := 0

theorem reachable_waiting : Reachable (machine none) (waiting : State Unit Unit) := by
  have hinit : Reachable (machine none) (quiet : State Unit Unit) := .init quiet_init
  have hentered := hinit.step (Step.enter (w := ()) (Scheduler.Step.enter rfl (by simp)))
  have hnone := hentered.step (Step.run (w := ()) (by decide) (RunStep.pickNone rfl rfl) rfl)
  have hidle := hnone.step (Step.run (w := ()) (by decide) (RunStep.toIdle rfl rfl) rfl)
  have hcomputed := hidle.step (Step.getNextTime (w := ()) 1 rfl rfl rfl)
  have hblocked := hcomputed.step (Step.block (w := ()) rfl rfl rfl)
  exact hblocked

/-- The worker is in `epoll_wait`; another thread schedules a callback, and its call returns
without a byte in the pipe. -/
theorem wake_missed : ¬ ∀ (s t : State Unit Unit) (l : Label Unit Unit) (c w : Unit),
    Reachable (machine none) s → Step none s l t → s.sched.shared.tasks = [] →
      t.sched.shared.tasks ≠ [] → Asks s t c → (s.sched.workers w).pc = .idle →
        Wakes none t c w := by
  intro hall
  have hput : Step none waiting (.call ()) _ := Step.schedule [some (.cb 3)] rfl rfl
  have hwakes := hall _ _ _ () () reachable_waiting hput rfl (fun h => by cases h) ⟨rfl, rfl⟩ rfl
  have hbyte := (hwakes [.call ()] _ (Run.next (Step.tickle (c := ()) rfl) (Run.refl _)) rfl).1 0 rfl
  exact absurd hbyte (Nat.lt_irrefl 0)

end

end Tickle
end TwServer
