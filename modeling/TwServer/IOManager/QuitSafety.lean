import TwServer.IOManager.Quit
import TwServer.Lib.Checks

/-! What the workers of an `IOManager` leave behind. Each of them finds the timers, the events and
the tasks to be none before it leaves, but not all at once; what is added in the meantime has a
worker that has yet to look for it. -/

namespace TwServer
open Checks Counting Programs Runs Scheduler

namespace TimerManager
variable {m m' : TimerManager}

/-- The deadlines are 64-bit numbers. -/
def Fits (m : TimerManager) : Prop := ∀ t, (m.heap t).next < 2 ^ 64

theorem addMs_lt (now ms : Nat) : addMs now ms < 2 ^ 64 := Nat.mod_lt _ (by decide)

theorem Fits.setTimer (h : m.Fits) {t : TimerId} {x : Timer} (hx : x.next < 2 ^ 64) :
    (m.setTimer t x).Fits := by
  intro u
  by_cases hu : u = t
  · subst hu
    rwa [setTimer_heap_self]
  · rw [setTimer_heap_of_ne x hu]
    exact h u

theorem Fits.rearm (h : m.Fits) (now : Nat) (t : TimerId) : (m.rearm now t).Fits := by
  unfold TimerManager.rearm
  dsimp only
  split
  · exact h.setTimer (addMs_lt _ _)
  · exact h.setTimer (h t)

theorem Fits.expire (h : m.Fits) (now : Nat) (ts : List TimerId) : (expire now ts m).2.Fits := by
  induction ts generalizing m with
  | nil => exact h
  | cons t ts ih => exact ih (h.rearm now t)

theorem Fits.step (h : m.Fits) {a : Action} (hstep : Step m a m') : m'.Fits := by
  cases hstep with
  | addTimer t now ms cb recurring fresh run =>
    cases run
    exact h.setTimer (addMs_lt _ _)
  | cancel t run =>
    unfold TimerManager.cancel at run
    split at run
    · dsimp only at run
      split at run
      · cases run
      · cases run
        exact h.setTimer (h t)
    · cases run
      exact h
  | refresh t now run =>
    unfold TimerManager.refresh at run
    split at run
    · cases run
      exact h
    · split at run
      · cases run
        exact h
      · cases run
        exact h.setTimer (m := m.erase _) (addMs_lt _ _)
  | reset t now ms fromNow run =>
    unfold TimerManager.reset at run
    split at run
    · cases run
      exact h
    · split at run
      · cases run
        exact h
      · cases run
        refine h.setTimer (m := m.erase _) ?_
        dsimp only
        split
        · exact addMs_lt _ _
        · exact Nat.mod_lt _ (by decide)
  | listExpiredCb now probe run =>
    unfold TimerManager.listExpiredCb at run
    split at run
    · cases run
      exact h
    · cases run
      exact Fits.expire (m := { m with timers := _, previousTime := now }) h now _
  | getNextTime now run =>
    unfold TimerManager.getNextTime at run
    split at run
    · cases run
      exact h
    · cases run
      exact h

/-- Only `addTimer` puts a timer into an empty set. -/
theorem Step.timers_nil {a : Action} (hstep : Step m a m') (old : ∀ t, a.creates t = false)
    (hnil : m.timers = []) : m'.timers = [] := by
  have hfind : ∀ (x : TimerManager) (t : TimerId), x.timers = [] → x.find t = none := by
    intro x t hx
    rw [find, hx]
    rfl
  cases hstep with
  | addTimer t now ms cb recurring fresh run => simp [Action.creates] at old
  | cancel t run =>
    unfold TimerManager.cancel at run
    split at run
    · dsimp only at run
      rw [hfind (setTimer t _ m) t hnil] at run
      cases run
    · cases run
      exact hnil
  | refresh t now run =>
    unfold TimerManager.refresh at run
    rw [hfind m t hnil] at run
    split at run <;> cases run <;> exact hnil
  | reset t now ms fromNow run =>
    unfold TimerManager.reset at run
    rw [hfind m t hnil] at run
    split at run <;> cases run <;> exact hnil
  | listExpiredCb now probe run =>
    rw [TimerManager.listExpiredCb, hnil] at run
    cases run
    exact hnil
  | getNextTime now run =>
    unfold TimerManager.getNextTime at run
    split at run <;> cases run <;> exact hnil

/-- `getNextTime` tells that there is no timer. -/
theorem getNextTime_eq_noTimeout (h : m.Fits) {now n : Nat} (hnow : 0 < now)
    (run : getNextTime now m = .ok n m') : n = noTimeout ↔ m.timers = [] := by
  unfold TimerManager.getNextTime at run
  cases htimers : m.timers with
  | nil =>
    rw [htimers] at run
    cases run
    simp
  | cons t ts =>
    rw [htimers] at run
    cases run
    have := h t
    unfold noTimeout
    simp only [reduceCtorEq, iff_false]
    split <;> omega

end TimerManager

namespace Quit
section
variable {W : Type} [DecidableEq W] {caller : Option W} {s s' : State W} {l : Label W} {w : W}

/-! ## The invariant -/

/-- What holds besides of the counter, the deadlines and the places of the workers. -/
structure Kept (caller : Option W) (s : State W) : Prop where
  counted : s.waits.length + s.lates ≤ s.pending
  fits : s.timers.Fits
  stages : ∀ w, s.stage w = .entered ∨ s.Asks caller w
  term : ∀ w, (s.sched.workers w).idleTerm = true → (s.sched.workers w).pc = .idleBack ∨
    (s.sched.workers w).pc = .scan ∨ (s.sched.workers w).pc = .nothing ∨
    (s.sched.workers w).pc = .left
  flags : s.sched.shared.stopping = true → s.sched.shared.autostop = true
  quit : ∀ w, s.progress w = 3 → s.sched.shared.autostop = true
  called : ∀ w, caller = some w → (s.sched.workers w).pc ≠ .start →
    s.sched.shared.autostop = true

theorem progress_le (wk : Worker) (stage : Stage) : progress wk stage ≤ 3 := by
  unfold progress
  split
  · exact Nat.le_refl 3
  · cases stage <;> simp [Stage.passed]

omit [DecidableEq W] in
theorem Kept.progress_eq (h : Kept caller s) (hpc : (s.sched.workers w).pc = .idle ∨
      (s.sched.workers w).pc = .start ∨ ∃ f event, (s.sched.workers w).pc = .inside f event) :
    s.progress w = (s.stage w).passed := by
  have hterm : (s.sched.workers w).idleTerm = false := by
    cases hterm : (s.sched.workers w).idleTerm with
    | false => rfl
    | true =>
      have hplace := h.term w hterm
      rcases hpc with pc | pc | ⟨f, event, pc⟩ <;> simp [pc] at hplace
  have hleft : (s.sched.workers w).pc ≠ .left := by
    rcases hpc with pc | pc | ⟨f, event, pc⟩ <;> simp [pc]
  rw [State.progress, progress, if_neg (by simp [hterm, hleft])]

omit [DecidableEq W] in
/-- Outside `stopping()` the stage does not matter. -/
theorem Kept.stage_eq (h : Kept caller s) (hpc : (s.sched.workers w).pc ≠ .idle ∧
    (s.sched.workers w).pc ≠ .start) : s.stage w = .entered := by
  rcases h.stages w with hstage | hidle | ⟨hstart, -⟩
  · exact hstage
  · exact absurd hidle hpc.1
  · exact absurd hstart hpc.2

omit [DecidableEq W] in
/-- On the caller's thread only `stop()` asks. -/
theorem Kept.asked (h : Kept caller s) (pc : (s.sched.workers w).pc = .start)
    (hstage : s.stage w ≠ .entered) : s.sched.shared.stopping = true := by
  rcases h.stages w with hentered | hidle | ⟨-, -, hstop⟩
  · exact absurd hentered hstage
  · exact nomatch pc.symm.trans hidle
  · exact hstop

omit [DecidableEq W] in
/-- Who works is not about to leave. -/
theorem Kept.works (h : Kept caller s) (hw : s.Works (some w)) : s.progress w = 0 := by
  rcases hw with ⟨f, event, pc⟩ | ⟨pc, hstage⟩
  · rw [h.progress_eq (.inr (.inr ⟨f, event, pc⟩)), h.stage_eq (by simp [pc])]
    rfl
  · rw [h.progress_eq (.inl pc), hstage]
    rfl

omit [DecidableEq W] in
/-- Before `stop()` nobody has left. -/
theorem Kept.stays [Nonempty W] (h : Kept caller s) (hearly : s.sched.shared.autostop = false) :
    ∃ w, s.progress w ≤ 2 := by
  obtain ⟨w⟩ := ‹Nonempty W›
  refine ⟨w, ?_⟩
  have hle := progress_le (s.sched.workers w) (s.stage w)
  by_contra hgone
  have hthree : s.progress w = 3 := by
    unfold State.progress at hgone ⊢
    omega
  exact Bool.false_ne_true (hearly.symm.trans (h.quit w hthree))

theorem progress_set (wk : Worker) (stage : Stage)
    (hworkers : s'.sched.workers = Function.update s.sched.workers w wk)
    (hstage : s'.stage = Function.update s.stage w stage) :
    s'.progress = Function.update s.progress w (progress wk stage) := by
  funext v
  unfold State.progress
  rw [hworkers, hstage]
  by_cases hv : v = w
  · subst hv
    rw [Function.update_self, Function.update_self, Function.update_self]
  · rw [Function.update_of_ne hv, Function.update_of_ne hv, Function.update_of_ne hv]

/-- A step that changes one worker, and leaves the flags. -/
theorem Kept.set (h : Kept caller s) (wk : Worker) (stage : Stage)
    (hworkers : s'.sched.workers = Function.update s.sched.workers w wk)
    (hstage : s'.stage = Function.update s.stage w stage)
    (hflags : s'.sched.shared.autostop = s.sched.shared.autostop ∧
      s'.sched.shared.stopping = s.sched.shared.stopping)
    (hcounted : s'.waits.length + s'.lates ≤ s'.pending) (hfits : s'.timers.Fits)
    (hstages : stage = .entered ∨ wk.pc = .idle ∨
      wk.pc = .start ∧ caller = some w ∧ s.sched.shared.stopping = true)
    (hterm : wk.idleTerm = true → wk.pc = .idleBack ∨ wk.pc = .scan ∨ wk.pc = .nothing ∨
      wk.pc = .left)
    (hquit : progress wk stage = 3 → s.sched.shared.autostop = true)
    (hcalled : caller = some w → wk.pc ≠ .start → s.sched.shared.autostop = true) :
    Kept caller s' := by
  have hself : s'.sched.workers w = wk := by rw [hworkers, Function.update_self]
  have hother : ∀ v, v ≠ w → s'.sched.workers v = s.sched.workers v ∧ s'.stage v = s.stage v := by
    intro v hv
    rw [hworkers, hstage, Function.update_of_ne hv, Function.update_of_ne hv]
    exact ⟨rfl, rfl⟩
  refine ⟨hcounted, hfits, fun v => ?_, fun v hv => ?_, fun hs => ?_, fun v hv => ?_,
    fun v hc hv => ?_⟩
  · unfold State.Asks
    rw [hflags.2]
    by_cases hvw : v = w
    · subst hvw
      rw [hself, hstage, Function.update_self]
      exact hstages
    · rw [(hother v hvw).1, (hother v hvw).2]
      exact h.stages v
  · by_cases hvw : v = w
    · subst hvw
      rw [hself] at hv ⊢
      exact hterm hv
    · rw [(hother v hvw).1] at hv ⊢
      exact h.term v hv
  · rw [hflags.1]
    exact h.flags (hflags.2 ▸ hs)
  · rw [hflags.1]
    rw [progress_set wk stage hworkers hstage] at hv
    by_cases hvw : v = w
    · subst hvw
      rw [Function.update_self] at hv
      exact hquit hv
    · rw [Function.update_of_ne hvw] at hv
      exact h.quit v hv
  · rw [hflags.1]
    by_cases hvw : v = w
    · subst hvw
      rw [hself] at hv
      exact hcalled hc hv
    · rw [(hother v hvw).1] at hv
      exact h.called v hc hv

omit [DecidableEq W] in
/-- A step that changes no worker. -/
theorem Kept.frame (h : Kept caller s) (hworkers : s'.sched.workers = s.sched.workers)
    (hstage : s'.stage = s.stage)
    (hflags : s'.sched.shared.autostop = s.sched.shared.autostop ∧
      s'.sched.shared.stopping = s.sched.shared.stopping)
    (hcounted : s'.waits.length + s'.lates ≤ s'.pending) (hfits : s'.timers.Fits) :
    Kept caller s' := by
  refine ⟨hcounted, hfits, ?_, ?_, ?_, ?_, ?_⟩
  · unfold State.Asks
    rw [hworkers, hstage, hflags.2]
    exact h.stages
  · rw [hworkers]
    exact h.term
  · rw [hflags.1, hflags.2]
    exact h.flags
  · unfold State.progress
    rw [hworkers, hstage, hflags.1]
    exact h.quit
  · rw [hworkers, hflags.1]
    exact h.called

/-! ## What the steps of a worker do -/

section Steps
variable {sh sh' : Shared} {wk wk' : Worker}

/-- Outside the idle fiber a worker does not decide to leave. -/
theorem RunStep.quits (h : RunStep sh wk sh' wk') (pc : wk.pc ≠ .idle) :
    wk'.pc = .left ∨ wk'.idleTerm = true ↔ wk.pc = .left ∨ wk.idleTerm = true := by
  cases h with
  | leave hpc term => simp [term]
  | idleYields hpc | idleEnds hpc => exact absurd hpc pc
  | pick hpc | pickNone hpc | accept hpc | discard hpc | acceptCb hpc | swapIn hpc | lower hpc
  | ready hpc | ended hpc | suspended hpc | requeue hpc | hold hpc | toIdle hpc
  | idleBack hpc => simp [hpc]

theorem RunStep.term (h : RunStep sh wk sh' wk') (pc : wk.pc ≠ .idle)
    (hterm : wk.idleTerm = true → wk.pc = .idleBack ∨ wk.pc = .scan ∨ wk.pc = .nothing ∨
      wk.pc = .left)
    (hnone : wk.pc = .scan → wk.idleTerm = true → sh.scan sh.tasks = none)
    (hterm' : wk'.idleTerm = true) : wk'.pc = .idleBack ∨ wk'.pc = .scan ∨ wk'.pc = .nothing ∨
      wk'.pc = .left := by
  cases h with
  | pick hpc found => exact nomatch (hnone hpc hterm').symm.trans found
  | pickNone hpc | leave hpc | idleBack hpc | discard hpc | ended hpc | requeue hpc
  | hold hpc => simp
  | idleYields hpc | idleEnds hpc => exact absurd hpc pc
  | toIdle hpc alive => exact absurd (alive.symm.trans hterm') Bool.false_ne_true
  | accept hpc | acceptCb hpc | swapIn hpc | lower hpc | ready hpc | suspended hpc =>
    have hplace := hterm hterm'
    simp [hpc] at hplace

theorem RunStep.places (h : RunStep sh wk sh' wk') : wk.pc ≠ .start ∧ wk'.pc ≠ .start := by
  cases h with
  | _ => simp_all

theorem RunStep.stopping (h : RunStep sh wk sh' wk') : sh'.stopping = sh.stopping := by
  cases h <;> rfl

theorem TaskStep.stopping (h : TaskStep sh wk sh' wk') : sh'.stopping = sh.stopping := by
  cases h <;> rfl

theorem TaskStep.places (h : TaskStep sh wk sh' wk') : (∃ f event, wk.pc = .inside f event) ∧
    wk'.idleTerm = wk.idleTerm ∧ wk'.pc ≠ .start ∧ wk'.pc ≠ .left ∧ wk'.pc ≠ .idle := by
  cases h with
  | schedule t pc | setState st pc => exact ⟨⟨_, _, pc⟩, rfl, by simp [pc]⟩
  | swapOut pc => exact ⟨⟨_, _, pc⟩, rfl, by simp⟩

/-- A task gets into the queue out of a worker that has not decided to leave. -/
theorem RunStep.fills (h : RunStep sh wk sh' wk') (hne : sh'.tasks ≠ []) :
    sh.tasks ≠ [] ∨ ∃ f, wk.pc = .requeue f := by
  cases h with
  | requeue pc => exact .inr ⟨_, pc⟩
  | pick pc found =>
    left
    intro hnil
    rw [hnil] at found
    cases found
  | _ => exact .inl hne

end Steps

/-! ## The steps -/

theorem Kept.run (h : Kept caller s) {sh : Shared} {wk : Worker} (pc : (s.sched.workers w).pc ≠ .idle)
    (step : RunStep s.sched.shared (s.sched.workers w) sh wk) (ht : Timely s (.run w)) :
    Kept caller { s with sched := s.sched.set w sh wk } := by
  have hstage : s.stage w = .entered := h.stage_eq ⟨pc, (RunStep.places step).1⟩
  refine h.set (w := w) wk .entered rfl ?_ ⟨step.autostop, RunStep.stopping step⟩
    h.counted h.fits (.inl rfl) (RunStep.term step pc (h.term w) ht) (fun hthree => h.quit w ?_)
    fun hc _ => h.called w hc (RunStep.places step).1
  · rw [← hstage]
    exact (Function.update_eq_self w s.stage).symm
  · unfold progress at hthree
    split at hthree
    · rw [State.progress, progress, if_pos ((RunStep.quits step pc).mp ‹_›)]
    · cases hthree

theorem Kept.task (h : Kept caller s) {sh : Shared} {wk : Worker}
    (step : TaskStep s.sched.shared (s.sched.workers w) sh wk) :
    Kept caller { s with sched := s.sched.set w sh wk } := by
  obtain ⟨⟨f, event, pc⟩, hterm, -, hleft, -⟩ := TaskStep.places step
  have hstage : s.stage w = .entered := h.stage_eq (by simp [pc])
  have hfalse : wk.idleTerm = false := by
    cases hwk : wk.idleTerm with
    | false => rfl
    | true =>
      have hplace := h.term w (hterm.symm.trans hwk)
      simp [pc] at hplace
  refine h.set (w := w) wk .entered rfl ?_
    ⟨step.autostop, TaskStep.stopping step⟩ h.counted h.fits (.inl rfl) (fun htrue => ?_)
    (fun hthree => ?_) fun hc _ => h.called w hc (by simp [pc])
  · rw [← hstage]
    exact (Function.update_eq_self w s.stage).symm
  · exact absurd (hfalse.symm.trans htrue) Bool.false_ne_true
  · simp [progress, hfalse, hleft] at hthree
    cases hthree

omit [DecidableEq W] in
theorem Asks.place (asks : s.Asks caller w) :
    (s.sched.workers w).pc = .idle ∨ (s.sched.workers w).pc = .start := by
  rcases asks with pc | ⟨pc, -⟩
  · exact .inl pc
  · exact .inr pc

omit [DecidableEq W] in
theorem Kept.stayed (h : Kept caller s)
    (hpc : (s.sched.workers w).pc = .idle ∨ (s.sched.workers w).pc = .start) :
    (s.sched.workers w).idleTerm = false := by
  cases hterm : (s.sched.workers w).idleTerm with
  | false => rfl
  | true =>
    have hplace := h.term w hterm
    rcases hpc with pc | pc <;> simp [pc] at hplace

theorem passed_le (stage : Stage) : stage.passed ≤ 2 := by
  cases stage <;> simp [Stage.passed]

/-- A step inside `stopping()` or the loop of `idle()`. -/
theorem Kept.ask (h : Kept caller s) (asks : s.Asks caller w) {stage : Stage}
    (hworkers : s'.sched.workers = s.sched.workers)
    (hstage : s'.stage = Function.update s.stage w stage)
    (hflags : s'.sched.shared.autostop = s.sched.shared.autostop ∧
      s'.sched.shared.stopping = s.sched.shared.stopping)
    (hcounted : s'.waits.length + s'.lates ≤ s'.pending) (hfits : s'.timers.Fits) :
    Kept caller s' := by
  refine h.set (w := w) (s.sched.workers w) stage ?_ hstage hflags hcounted hfits
    (.inr asks) (h.term w) (fun hthree => ?_) (h.called w)
  · rw [hworkers, Function.update_eq_self]
  · have hleft : (s.sched.workers w).pc ≠ .left := by
      rcases Asks.place asks with pc | pc <;> simp [pc]
    rw [progress, if_neg (by simp [hleft, h.stayed (Asks.place asks)])] at hthree
    have := passed_le stage
    omega

/-- A step out of `stopping()`, or past it. -/
theorem Kept.turn (h : Kept caller s)
    (hpc : (s.sched.workers w).pc = .idle ∨ (s.sched.workers w).pc = .start) {pc : Pc}
    (hto : pc = .idleBack ∨ pc = .scan ∨ pc = .left ∧ s.sched.shared.autostop = true)
    (hworkers : s'.sched.workers =
      Function.update s.sched.workers w { s.sched.workers w with pc := pc })
    (hstage : s'.stage = Function.update s.stage w .entered)
    (hshared : s'.sched.shared = s.sched.shared) (hwaits : s'.waits = s.waits)
    (hpending : s'.pending = s.pending ∧ s'.lates = s.lates) (htimers : s'.timers = s.timers)
    (hcalled : caller = some w → s.sched.shared.autostop = true) : Kept caller s' := by
  have hstayed := h.stayed hpc
  refine h.set _ .entered hworkers hstage (by rw [hshared]; exact ⟨rfl, rfl⟩) ?_ ?_ (.inl rfl)
    (fun hterm => ?_) (fun hthree => ?_) fun hc _ => hcalled hc
  · rw [hwaits, hpending.1, hpending.2]
    exact h.counted
  · rw [htimers]
    exact h.fits
  · exact absurd (hstayed.symm.trans hterm) Bool.false_ne_true
  · rcases hto with rfl | rfl | ⟨rfl, hauto⟩
    · simp [progress, hstayed, Stage.passed] at hthree
    · simp [progress, hstayed, Stage.passed] at hthree
    · exact hauto

theorem autostop_of_isStopping {sh : Shared} (h : sh.isStopping = true) :
    sh.autostop = true ∧ sh.tasks = [] := by
  simp only [Shared.isStopping, Bool.and_eq_true, List.isEmpty_iff] at h
  exact ⟨h.2.1.1.1, h.2.1.2⟩

theorem scheduleAll_flags {fs : List (Option Task)} {need need' : Bool} {sh sh' : Shared}
    (push : sh.scheduleAll fs need = (need', sh')) :
    sh'.autostop = sh.autostop ∧ sh'.stopping = sh.stopping := by
  induction fs generalizing need sh with
  | nil =>
    cases push
    exact ⟨rfl, rfl⟩
  | cons f fs ih =>
    obtain ⟨hauto, hstopping⟩ := ih push
    rw [hauto, hstopping]
    cases f <;> exact ⟨rfl, rfl⟩

omit [DecidableEq W] in
/-- A thread that is not the caller's enters `run()` without asking. -/
theorem Kept.unasked (h : Kept caller s) (pc : (s.sched.workers w).pc = .start)
    (other : caller ≠ some w) : s.stage w = .entered := by
  rcases h.stages w with hstage | hidle | ⟨-, own, -⟩
  · exact hstage
  · exact nomatch pc.symm.trans hidle
  · exact absurd own other

theorem Kept.step (h : Kept caller s) (hst : Step caller s l s') (ht : Timely s l) :
    Kept caller s' := by
  have hkept := h.counted
  cases hst with
  | run pc step => exact h.run pc step ht
  | task step => exact h.task step
  | flag step busy =>
    cases step with
    | autostop =>
      exact ⟨hkept, h.fits, h.stages, h.term, fun _ => rfl, fun _ _ => rfl, fun _ _ _ => rfl⟩
    | stopping auto =>
      refine ⟨hkept, h.fits, fun w => ?_, h.term, fun _ => auto, h.quit, h.called⟩
      rcases h.stages w with hstage | hidle | ⟨pc, own, -⟩
      · exact .inl hstage
      · exact .inr (.inl hidle)
      · exact .inr (.inr ⟨pc, own, rfl⟩)
    | busy b => exact h.frame rfl rfl ⟨rfl, rfl⟩ hkept h.fits
  | push t => exact h.frame rfl rfl ⟨rfl, rfl⟩ hkept h.fits
  | getNextTime now asks stage clock next =>
    exact h.ask asks rfl rfl ⟨rfl, rfl⟩ hkept (h.fits.step (.getNextTime now next))
  | readPending asks stage | notStopping asks stage stop =>
    exact h.ask asks rfl rfl ⟨rfl, rfl⟩ hkept h.fits
  | quit pc stage stop =>
    have hauto := (autostop_of_isStopping stop).1
    exact h.set { pc := .idleBack, idleTerm := true } .entered rfl rfl ⟨rfl, rfl⟩ hkept h.fits
      (.inl rfl) (fun _ => .inl rfl) (fun _ => hauto) fun _ _ => hauto
  | listExpiredCb now probe pc stage expired =>
    exact h.ask (.inl pc) rfl rfl ⟨rfl, rfl⟩ hkept (h.fits.step (.listExpiredCb now probe expired))
  | schedule pc stage push =>
    exact h.ask (.inl pc) rfl rfl (scheduleAll_flags push) hkept h.fits
  | yields pc stage =>
    exact h.turn (.inl pc) (.inl rfl) rfl rfl rfl rfl ⟨rfl, rfl⟩ rfl fun hc =>
      h.called _ hc (by simp [pc])
  | enter pc other =>
    rename_i w
    have hstage := h.unasked pc other
    refine h.turn (.inr pc) (.inr (.inl rfl)) rfl ?_ rfl rfl ⟨rfl, rfl⟩ rfl fun hc =>
      absurd hc other
    rw [← hstage]
    exact (Function.update_eq_self w s.stage).symm
  | call pc own stage =>
    exact h.turn (.inr pc) (.inr (.inl rfl)) rfl rfl rfl rfl ⟨rfl, rfl⟩ rfl fun _ =>
      h.flags (h.asked pc (by simp [stage]))
  | again pc own stage =>
    have hstopping := h.asked pc (by simp [stage])
    exact h.ask (.inr ⟨pc, own, hstopping⟩) rfl rfl ⟨rfl, rfl⟩ hkept h.fits
  | skip pc own stage stop =>
    have hauto := (autostop_of_isStopping stop).1
    exact h.turn (.inr pc) (.inr (.inr ⟨rfl, hauto⟩)) rfl rfl rfl rfl ⟨rfl, rfl⟩ rfl fun _ => hauto
  | addTimer p works t now ms cb recurring fresh add =>
    exact h.frame rfl rfl ⟨rfl, rfl⟩ hkept (h.fits.step (.addTimer t now ms cb recurring fresh add))
  | timer step old quiet => exact h.frame rfl rfl ⟨rfl, rfl⟩ hkept (h.fits.step step)
  | addEvent p works wait fresh =>
    refine h.frame rfl rfl ⟨rfl, rfl⟩ ?_ h.fits
    simp only [List.length_cons]
    omega
  | triggerEvent p works mem =>
    refine h.frame rfl rfl ⟨rfl, rfl⟩ ?_ h.fits
    have hpos := List.length_pos_of_mem mem
    simp only [List.length_erase_of_mem mem]
    omega
  | lower late =>
    refine h.frame rfl rfl ⟨rfl, rfl⟩ ?_ h.fits
    have := decrement_of_pos (show 0 < s.pending by omega)
    simp only
    omega
  | delEvent epollCtl mem =>
    refine h.frame rfl rfl ⟨rfl, rfl⟩ ?_ h.fits
    have hpos := List.length_pos_of_mem mem
    have := decrement_of_pos (show 0 < s.pending by omega)
    simp only [List.length_erase_of_mem mem]
    split <;> omega

/-! ## Nothing is left behind -/

omit [DecidableEq W] in
theorem State.left_cases {k : Nat} (hk : s.Left k) : k = 0 ∧ s.timers.timers ≠ [] ∨
    k = 1 ∧ s.waits ≠ [] ∨ k = 2 ∧ s.sched.shared.tasks ≠ [] := by
  match k, hk with
  | 0, hk => exact .inl ⟨rfl, hk⟩
  | 1, hk => exact .inr (.inl ⟨rfl, hk⟩)
  | 2, hk => exact .inr (.inr ⟨rfl, hk⟩)

omit [DecidableEq W] in
/-- What fills a resource, and under whose eyes. -/
theorem guarded_fill {p : W → Nat} (hg : Guarded s.Left p)
    (htimers : s'.timers.timers ≠ [] → s.timers.timers ≠ [] ∨ ∃ w, p w = 0)
    (hwaits : s'.waits ≠ [] → s.waits ≠ [] ∨ ∃ w, p w = 0)
    (htasks : s'.sched.shared.tasks ≠ [] → s.sched.shared.tasks ≠ [] ∨ ∃ w, p w ≤ 2) :
    Guarded s'.Left p := by
  refine hg.fill fun k hk => ?_
  rcases State.left_cases hk with ⟨rfl, hne⟩ | ⟨rfl, hne⟩ | ⟨rfl, hne⟩
  · rcases htimers hne with hold | ⟨w, hw⟩
    · exact .inl hold
    · exact .inr ⟨w, Nat.le_of_eq hw⟩
  · rcases hwaits hne with hold | ⟨w, hw⟩
    · exact .inl hold
    · exact .inr ⟨w, by omega⟩
  · exact htasks hne

theorem progress_run {sh : Shared} {wk : Worker} (pc : (s.sched.workers w).pc ≠ .idle)
    (step : RunStep s.sched.shared (s.sched.workers w) sh wk) :
    State.progress { s with sched := s.sched.set w sh wk } = s.progress := by
  have hsame : progress wk (s.stage w) = s.progress w := by
    simp only [State.progress, progress, RunStep.quits step pc]
  have hset : State.progress { s with sched := s.sched.set w sh wk } =
      Function.update s.progress w (progress wk (s.stage w)) :=
    progress_set _ _ rfl (Function.update_eq_self w s.stage).symm
  rw [hset, hsame, Function.update_eq_self]

/-- The last look of a worker that asks, or its way back to the start. -/
theorem Kept.progress_ask (h : Kept caller s)
    (hpc : (s.sched.workers w).pc = .idle ∨ (s.sched.workers w).pc = .start) (stage : Stage)
    (hworkers : s'.sched.workers = s.sched.workers)
    (hstage : s'.stage = Function.update s.stage w stage) :
    s'.progress = Function.update s.progress w stage.passed := by
  have hleft : (s.sched.workers w).pc ≠ .left := by
    rcases hpc with pc | pc <;> simp [pc]
  have hself : s'.sched.workers = Function.update s.sched.workers w (s.sched.workers w) := by
    rw [hworkers, Function.update_eq_self]
  rw [progress_set _ stage hself hstage, progress, if_neg (by simp [hleft, h.stayed hpc])]

/-- A worker that has decided nothing turns to something else. -/
theorem Kept.progress_turn (h : Kept caller s)
    (hpc : (s.sched.workers w).pc = .idle ∨ (s.sched.workers w).pc = .start) (pc : Pc)
    (hto : pc ≠ .left) (hworkers : s'.sched.workers =
      Function.update s.sched.workers w { s.sched.workers w with pc := pc })
    (hstage : s'.stage = Function.update s.stage w .entered) :
    s'.progress = Function.update s.progress w 0 := by
  rw [progress_set _ _ hworkers hstage, progress, if_neg (by simp [hto, h.stayed hpc])]
  rfl

omit [DecidableEq W] in
theorem Kept.passed_eq (h : Kept caller s)
    (hpc : (s.sched.workers w).pc = .idle ∨ (s.sched.workers w).pc = .start) {stage : Stage}
    (hstage : s.stage w = stage) : s.progress w = stage.passed := by
  rw [← hstage]
  exact h.progress_eq (hpc.imp_right .inl)

theorem Guarded.step [Nonempty W] (hg : Guarded s.Left s.progress) (h : Kept caller s)
    (hst : Step caller s l s') (ht : Timely s l) : Guarded s'.Left s'.progress := by
  have hworks : ∀ p, s.Works p → (p = none → ∃ w, s.progress w = 0) →
      ∃ w, s.progress w = 0 := by
    intro p hp hnone
    cases p with
    | none => exact hnone rfl
    | some w => exact ⟨w, h.works hp⟩
  cases hst with
  | run pc step =>
    rename_i w sh wk
    rw [progress_run pc step]
    refine guarded_fill hg .inl .inl fun hne => ?_
    rcases RunStep.fills step hne with hold | ⟨f, hpc⟩
    · exact .inl hold
    · refine .inr ⟨w, ?_⟩
      have hterm : (s.sched.workers w).idleTerm = false := by
        cases hterm : (s.sched.workers w).idleTerm with
        | false => rfl
        | true =>
          have hplace := h.term w hterm
          simp [hpc] at hplace
      rw [State.progress, progress, if_neg (by simp [hterm, hpc])]
      exact passed_le _
  | task step =>
    rename_i w sh wk
    obtain ⟨hinside, hterm, -, hleft, -⟩ := TaskStep.places step
    have hzero : s.progress w = 0 := h.works (.inl hinside)
    have hwk : progress wk (s.stage w) = 0 := by
      obtain ⟨f, event, pc⟩ := hinside
      have hplaces := h.progress_eq (w := w) (.inr (.inr ⟨f, event, pc⟩))
      rw [h.stage_eq (by simp [pc])]
      have hfalse : wk.idleTerm = false := by
        cases hwk : wk.idleTerm with
        | false => rfl
        | true =>
          have hplace := h.term w (hterm.symm.trans hwk)
          simp [pc] at hplace
      rw [progress, if_neg (by simp [hfalse, hleft])]
      rfl
    have hset : State.progress { s with sched := s.sched.set w sh wk } =
        Function.update s.progress w (progress wk (s.stage w)) :=
      progress_set _ _ rfl (Function.update_eq_self w s.stage).symm
    rw [hset, hwk]
    exact guarded_fill (hg.restart w) .inl .inl fun _ =>
      .inr ⟨w, by rw [Function.update_self]; omega⟩
  | flag step busy => cases step <;> exact hg
  | push t => exact guarded_fill hg .inl .inl fun _ => .inr ht
  | getNextTime now asks stage clock next =>
    rename_i w n m
    have hplace := Asks.place asks
    have hzero := h.passed_eq hplace stage
    have hnil := TimerManager.getNextTime_eq_noTimeout h.fits clock next
    have hprogress : State.progress { s.setStage w (if n = noTimeout then .timersRead else .goesOn)
        with timers := m } = _ := h.progress_ask hplace _ rfl rfl
    rw [hprogress]
    have hdrain : ∀ k, State.Left { s.setStage w (if n = noTimeout then .timersRead else .goesOn)
        with timers := m } k → s.Left k := by
      intro k hk
      rcases State.left_cases hk with ⟨rfl, hne⟩ | ⟨rfl, hne⟩ | ⟨rfl, hne⟩
      · intro hempty
        exact hne ((TimerManager.Step.getNextTime now next).timers_nil (fun _ => rfl) hempty)
      · exact hne
      · exact hne
    refine Guarded.drain ?_ hdrain
    by_cases hn : n = noTimeout
    · rw [if_pos hn]
      have hadvance := hg.advance (w := w) (by
        rw [hzero]
        exact fun hne => hne (hnil.mp hn))
      rw [hzero] at hadvance
      exact hadvance
    · rw [if_neg hn]
      exact hg.restart w
  | readPending asks stage =>
    rename_i w
    have hplace := Asks.place asks
    have hone := h.passed_eq hplace stage
    have hprogress : (s.setStage w (if s.pending = 0 then .pendingRead else .goesOn)).progress =
      _ := h.progress_ask hplace _ rfl rfl
    rw [hprogress]
    by_cases hpending : s.pending = 0
    · rw [if_pos hpending]
      have hadvance := hg.advance (w := w) (by
        rw [hone]
        intro hne
        have := List.length_pos_iff.mpr hne
        have := h.counted
        omega)
      rw [hone] at hadvance
      exact hadvance
    · rw [if_neg hpending]
      exact hg.restart w
  | notStopping asks stage stop =>
    rename_i w
    have hprogress : (s.setStage w .goesOn).progress = _ :=
      h.progress_ask (Asks.place asks) _ rfl rfl
    rw [hprogress]
    exact hg.restart w
  | quit pc stage stop =>
    rename_i w
    have htwo := h.passed_eq (.inl pc) stage
    rw [progress_set (s := s) (w := w) { pc := .idleBack, idleTerm := true } .entered rfl rfl,
      progress, if_pos (.inr rfl)]
    have hadvance := hg.advance (w := w) (by
      rw [htwo]
      exact fun hne => hne (autostop_of_isStopping stop).2)
    rw [htwo] at hadvance
    exact hadvance
  | listExpiredCb now probe pc stage expired =>
    rename_i w cbs m
    have hprogress : State.progress { s.setStage w (.expired cbs) with timers := m } = _ :=
      h.progress_ask (.inl pc) _ rfl rfl
    rw [hprogress]
    refine guarded_fill (hg.restart w) (fun hne => .inl fun hempty => hne ?_) .inl .inl
    exact (TimerManager.Step.listExpiredCb now probe expired).timers_nil (fun _ => rfl) hempty
  | schedule pc stage push =>
    rename_i w cbs need sh
    have hprogress : State.progress { s.setStage w .handling with
        sched := { s.sched with shared := sh } } = _ := h.progress_ask (.inl pc) _ rfl rfl
    rw [hprogress]
    exact guarded_fill (hg.restart w) .inl .inl fun _ =>
      .inr ⟨w, by rw [Function.update_self]; exact Nat.zero_le 2⟩
  | yields pc stage =>
    rw [h.progress_turn (.inl pc) .idleBack (by simp) rfl rfl]
    exact hg.restart _
  | enter pc other =>
    rename_i w
    have hstage : s.stage = Function.update s.stage w .entered := by
      rw [← h.unasked pc other, Function.update_eq_self]
    have hprogress : State.progress
        { s with sched := s.sched.set w s.sched.shared { s.sched.workers w with pc := .scan } } = _ :=
      h.progress_turn (.inr pc) .scan (by simp) rfl hstage
    rw [hprogress]
    exact hg.restart w
  | call pc own stage =>
    rw [h.progress_turn (.inr pc) .scan (by simp) rfl rfl]
    exact hg.restart _
  | again pc own stage =>
    rename_i w
    have hprogress : (s.setStage w .entered).progress = _ := h.progress_ask (.inr pc) _ rfl rfl
    rw [hprogress]
    exact hg.restart w
  | skip pc own stage stop =>
    rename_i w
    have htwo := h.passed_eq (.inr pc) stage
    rw [progress_set (s := s) (w := w) { s.sched.workers w with pc := .left } .entered rfl rfl,
      progress, if_pos (.inl rfl)]
    have hadvance := hg.advance (w := w) (by
      rw [htwo]
      exact fun hne => hne (autostop_of_isStopping stop).2)
    rw [htwo] at hadvance
    exact hadvance
  | addTimer p works t now ms cb recurring fresh add =>
    exact guarded_fill hg (fun _ => .inr (hworks p works fun hp => by subst hp; exact ht)) .inl .inl
  | timer step old quiet =>
    exact guarded_fill hg (fun hne => .inl fun hempty => hne (step.timers_nil old hempty)) .inl .inl
  | addEvent p works wait fresh =>
    exact guarded_fill hg .inl (fun _ => .inr (hworks p works fun hp => by subst hp; exact ht)) .inl
  | triggerEvent p works mem =>
    refine guarded_fill hg .inl (fun _ => .inl (List.ne_nil_of_mem mem)) fun _ => .inr ?_
    cases p with
    | none => exact ht
    | some w =>
      have hzero := h.works works
      refine ⟨w, ?_⟩
      show s.progress w ≤ 2
      omega
  | lower late => exact hg
  | delEvent epollCtl mem =>
    exact guarded_fill hg .inl (fun _ => .inl (List.ne_nil_of_mem mem)) .inl

omit [DecidableEq W] in
theorem kept_init (h : init s) : Kept caller s ∧ Guarded s.Left s.progress := by
  obtain ⟨hsched, -, htimers, hfits, hwaits, hpending, hlates, hstage⟩ := h
  obtain ⟨htasks, -, -, -, -, -, -, hauto, hstopping, hworkers⟩ := hsched
  have hstart : ∀ w, (s.sched.workers w).pc = .start ∧ (s.sched.workers w).idleTerm = false := by
    intro w
    rw [hworkers w]
    exact ⟨rfl, rfl⟩
  refine ⟨⟨?_, hfits, fun w => .inl (hstage w), fun w hw => ?_, fun hs => ?_, fun w hw => ?_,
    fun w _ hw => absurd (hstart w).1 hw⟩, fun k hk => ?_⟩
  · rw [hwaits, hpending, hlates]
    exact Nat.le_refl 0
  · exact absurd ((hstart w).2.symm.trans hw) Bool.false_ne_true
  · exact absurd (hstopping.symm.trans hs) Bool.false_ne_true
  · rw [State.progress, progress, if_neg (by simp [hstart w]), hstage w] at hw
    cases hw
  · rcases State.left_cases hk with ⟨-, hne⟩ | ⟨-, hne⟩ | ⟨-, hne⟩
    · exact absurd htimers hne
    · exact absurd hwaits hne
    · exact absurd htasks hne

theorem guarded_of_timely [Nonempty W] (h : Reachable ((machine caller).restrict Timely) s) :
    Kept caller s ∧ Guarded s.Left s.progress := by
  induction h with
  | init hs => exact kept_init hs
  | step _ hst ih => exact ⟨ih.1.step hst.1 hst.2, Guarded.step ih.2 ih.1 hst.1 hst.2⟩

omit [DecidableEq W] in
/-- The caller's worker stands by while others may add timers. -/
theorem Kept.standsBy (h : Kept (some w) s) (hearly : s.sched.shared.autostop = false) :
    s.progress w = 0 := by
  have hnot : s.sched.shared.autostop ≠ true := fun hauto =>
    Bool.false_ne_true (hearly.symm.trans hauto)
  have pc : (s.sched.workers w).pc = .start := by
    by_contra hpc
    exact hnot (h.called w rfl hpc)
  rw [h.progress_eq (.inr (.inl pc))]
  by_cases hstage : s.stage w = .entered
  · rw [hstage]
    rfl
  · exact absurd (h.flags (h.asked pc hstage)) hnot

/-- Alone, the caller's worker is always in time, if the others are early. -/
theorem timely_alone (halone : ∀ v, v = w) (h : Reachable ((machine (some w)).restrict Early) s) :
    Reachable ((machine (some w)).restrict Timely) s := by
  have : Nonempty W := ⟨w⟩
  induction h with
  | init hs => exact .init hs
  | step _ hst ih =>
    rename_i s t l _
    obtain ⟨hkept, hg⟩ := guarded_of_timely ih
    obtain ⟨hst, hearly⟩ := hst
    refine ih.step ⟨hst, ?_⟩
    cases l with
    | run v =>
      intro _ hterm
      have hthree : ∀ u, 3 ≤ s.progress u := by
        intro u
        obtain rfl : u = v := (halone u).trans (halone v).symm
        rw [State.progress, progress, if_pos (.inr hterm)]
      have hnil : s.sched.shared.tasks = [] := by
        by_contra hne
        exact hg.empty hthree 2 (by omega) hne
      rw [hnil]
      rfl
    | add p =>
      cases p with
      | none => exact ⟨w, hkept.standsBy hearly⟩
      | some v => trivial
    | push p =>
      cases p with
      | none => exact hkept.stays hearly
      | some v => trivial
    | idle v | start v | other => trivial

/-- When all the workers have left `run()`, no timer, no event and no task is left behind, and no
worker has an expired callback in hand, if all steps were timely, or if the thread that calls
`stop()` is the only worker and the other threads add nothing after it. -/
theorem nothing_left_behind [Nonempty W]
    (h : Reachable ((machine caller).restrict Timely) s ∨
      (∃ w, caller = some w ∧ ∀ v, v = w) ∧ Reachable ((machine caller).restrict Early) s)
    (hleft : ∀ w, (s.sched.workers w).pc = .left) :
    s.timers.timers = [] ∧ s.waits = [] ∧ s.sched.shared.tasks = [] ∧
      ∀ w, s.stage w = .entered := by
  have htimely : Reachable ((machine caller).restrict Timely) s := by
    rcases h with h | ⟨⟨w, rfl, halone⟩, h⟩
    · exact h
    · exact timely_alone halone h
  obtain ⟨hkept, hg⟩ := guarded_of_timely htimely
  have hempty := hg.empty (n := 3) fun w => by
    rw [State.progress, progress, if_pos (.inl (hleft w))]
  refine ⟨?_, ?_, ?_, fun w => hkept.stage_eq (by simp [hleft w])⟩
  · by_contra hne
    exact hempty 0 (by omega) hne
  · by_contra hne
    exact hempty 1 (by omega) hne
  · by_contra hne
    exact hempty 2 (by omega) hne

end

/-- One worker, nothing to do, no timer made so far. -/
def fresh : State Unit where
  sched := ⟨⟨[], 0, [], [], fun _ => .init, 0, 0, 0, false, false, false⟩, fun _ => ⟨.start, false⟩⟩
  timers := ⟨fun _ => ⟨false, 0, 0, none⟩, [], 0, false⟩
  waits := []
  pending := 0
  lates := 0
  stage _ := .entered

theorem fresh_init : init fresh :=
  ⟨⟨rfl, rfl, rfl, rfl, fun _ h => (by cases h), rfl, rfl, rfl, rfl, fun _ => rfl⟩, rfl, rfl,
    fun _ => Nat.two_pow_pos 64, rfl, rfl, rfl, fun _ => rfl⟩

section
variable {caller : Option Unit} {s : State Unit}

theorem reach_run (h : Reachable ((machine caller).restrict Early) s) {sh : Shared} {wk : Worker}
    (pc : (s.sched.workers ()).pc ≠ .idle)
    (step : RunStep s.sched.shared (s.sched.workers ()) sh wk) :
    Reachable ((machine caller).restrict Early) { s with sched := s.sched.set () sh wk } :=
  h.step ⟨Step.run pc step, trivial⟩

/-- A timer that is added before `stop()` and fires on the caller's thread. -/
theorem nothing_left_behind_timer : ∃ s : State Unit,
    Reachable ((machine (some ())).restrict Early) s ∧
      s.sched.shared.taken = [0] ∧ s.timers.timers = [] := by
  have hinit : Reachable ((machine (some ())).restrict Early) fresh := .init fresh_init
  have hadded := hinit.step
    ⟨Step.addTimer none trivial 0 1 0 7 false (by simp [fresh]) rfl, rfl⟩
  have hflags := (hadded.step ⟨Step.flag .autostop rfl, trivial⟩).step
    ⟨Step.flag (.stopping rfl) rfl, trivial⟩
  have hasked := hflags.step
    ⟨Step.getNextTime (w := ()) 1 (.inr ⟨rfl, rfl, rfl⟩) rfl (by decide) rfl, trivial⟩
  have hcalled := hasked.step ⟨Step.call (w := ()) rfl rfl rfl, trivial⟩
  have hidle := reach_run (reach_run hcalled (by decide) (.pickNone rfl rfl)) (by decide)
    (.toIdle rfl rfl)
  have hloop := hidle.step
    ⟨Step.getNextTime (w := ()) 1 (.inl rfl) rfl (by decide) rfl, trivial⟩
  have hexpired := hloop.step ⟨Step.listExpiredCb (w := ()) 1 9 rfl rfl rfl, trivial⟩
  have hscheduled := hexpired.step ⟨Step.schedule (w := ()) rfl rfl rfl, trivial⟩
  have hback := reach_run (hscheduled.step ⟨Step.yields (w := ()) rfl rfl, trivial⟩) (by decide)
    (.idleBack rfl)
  have hpicked := reach_run (reach_run hback (by decide) (.pick rfl rfl)) (by decide)
    (.acceptCb rfl rfl)
  have hinside := reach_run hpicked (by decide) (.swapIn rfl)
  have hended := (hinside.step ⟨Step.task (w := ()) (.setState .term rfl), trivial⟩).step
    ⟨Step.task (w := ()) (.swapOut rfl), trivial⟩
  have hscan := reach_run (reach_run hended (by decide) (.lower rfl)) (by decide) (.ended rfl rfl)
  have hagain := reach_run (reach_run hscan (by decide) (.pickNone rfl rfl)) (by decide)
    (.toIdle rfl rfl)
  have hread := (hagain.step
    ⟨Step.getNextTime (w := ()) 1 (.inl rfl) rfl (by decide) rfl, trivial⟩).step
    ⟨Step.readPending (w := ()) (.inl rfl) rfl, trivial⟩
  have hquit := reach_run (hread.step ⟨Step.quit (w := ()) rfl rfl rfl, trivial⟩) (by decide)
    (.idleBack rfl)
  have hleft := reach_run (reach_run hquit (by decide) (.pickNone rfl rfl)) (by decide)
    (.leave rfl rfl)
  exact ⟨_, hleft, rfl, (nothing_left_behind (.inr ⟨⟨(), rfl, fun _ => rfl⟩, hleft⟩)
    fun _ => rfl).1⟩

/-- A timer that another thread adds between the reads of `stopping()` is lost, even before
`stop()` is called. -/
theorem timer_left_behind : ∃ s : State Unit, Reachable ((machine none).restrict Early) s ∧
    (∀ w, (s.sched.workers w).pc = .left) ∧ s.timers.timers = [0] := by
  have hinit : Reachable ((machine none).restrict Early) fresh := .init fresh_init
  have hentered := hinit.step ⟨Step.enter (w := ()) rfl (by simp), trivial⟩
  have hidle := reach_run (reach_run hentered (by decide) (.pickNone rfl rfl)) (by decide)
    (.toIdle rfl rfl)
  have hread := hidle.step
    ⟨Step.getNextTime (w := ()) 1 (.inl rfl) rfl (by decide) rfl, trivial⟩
  have hadded := hread.step
    ⟨Step.addTimer none trivial 0 1 1000 7 false (by simp [fresh]) rfl, rfl⟩
  have hflags := (hadded.step ⟨Step.flag .autostop rfl, trivial⟩).step
    ⟨Step.flag (.stopping rfl) rfl, trivial⟩
  have hpending := hflags.step ⟨Step.readPending (w := ()) (.inl rfl) rfl, trivial⟩
  have hquit := reach_run (hpending.step ⟨Step.quit (w := ()) rfl rfl rfl, trivial⟩) (by decide)
    (.idleBack rfl)
  have hleft := reach_run (reach_run hquit (by decide) (.pickNone rfl rfl)) (by decide)
    (.leave rfl rfl)
  exact ⟨_, hleft, fun _ => rfl, rfl⟩

end
end Quit
end TwServer
