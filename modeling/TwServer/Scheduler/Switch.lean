import TwServer.Lib.Coroutines
import TwServer.Scheduler.Exclusive

/-! The context switches of the workers: `t_fiber`, the saved contexts, and which code a thread
executes. A fiber may be saved by one worker and resumed by another. -/

namespace TwServer
open Runs Coroutines

namespace Scheduler

/-- The fibers of a scheduler by what they are for. `main` is the one without a stack that a
thread gets for itself, `scheduleFiber` runs `run()` on the caller's thread. -/
inductive Ref (W : Type) where
  | main (w : W)
  | scheduleFiber
  | idle (w : W)
  | fiber (f : FiberId)
  deriving DecidableEq

/-- The contexts, and `t_fiber` of each thread. -/
structure Threads (W : Type) where
  memory : Memory W (Ref W)
  current : W → Option (Ref W)

namespace Threads
variable {W : Type} [DecidableEq W]

/-- `t_scheduler_fiber` inside `run()`. -/
def schedulerFiber (caller : Option W) (w : W) : Ref W :=
  if caller = some w then .scheduleFiber else .main w

def setThis (t : Threads W) (w : W) (r : Ref W) : Threads W :=
  { t with current := Function.update t.current w (some r) }

def getThis (t : Threads W) (w : W) : Ref W × Threads W :=
  match t.current w with
  | some r => (r, t)
  | none => (.main w, t.setThis w (.main w))

def swapIn (caller : Option W) (t : Threads W) (w : W) (r : Ref W) : Threads W :=
  let t := t.setThis w r
  { t with memory := t.memory.swap w (schedulerFiber caller w) r }

def swapOut (caller : Option W) (t : Threads W) (w : W) (r : Ref W) : Threads W :=
  let t := t.setThis w (schedulerFiber caller w)
  { t with memory := t.memory.swap w r (schedulerFiber caller w) }

def call (t : Threads W) (w : W) (r : Ref W) : Threads W :=
  let t := t.setThis w r
  { t with memory := t.memory.swap w (.main w) r }

/-- `t_fiber` stays. -/
def back (t : Threads W) (w : W) (r : Ref W) : Threads W :=
  { t with memory := t.memory.swap w r (.main w) }

/-- The constructor. -/
def make (t : Threads W) (r : Ref W) : Threads W := { t with memory := t.memory.make r }

/-- `YieldToHold`, and the end of `ReturnScedulerFunc`. -/
def yieldToHold (caller : Option W) (t : Threads W) (w : W) : Threads W :=
  let (cur, t) := t.getThis w
  t.swapOut caller w cur

/-- `run()` up to the loop, from `stop()` on the caller's thread. -/
def enter (caller : Option W) (t : Threads W) (w : W) : Threads W :=
  if caller = some w then (t.call w .scheduleFiber).make (.idle w)
  else (t.getThis w).2.make (.idle w)

/-- What a worker does to the contexts between two places of `run()`. -/
def follow (caller : Option W) (t : Threads W) (w : W) : Pc → Pc → Threads W
  | .start, .scan => t.enter caller w
  | .picked _, .swapIn _ f true => t.make (.fiber f)
  | .swapIn _ f _, .inside _ _ => t.swapIn caller w (.fiber f)
  | .nothing, .idle => t.swapIn caller w (.idle w)
  | .inside _ _, .back _ _ => t.yieldToHold caller w
  | .idle, .idleBack => t.yieldToHold caller w
  -- `ReturnMainFunc` on the caller's thread; the function of another thread ends
  | .nothing, .left => if caller = some w then t.back w .scheduleFiber else t
  | _, _ => t

/-- Before any of them runs; the constructor has been on the caller's thread. -/
def start (caller : Option W) : Threads W where
  memory := ⟨fun w => ⟨.main w, 0⟩, fun r => ⟨r, 0⟩, fun _ => 0⟩
  current w := if caller = some w then some (.main w) else none

end Threads

structure Threaded (W : Type) where
  sched : State W
  threads : Threads W

section
variable {W : Type} [DecidableEq W]

def Threaded.after (caller : Option W) (s : Threaded W) (l : Label W) (s' : State W) : Threads W :=
  match l with
  | .run w | .task w | .enter w =>
    s.threads.follow caller w (s.sched.workers w).pc (s'.workers w).pc
  | .schedule | .stop => s.threads

/-- The careful steps, with their switches. -/
def switching (caller : Option W) : System (Threaded W) (Label W) where
  init s := init s.sched ∧ s.threads = .start caller
  step s l t := (careful caller).step s.sched l t.sched ∧ t.threads = s.after caller l t.sched

/-- The fiber whose code the thread executes at a place of `run()`. -/
def place (caller : Option W) (w : W) : Pc → Ref W
  | .start | .left => .main w
  | .inside f _ => .fiber f
  | .idle => .idle w
  | _ => Threads.schedulerFiber caller w

def runs (caller : Option W) (s : State W) (w : W) : Ref W := place caller w (s.workers w).pc

/-! ## The invariant -/

/-- `t_fiber` is right, except before `run()` on a thread that had no fiber, and after it on the
caller's thread, where `back` leaves it. -/
structure Switched (caller : Option W) (s : Threaded W) : Prop where
  proper : Proper s.threads.memory (runs caller s.sched)
  current : ∀ w, s.threads.current w = some (runs caller s.sched w) ∨
    (s.sched.workers w).pc = .start ∧ caller ≠ some w ∧ s.threads.current w = none ∨
    (s.sched.workers w).pc = .left ∧ caller = some w ∧ s.threads.current w = some .scheduleFiber
  made : ∀ f, s.sched.shared.nextFiber ≤ f → s.threads.memory.saved (.fiber f) = 0
  begun : ∀ w, (s.sched.workers w).pc = .start → s.threads.memory.saved (.idle w) = 0

variable {caller : Option W} {s : Threaded W} {w : W} {sh : Shared} {wk : Worker} {t : Threads W}

theorem runs_set : runs caller (s.sched.set w sh wk) =
    Function.update (runs caller s.sched) w (place caller w wk.pc) := by
  funext v
  by_cases hv : v = w
  · subst hv
    rw [Function.update_self, runs, State.set_self]
  · rw [Function.update_of_ne hv, runs, runs, State.set_of_ne hv]

theorem Switched.set (h : Switched caller s)
    (hproper : Proper t.memory (Function.update (runs caller s.sched) w (place caller w wk.pc)))
    (hothers : ∀ v, v ≠ w → t.current v = s.threads.current v)
    (hcurrent : t.current w = some (place caller w wk.pc) ∨
      wk.pc = .left ∧ caller = some w ∧ t.current w = some .scheduleFiber)
    (hstart : wk.pc ≠ .start)
    (hmade : ∀ f, sh.nextFiber ≤ f → t.memory.saved (.fiber f) = 0)
    (hbegun : ∀ v, v ≠ w → t.memory.saved (.idle v) = s.threads.memory.saved (.idle v)) :
    Switched caller ⟨s.sched.set w sh wk, t⟩ := by
  refine ⟨?_, fun v => ?_, hmade, fun v hv => ?_⟩
  · rw [runs_set]
    exact hproper
  · by_cases hv : v = w
    · subst hv
      rw [runs, State.set_self]
      rcases hcurrent with hsome | hleft
      · exact .inl hsome
      · exact .inr (.inr hleft)
    · rw [runs, State.set_of_ne hv]
      show t.current v = _ ∨ _ ∧ _ ∧ t.current v = _ ∨ _ ∧ _ ∧ t.current v = _
      rw [hothers v hv]
      exact h.current v
  · rcases State.set_cases (Q := fun wk => wk.pc = .start) hv with ⟨-, hpc⟩ | ⟨hne, hpc⟩
    · exact absurd hpc hstart
    · exact (hbegun v hne).trans (h.begun v hpc)

/-- A step without a switch. -/
theorem Switched.quiet (h : Switched caller s)
    (hplace : place caller w wk.pc = place caller w (s.sched.workers w).pc)
    (hnow : (s.sched.workers w).pc ≠ .start ∧ (s.sched.workers w).pc ≠ .left)
    (hpc : wk.pc ≠ .start) (hnext : s.sched.shared.nextFiber ≤ sh.nextFiber) :
    Switched caller ⟨s.sched.set w sh wk, s.threads⟩ := by
  refine h.set ?_ (fun _ _ => rfl) (.inl ?_) hpc (fun f hf => h.made f (hnext.trans hf))
    fun _ _ => rfl
  · rw [hplace]
    show Proper _ (Function.update (runs caller s.sched) w (runs caller s.sched w))
    rw [Function.update_eq_self]
    exact h.proper
  · rw [hplace]
    rcases h.current w with hsome | ⟨hstart, -⟩ | ⟨hleft, -⟩
    · exact hsome
    · exact absurd hstart hnow.1
    · exact absurd hleft hnow.2

/-- A switch from what the thread runs to what no thread runs. -/
theorem Switched.swap (h : Switched caller s) (hproper : t.memory =
      s.threads.memory.swap w (runs caller s.sched w) (place caller w wk.pc))
    (hfree : ∀ v, runs caller s.sched v ≠ place caller w wk.pc)
    (hfresh : ∀ f, runs caller s.sched w = .fiber f → f < s.sched.shared.nextFiber)
    (hothers : ∀ v, v ≠ w → t.current v = s.threads.current v)
    (hcurrent : t.current w = some (place caller w wk.pc) ∨
      wk.pc = .left ∧ caller = some w ∧ t.current w = some .scheduleFiber)
    (hstart : wk.pc ≠ .start) (hidle : ∀ v, v ≠ w → runs caller s.sched w ≠ .idle v)
    (hnext : sh.nextFiber = s.sched.shared.nextFiber) :
    Switched caller ⟨s.sched.set w sh wk, t⟩ := by
  refine h.set ?_ hothers hcurrent hstart (fun f hf => ?_) fun v hv => ?_
  · rw [hproper]
    exact h.proper.swap w hfree
  · rw [hproper, h.proper.saved_swap w fun heq => ?_]
    · exact h.made f (hnext ▸ hf)
    · exact Nat.lt_irrefl _ (lt_of_lt_of_le (hfresh f heq.symm) (hnext ▸ hf))
  · rw [hproper]
    exact h.proper.saved_swap w (hidle v hv).symm

/-! ## Who runs what -/

theorem place_cases (caller : Option W) (v : W) (pc : Pc) :
    (∃ f event, pc = .inside f event ∧ place caller v pc = .fiber f) ∨
      pc = .idle ∧ place caller v pc = .idle v ∨
      (pc = .start ∨ pc = .left ∨ caller ≠ some v) ∧ place caller v pc = .main v ∨
      caller = some v ∧ pc ≠ .start ∧ pc ≠ .left ∧ place caller v pc = .scheduleFiber := by
  have hrest : ∀ q : Ref W, q = Threads.schedulerFiber caller v →
      caller ≠ some v ∧ q = .main v ∨ caller = some v ∧ q = .scheduleFiber := by
    rintro q rfl
    by_cases hc : caller = some v
    · exact .inr ⟨hc, if_pos hc⟩
    · exact .inl ⟨hc, if_neg hc⟩
  cases pc with
  | start => exact .inr (.inr (.inl ⟨.inl rfl, rfl⟩))
  | left => exact .inr (.inr (.inl ⟨.inr (.inl rfl), rfl⟩))
  | inside f event => exact .inl ⟨f, event, rfl, rfl⟩
  | idle => exact .inr (.inl ⟨rfl, rfl⟩)
  | _ =>
    rcases hrest _ rfl with ⟨hc, hq⟩ | ⟨hc, hq⟩
    · exact .inr (.inr (.inl ⟨.inr (.inr hc), hq⟩))
    · exact .inr (.inr (.inr ⟨hc, by simp, by simp, hq⟩))

theorem owns_of_runs {v : W} {f : FiberId} (hv : runs caller s.sched v = .fiber f) :
    (s.sched.workers v).owns f := by
  rcases place_cases caller v (s.sched.workers v).pc with ⟨g, event, pc, hplace⟩ | ⟨-, hplace⟩ |
    ⟨-, hplace⟩ | ⟨-, -, -, hplace⟩
  · obtain rfl := Ref.fiber.inj (hplace.symm.trans hv)
    rw [Worker.owns, pc]
  all_goals cases hplace.symm.trans hv

theorem idle_of_runs {v u : W} (hv : runs caller s.sched v = .idle u) :
    v = u ∧ (s.sched.workers v).pc = .idle := by
  rcases place_cases caller v (s.sched.workers v).pc with ⟨g, event, -, hplace⟩ | ⟨pc, hplace⟩ |
    ⟨-, hplace⟩ | ⟨-, -, -, hplace⟩
  · cases hplace.symm.trans hv
  · exact ⟨Ref.idle.inj (hplace.symm.trans hv), pc⟩
  all_goals cases hplace.symm.trans hv

/-- Between the switches a worker runs its scheduler's fiber, and nobody else does. -/
theorem schedulerFiber_free {v : W}
    (hw : runs caller s.sched w ≠ Threads.schedulerFiber caller w)
    (hpc : (s.sched.workers w).pc ≠ .start ∧ (s.sched.workers w).pc ≠ .left) :
    runs caller s.sched v ≠ Threads.schedulerFiber caller w := by
  intro hv
  by_cases hc : caller = some w
  · rw [Threads.schedulerFiber, if_pos hc] at hv hw
    rcases place_cases caller v (s.sched.workers v).pc with ⟨g, event, -, hplace⟩ | ⟨-, hplace⟩ |
      ⟨-, hplace⟩ | ⟨hcv, -, -, -⟩
    · cases hplace.symm.trans hv
    · cases hplace.symm.trans hv
    · cases hplace.symm.trans hv
    · obtain rfl := Option.some.inj (hc.symm.trans hcv)
      exact hw hv
  · rw [Threads.schedulerFiber, if_neg hc] at hv hw
    rcases place_cases caller v (s.sched.workers v).pc with ⟨g, event, -, hplace⟩ | ⟨-, hplace⟩ |
      ⟨-, hplace⟩ | ⟨-, -, -, hplace⟩
    · cases hplace.symm.trans hv
    · cases hplace.symm.trans hv
    · obtain rfl := Ref.main.inj (hplace.symm.trans hv)
      exact hw hv
    · cases hplace.symm.trans hv

/-! ## The switches -/

theorem Switched.current_of_pc (h : Switched caller s)
    (hpc : (s.sched.workers w).pc ≠ .start ∧ (s.sched.workers w).pc ≠ .left) :
    s.threads.current w = some (runs caller s.sched w) := by
  rcases h.current w with hsome | ⟨hstart, -⟩ | ⟨hleft, -⟩
  · exact hsome
  · exact absurd hstart hpc.1
  · exact absurd hleft hpc.2

/-- From a fiber back to the scheduler's. -/
theorem Switched.yieldToHold (h : Switched caller s) (hx : Exclusive s.sched)
    (hw : (∃ f event, (s.sched.workers w).pc = .inside f event) ∨ (s.sched.workers w).pc = .idle)
    (hplace : place caller w wk.pc = Threads.schedulerFiber caller w) (hstart : wk.pc ≠ .start)
    (hnext : sh.nextFiber = s.sched.shared.nextFiber) :
    Switched caller ⟨s.sched.set w sh wk, s.threads.yieldToHold caller w⟩ := by
  have hpc : (s.sched.workers w).pc ≠ .start ∧ (s.sched.workers w).pc ≠ .left := by
    rcases hw with ⟨f, event, pc⟩ | pc
    · simp [pc]
    · simp [pc]
  have hcur := h.current_of_pc hpc
  have hyield : s.threads.yieldToHold caller w =
      s.threads.swapOut caller w (runs caller s.sched w) := by
    simp [Threads.yieldToHold, Threads.getThis, hcur]
  have hother : runs caller s.sched w ≠ Threads.schedulerFiber caller w := by
    unfold Threads.schedulerFiber
    rcases hw with ⟨f, event, pc⟩ | pc
    · simp only [runs, pc, place]
      split <;> simp
    · simp only [runs, pc, place]
      split <;> simp
  rw [hyield]
  refine h.swap ?_ (fun v => ?_) (fun f hf => ?_) (fun v hv => Function.update_of_ne hv _ _)
    (.inl ?_) hstart (fun v hv hrun => ?_) hnext
  · rw [hplace]
    rfl
  · rw [hplace]
    exact schedulerFiber_free hother hpc
  · exact hx.known f (.inr ⟨w, owns_of_runs hf⟩)
  · rw [hplace]
    exact Function.update_self _ _ _
  · exact hv (idle_of_runs hrun).1.symm

/-- From the scheduler's fiber to one that nobody runs. -/
theorem Switched.swapIn (h : Switched caller s) {r : Ref W}
    (hw : runs caller s.sched w = Threads.schedulerFiber caller w)
    (hplace : place caller w wk.pc = r) (hfree : ∀ v, runs caller s.sched v ≠ r)
    (hstart : wk.pc ≠ .start) (hnext : sh.nextFiber = s.sched.shared.nextFiber) :
    Switched caller ⟨s.sched.set w sh wk, s.threads.swapIn caller w r⟩ := by
  have hsched : (∀ f, runs caller s.sched w ≠ .fiber f) ∧ ∀ v, runs caller s.sched w ≠ .idle v := by
    rw [hw]
    unfold Threads.schedulerFiber
    split <;> simp
  refine h.swap ?_ ?_ (fun f hf => absurd hf (hsched.1 f))
    (fun v hv => Function.update_of_ne hv _ _) (.inl ?_) hstart (fun v _ => hsched.2 v) hnext
  · rw [hplace, hw]
    rfl
  · rw [hplace]
    exact hfree
  · rw [hplace]
    exact Function.update_self _ _ _

/-- A new fiber, which has not run. -/
theorem Switched.make (h : Switched caller s) {r : Ref W}
    (hr : s.threads.memory.saved r = 0) : Switched caller ⟨s.sched, s.threads.make r⟩ :=
  ⟨h.proper.make hr, h.current, h.made, h.begun⟩

theorem Switched.run (h : Switched caller s) (hx : Exclusive s.sched)
    (hstep : RunStep s.sched.shared (s.sched.workers w) sh wk) :
    Switched caller ⟨s.sched.set w sh wk,
      s.threads.follow caller w (s.sched.workers w).pc wk.pc⟩ := by
  have hnext := hstep.nextFiber
  cases hstep with
  | acceptCb pc task =>
    rw [pc]
    have hmade := h.make (h.made _ (Nat.le_refl _))
    exact hmade.quiet (by simp [pc, place]) (by simp [pc]) (by simp) (Nat.le_succ _)
  | swapIn pc =>
    rename_i e f event
    rw [pc]
    refine h.swapIn (by simp [runs, pc, place]) rfl (fun v hv => ?_) (by simp) rfl
    exact hx.free w e f event pc v (owns_of_runs hv)
  | toIdle pc alive =>
    rw [pc]
    refine h.swapIn (by simp [runs, pc, place]) rfl (fun v hv => ?_) (by simp) rfl
    obtain ⟨rfl, hidle⟩ := idle_of_runs hv
    rw [hidle] at pc
    cases pc
  | idleYields pc stop | idleEnds pc stop =>
    rw [pc]
    exact h.yieldToHold hx (.inr pc) rfl (by simp) rfl
  | leave pc term =>
    rw [pc]
    by_cases hc : caller = some w
    · have hback : s.threads.follow caller w .nothing .left = s.threads.back w .scheduleFiber :=
        if_pos hc
      have hruns : runs caller s.sched w = .scheduleFiber := by
        simp [runs, pc, place, Threads.schedulerFiber, hc]
      have hcur := h.current_of_pc (w := w) (by simp [pc])
      rw [hback]
      refine h.swap (by rw [hruns]; rfl) (fun v hv => ?_) (fun f hf => ?_) (fun _ _ => rfl)
        (.inr ⟨rfl, hc, hcur.trans (congrArg some hruns)⟩) (by simp)
        (fun v _ hv => absurd (hruns.symm.trans hv) (by simp)) rfl
      · rcases place_cases caller v (s.sched.workers v).pc with ⟨g, event, -, hplace⟩ |
          ⟨-, hplace⟩ | ⟨-, hplace⟩ | ⟨-, -, -, hplace⟩
        · cases hplace.symm.trans hv
        · cases hplace.symm.trans hv
        · obtain rfl := Ref.main.inj (hplace.symm.trans hv)
          cases hruns.symm.trans hv
        · cases hplace.symm.trans hv
      · cases hruns.symm.trans hf
    · have hstay : s.threads.follow caller w .nothing .left = s.threads := if_neg hc
      rw [hstay]
      refine h.quiet ?_ (by simp [pc]) (by simp) (Nat.le_refl _)
      simp [pc, place, Threads.schedulerFiber, hc]
  | pick pc | pickNone pc | accept pc | discard pc | lower pc | ready pc | ended pc | suspended pc
  | requeue pc | hold pc | idleBack pc =>
    rw [pc]
    exact h.quiet (by simp [pc, place]) (by simp [pc]) (by simp) hnext

theorem Switched.task (h : Switched caller s) (hx : Exclusive s.sched)
    (hstep : TaskStep s.sched.shared (s.sched.workers w) sh wk) :
    Switched caller ⟨s.sched.set w sh wk,
      s.threads.follow caller w (s.sched.workers w).pc wk.pc⟩ := by
  have hnext := hstep.nextFiber
  cases hstep with
  | schedule _ pc | setState _ pc =>
    rw [pc]
    exact h.quiet rfl (by simp [pc]) (by simp [pc]) (Nat.le_of_eq hnext.symm)
  | swapOut pc =>
    rw [pc]
    exact h.yieldToHold hx (.inl ⟨_, _, pc⟩) rfl (by simp) rfl

/-- The thread enters `run()`; on the caller's own, by `call`. -/
theorem Switched.enter (h : Switched caller s) (hpc : (s.sched.workers w).pc = .start) :
    Switched caller ⟨s.sched.set w s.sched.shared { s.sched.workers w with pc := .scan },
      s.threads.enter caller w⟩ := by
  have hruns : runs caller s.sched w = .main w := by simp [runs, hpc, place]
  have hbegun := h.begun w hpc
  unfold Threads.enter
  by_cases hc : caller = some w
  · rw [if_pos hc]
    have hplace : place caller w .scan = .scheduleFiber := if_pos hc
    have hcalled : Switched caller ⟨s.sched.set w s.sched.shared
        { s.sched.workers w with pc := .scan }, s.threads.call w .scheduleFiber⟩ := by
      refine h.swap (by rw [hruns, hplace]; rfl) (fun v hv => ?_)
        (fun f hf => absurd (hruns.symm.trans hf) (by simp)) (fun v hv => Function.update_of_ne hv _ _)
        (.inl ?_) (by simp) (fun v _ hv => absurd (hruns.symm.trans hv) (by simp)) rfl
      · rcases place_cases caller v (s.sched.workers v).pc with ⟨g, event, -, hq⟩ | ⟨-, hq⟩ |
          ⟨-, hq⟩ | ⟨hcv, hstart, -⟩
        · cases hplace.symm.trans (hv.symm.trans hq)
        · cases hplace.symm.trans (hv.symm.trans hq)
        · cases hplace.symm.trans (hv.symm.trans hq)
        · obtain rfl := Option.some.inj (hc.symm.trans hcv)
          exact hstart hpc
      · rw [hplace]
        exact Function.update_self _ _ _
    refine hcalled.make ?_
    refine (h.proper.saved_swap w ?_).trans hbegun
    rw [hruns]
    simp
  · rw [if_neg hc]
    have hcur : s.threads.current w = none ∨ s.threads.current w = some (.main w) := by
      rcases h.current w with hsome | ⟨-, -, hnone⟩ | ⟨hleft, -⟩
      · exact .inr (hsome.trans (congrArg some hruns))
      · exact .inl hnone
      · rw [hpc] at hleft
        cases hleft
    have hthis : (s.threads.getThis w).2.memory = s.threads.memory ∧
        (s.threads.getThis w).2.current = Function.update s.threads.current w (some (.main w)) := by
      rcases hcur with hnone | hsome
      · simp [Threads.getThis, hnone, Threads.setThis]
      · simp only [Threads.getThis, hsome]
        rw [← hsome, Function.update_eq_self]
        exact ⟨trivial, rfl⟩
    have hplace : place caller w .scan = .main w := if_neg hc
    have hentered : Switched caller ⟨s.sched.set w s.sched.shared
        { s.sched.workers w with pc := .scan }, (s.threads.getThis w).2⟩ := by
      refine h.set ?_ (fun v hv => ?_) (.inl ?_) (by simp) (fun f hf => ?_) fun v _ => ?_
      · rw [hthis.1, hplace, ← hruns, Function.update_eq_self]
        exact h.proper
      · rw [hthis.2]
        exact Function.update_of_ne hv _ _
      · rw [hthis.2, hplace]
        exact Function.update_self _ _ _
      · rw [hthis.1]
        exact h.made f hf
      · rw [hthis.1]
    refine hentered.make ?_
    rw [hthis.1]
    exact hbegun

/-- `stop()` has nothing left to do on the caller's thread. -/
theorem Switched.skip (h : Switched caller s) (hpc : (s.sched.workers w).pc = .start)
    (hc : caller = some w) :
    Switched caller ⟨s.sched.set w s.sched.shared { s.sched.workers w with pc := .left },
      s.threads⟩ := by
  have hruns : runs caller s.sched w = .main w := by simp [runs, hpc, place]
  refine h.set ?_ (fun _ _ => rfl) (.inl ?_) (by simp) h.made fun _ _ => rfl
  · show Proper _ (Function.update (runs caller s.sched) w (.main w))
    rw [← hruns, Function.update_eq_self]
    exact h.proper
  · rcases h.current w with hsome | ⟨-, hnot, -⟩ | ⟨hleft, -⟩
    · exact hsome.trans (congrArg some hruns)
    · exact absurd hc hnot
    · rw [hpc] at hleft
      cases hleft

theorem after_set {l : Label W} (hl : l = .run w ∨ l = .task w ∨ l = .enter w) :
    s.after caller l (s.sched.set w sh wk) =
      s.threads.follow caller w (s.sched.workers w).pc wk.pc := by
  have hpc : ((s.sched.set w sh wk).workers w).pc = wk.pc := by rw [State.set_self]
  rw [← hpc]
  rcases hl with rfl | rfl | rfl <;> rfl

theorem Switched.step (h : Switched caller s) (hx : Exclusive s.sched) {l : Label W} {s' : State W}
    (hstep : Step caller s.sched l s') : Switched caller ⟨s', s.after caller l s'⟩ := by
  cases hstep with
  | run step =>
    rw [after_set (.inl rfl)]
    exact h.run hx step
  | task step =>
    rw [after_set (.inr (.inl rfl))]
    exact h.task hx step
  | enter pc other | enterCaller pc own stopped stop =>
    rw [after_set (.inr (.inr rfl)), pc]
    exact h.enter pc
  | skipCaller pc own stop =>
    rw [after_set (.inr (.inr rfl)), pc]
    exact h.skip pc own
  | schedule t => exact ⟨h.proper, h.current, h.made, h.begun⟩
  | stop step =>
    have hnext := step.nextFiber
    exact ⟨h.proper, h.current, fun f hf => h.made f (hnext ▸ hf), h.begun⟩

theorem switched_of_reachable [Fintype W] [Nonempty W] (h : Reachable (switching caller) s) :
    Switched caller s ∧ Reachable (careful caller) s.sched := by
  induction h with
  | init hs =>
    rename_i s
    obtain ⟨hinit, hthreads⟩ := hs
    have hworkers := hinit.2.2.2.2.2.2.2.2.2
    have hruns : runs caller s.sched = Ref.main := by
      funext w
      simp [runs, hworkers w, place]
    refine ⟨⟨?_, fun w => ?_, fun _ _ => ?_, fun _ _ => ?_⟩, .init hinit⟩
    · rw [hruns, hthreads]
      exact ⟨fun v w => Ref.main.inj, fun _ => rfl, fun _ _ => rfl⟩
    · rw [hruns, hthreads]
      by_cases hc : caller = some w
      · exact .inl (if_pos hc)
      · exact .inr (.inl ⟨by simp [hworkers w], hc, if_neg hc⟩)
    · rw [hthreads]
      rfl
    · rw [hthreads]
      rfl
  | step _ hst ih =>
    obtain ⟨hs, hreach⟩ := ih
    have hx := exclusive_of_reachable hreach
    obtain ⟨⟨hstep, hcareful⟩, hthreads⟩ := hst
    rename_i s t l _
    refine ⟨?_, hreach.step ⟨hstep, hcareful⟩⟩
    obtain ⟨sched, threads⟩ := t
    obtain rfl : threads = s.after caller l sched := hthreads
    exact hs.step hx hstep

/-- In every state that careful workers reach, a thread executes the fiber of its place in
`run()` and no other thread does, from where that fiber was suspended last, whoever suspended it;
the fibers that no thread executes have that point in their contexts. `t_fiber` is the executed
fiber, but not on the caller's thread after `stop()` has run `run()` there. -/
theorem resumed_where_suspended [Fintype W] [Nonempty W] (h : Reachable (switching caller) s) :
    Function.Injective (runs caller s.sched) ∧
      (∀ w, s.threads.memory.cpu w =
        ⟨runs caller s.sched w, s.threads.memory.saved (runs caller s.sched w)⟩) ∧
      (∀ r, (∀ w, runs caller s.sched w ≠ r) →
        s.threads.memory.context r = ⟨r, s.threads.memory.saved r⟩) ∧
      ∀ w, (s.sched.workers w).pc ≠ .start →
        s.threads.current w = some (runs caller s.sched w) ∨
          (s.sched.workers w).pc = .left ∧ caller = some w ∧
            s.threads.current w = some .scheduleFiber := by
  obtain ⟨hs, -⟩ := switched_of_reachable h
  refine ⟨hs.proper.alone, hs.proper.running, hs.proper.waiting, fun w hw => ?_⟩
  rcases hs.current w with hsome | ⟨hstart, -⟩ | hleft
  · exact .inl hsome
  · exact absurd hstart hw
  · exact .inr hleft

end

/-- A fiber that one worker suspends and the other one resumes. -/
theorem resumed_elsewhere : ∃ s : Threaded Bool, Reachable (switching none) s ∧
    (s.sched.workers false).pc = .inside 0 false ∧ s.threads.memory.saved (.fiber 0) = 1 ∧
    s.threads.memory.cpu false = ⟨.fiber 0, s.threads.memory.saved (.fiber 0)⟩ := by
  have hrun : ∀ {s : Threaded Bool} {sh : Shared} {wk : Worker} (w : Bool),
      Reachable (switching none) s → RunStep s.sched.shared (s.sched.workers w) sh wk →
        Reachable (switching none)
          ⟨s.sched.set w sh wk, s.after none (.run w) (s.sched.set w sh wk)⟩ :=
    fun w hs hstep =>
      hs.step (l := .run w) ⟨⟨Step.run hstep, careful_run (.inl ⟨_, rfl⟩)⟩, rfl⟩
  have henter : ∀ {s : Threaded Bool} (w : Bool), Reachable (switching none) s →
      (s.sched.workers w).pc = .start → Reachable (switching none)
        ⟨s.sched.set w s.sched.shared { s.sched.workers w with pc := .scan },
          s.after none (.enter w)
            (s.sched.set w s.sched.shared { s.sched.workers w with pc := .scan })⟩ :=
    fun w hs hpc =>
      hs.step (l := .enter w) ⟨⟨Step.enter hpc (by simp), careful_run (.inr ⟨_, rfl⟩)⟩, rfl⟩
  have hschedule : ∀ {s : Threaded Bool}, Reachable (switching none) s →
      s.sched.Unscheduled 0 → Reachable (switching none)
        ⟨{ s.sched with shared := s.sched.shared.push (.fiber 0) }, s.threads⟩ :=
    fun hs hfree =>
      hs.step (l := .schedule) ⟨⟨Step.schedule (.fiber 0), careful_schedule hfree⟩, rfl⟩
  have hout : ∀ {s : Threaded Bool} {f : FiberId} {event : Bool} (w : Bool),
      Reachable (switching none) s → (s.sched.workers w).pc = .inside f event →
        Reachable (switching none)
          ⟨s.sched.set w s.sched.shared { s.sched.workers w with pc := .back f event },
            s.after none (.task w)
              (s.sched.set w s.sched.shared { s.sched.workers w with pc := .back f event })⟩ :=
    fun w hs hpc => hs.step (l := .task w) ⟨⟨Step.task (TaskStep.swapOut hpc),
      fun _ _ f hf => absurd rfl hf, fun _ e he hnot => absurd he hnot⟩, rfl⟩
  have hinit : Reachable (switching none) ⟨fresh, .start none⟩ := .init ⟨fresh_init, rfl⟩
  have hentered := henter true (hschedule hinit fresh_unscheduled) rfl
  have haccepted := hrun true (hrun true hentered (RunStep.pick rfl rfl))
    (RunStep.accept rfl rfl rfl)
  have hinside := hrun true haccepted (RunStep.swapIn rfl)
  have hready : FiberState.exec ≠ .ready := by decide
  have hback := hrun true (hrun true (hout true hinside rfl) (RunStep.lower rfl))
    (RunStep.suspended rfl rfl fun _ => hready)
  have hagain := hschedule (hrun true hback (RunStep.hold rfl)) ⟨Nat.zero_lt_one, fun p hp => by
    cases p with
    | queue i => cases hp
    | hand v =>
      cases v with
      | true => exact hp
      | false => exact hp⟩
  have hother := hrun false (hrun false (henter false hagain rfl) (RunStep.pick rfl rfl))
    (RunStep.accept rfl rfl rfl)
  have hresumed := hrun false hother (RunStep.swapIn rfl)
  exact ⟨_, hresumed, rfl, rfl, (resumed_where_suspended hresumed).2.1 false⟩

end Scheduler
end TwServer
