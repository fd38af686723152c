import TwServer.Lib.Tokens
import TwServer.Scheduler.Shutdown

/-! No fiber is run by two workers. The scan passes over a fiber in state EXEC, and that state
stays until the fiber's context is saved; it does not keep two workers from dequeuing one fiber
each, when it was scheduled twice. -/

namespace TwServer
open Runs Tokens

namespace Scheduler

/-- Where a wake-up of a fiber is on its way. -/
inductive Place (W : Type) where
  | queue (id : Nat)
  | hand (w : W)

/-- The worker has dequeued the fiber, or made it, and not switched to it. -/
def Worker.wakes (wk : Worker) (f : FiberId) : Prop :=
  match wk.pc with
  | .picked e => e.task = .fiber f
  | .swapIn _ g _ => g = f
  | _ => False

namespace State
variable {W : Type}

def At (s : State W) : Place W → FiberId → Prop
  | .queue i, f => ⟨i, .fiber f⟩ ∈ s.shared.tasks
  | .hand w, f => (s.workers w).wakes f

/-- Nobody has scheduled `f` since it was switched to last. -/
def Unscheduled (s : State W) (f : FiberId) : Prop := f < s.shared.nextFiber ∧ ∀ p, ¬ s.At p f

end State

/-- What the users of fibers keep to: a task changes no state but its own fiber's, when it ends,
and nobody schedules a fiber that is scheduled already. -/
structure Careful {W : Type} (s : State W) (l : Label W) (s' : State W) : Prop where
  ends : ∀ w, l = .task w → ∀ f, s'.shared.fibers f ≠ s.shared.fibers f →
    (s'.shared.fibers f).isDone = true
  wakes : l = .schedule ∨ (∃ w, l = .task w) → ∀ e ∈ s'.shared.tasks, e ∉ s.shared.tasks →
    ∀ f, e.task = .fiber f → s.Unscheduled f

def careful {W : Type} [DecidableEq W] (caller : Option W) : System (State W) (Label W) where
  init := init
  step s l s' := Step caller s l s' ∧ Careful s l s'

/-- The code of `run()` is careful. -/
theorem careful_run {W : Type} {s s' : State W} {l : Label W}
    (hl : (∃ w, l = .run w) ∨ ∃ w, l = .enter w) : Careful s l s' := by
  constructor
  · rintro w rfl
    simp at hl
  · rintro (rfl | ⟨w, rfl⟩)
    · simp at hl
    · simp at hl

/-! ## What one worker's step does -/

section Steps
variable {s s' : Shared} {wk wk' : Worker} {f : FiberId}

theorem RunStep.owns (h : RunStep s wk s' wk') (hown : wk'.owns f) :
    wk.owns f ∨ ∃ e event, wk.pc = .swapIn e f event := by
  cases h with
  | swapIn pc =>
    obtain rfl : _ = f := hown
    exact .inr ⟨_, _, pc⟩
  | lower pc | suspended pc => exact .inl (by simpa [Worker.owns, pc] using hown)
  | _ => exact absurd hown (by simp_all [Worker.owns])

theorem TaskStep.owns (h : TaskStep s wk s' wk') : wk'.owns f ↔ wk.owns f := by
  cases h with
  | schedule t pc | setState st pc => rfl
  | swapOut pc => simp [Worker.owns, pc]

/-- The states of the fibers change with a switch, with HOLD and with a new fiber. -/
theorem RunStep.fibers (h : RunStep s wk s' wk') (f : FiberId) :
    s'.fibers f = s.fibers f ∨ s'.fibers f = .exec ∧ (∃ e event, wk.pc = .swapIn e f event) ∨
      s'.fibers f = .hold ∧ wk.pc = .hold f ∨ s'.fibers f = .init ∧ f = s.nextFiber := by
  have hset : ∀ (g : FiberId) (st : FiberState), (s.setState g st).fibers f = s.fibers f ∨
      f = g ∧ (s.setState g st).fibers f = st := by
    intro g st
    by_cases hg : f = g
    · subst hg
      exact .inr ⟨rfl, Shared.setState_self s f st⟩
    · exact .inl (Shared.setState_of_ne hg)
  cases h with
  | acceptCb pc task =>
    rcases hset s.nextFiber .init with hsame | ⟨rfl, hinit⟩
    · exact .inl hsame
    · exact .inr (.inr (.inr ⟨hinit, rfl⟩))
  | swapIn pc =>
    rename_i e g event
    rcases hset g .exec with hsame | ⟨rfl, hexec⟩
    · exact .inl hsame
    · exact .inr (.inl ⟨hexec, e, event, pc⟩)
  | hold pc =>
    rename_i g
    rcases hset g .hold with hsame | ⟨rfl, hhold⟩
    · exact .inl hsame
    · exact .inr (.inr (.inl ⟨hhold, pc⟩))
  | _ => exact .inl rfl

theorem TaskStep.fibers (h : TaskStep s wk s' wk') (hne : s'.fibers f ≠ s.fibers f) :
    ∃ event, wk.pc = .inside f event := by
  cases h with
  | setState st pc =>
    rename_i g event
    by_cases hg : f = g
    · subst hg
      exact ⟨event, pc⟩
    · exact absurd (Shared.setState_of_ne hg) hne
  | schedule t pc | swapOut pc => exact absurd rfl hne

theorem RunStep.nextFiber (h : RunStep s wk s' wk') : s.nextFiber ≤ s'.nextFiber := by
  cases h with
  | acceptCb pc task => exact Nat.le_succ _
  | _ => exact Nat.le_refl _

theorem TaskStep.nextFiber (h : TaskStep s wk s' wk') : s'.nextFiber = s.nextFiber := by
  cases h <;> rfl

theorem StopStep.nextFiber (h : StopStep s s') : s'.nextFiber = s.nextFiber := by
  cases h <;> rfl

end Steps

/-! ## The invariant -/

structure Exclusive {W : Type} (s : State W) : Prop where
  wakes : Unique s.At
  runs : Unique fun w f => (s.workers w).owns f
  running : ∀ w f, (s.workers w).owns f →
    s.shared.fibers f = .exec ∨ (s.shared.fibers f).isDone = true
  held : ∀ w f, (s.workers w).pc = .hold f → s.shared.fibers f = .exec
  picked : ∀ w e f, (s.workers w).pc = .picked e → e.task = .fiber f → s.shared.fibers f ≠ .exec
  free : ∀ w e f event, (s.workers w).pc = .swapIn e f event → ∀ v, ¬(s.workers v).owns f
  known : ∀ f, (∃ p, s.At p f) ∨ (∃ w, (s.workers w).owns f) → f < s.shared.nextFiber
  unready : ∀ w f, (s.workers w).pc ≠ .requeue f

section System
variable {W : Type} [DecidableEq W] {s : State W} {w : W} {sh : Shared} {wk : Worker}

theorem at_hand {v : W} {f : FiberId} (h : (s.set w sh wk).At (.hand v) f) :
    v = w ∧ wk.wakes f ∨ v ≠ w ∧ s.At (.hand v) f :=
  State.set_cases (Q := fun wk => wk.wakes f) h

/-- Wake-ups that a step does not touch. -/
theorem at_of_step (htasks : ∀ e ∈ sh.tasks, e ∈ s.shared.tasks)
    (hhand : ∀ f, wk.wakes f → (s.workers w).wakes f) {p : Place W} {f : FiberId}
    (h : (s.set w sh wk).At p f) : s.At p f := by
  cases p with
  | queue i => exact htasks _ h
  | hand v =>
    rcases at_hand h with ⟨rfl, hwk⟩ | ⟨-, hat⟩
    · exact hhand f hwk
    · exact hat

/-- A wake-up that goes from the queue into the hands of the worker. -/
theorem at_of_pick {e : Entry} {rest : List Entry} (hnumbered : s.shared.Numbered)
    (found : s.shared.scan s.shared.tasks = some (e, rest)) (p : Place W) (f : FiberId)
    (h : (s.set w (s.shared.take e rest) { s.workers w with pc := .picked e }).At p f) :
    p = .hand w ∧ e.task = .fiber f ∨ p ≠ .queue e.id ∧ s.At p f := by
  obtain ⟨-, pre, post, hl, rfl, -⟩ := Shared.scan_some found
  cases p with
  | queue i =>
    have hmem : (⟨i, .fiber f⟩ : Entry) ∈ pre ++ post := h
    refine .inr ⟨?_, ?_⟩
    · intro hi
      obtain rfl : i = e.id := Place.queue.inj hi
      have hnodup : (pre.map Entry.id ++ e.id :: post.map Entry.id).Nodup := by
        have hsorted := hnumbered.sorted
        rw [Shared.ids, hl, List.map_append, List.map_cons] at hsorted
        exact hsorted.imp Nat.ne_of_lt
      have hin : e.id ∈ pre.map Entry.id ++ post.map Entry.id := by
        rw [← List.map_append]
        exact List.mem_map.mpr ⟨_, hmem, rfl⟩
      exact (List.nodup_middle.mp hnodup).notMem hin
    · show (⟨i, .fiber f⟩ : Entry) ∈ s.shared.tasks
      rw [hl]
      rcases List.mem_append.mp hmem with hpre | hpost
      · exact List.mem_append_left _ hpre
      · exact List.mem_append_right _ (List.mem_cons_of_mem _ hpost)
  | hand v =>
    rcases at_hand h with ⟨rfl, hwk⟩ | ⟨-, hat⟩
    · exact .inl ⟨rfl, hwk⟩
    · exact .inr ⟨by simp, hat⟩

/-- A step that changes states only as the lemmas above say. -/
theorem Exclusive.set (h : Exclusive s) (hwakes : Unique (s.set w sh wk).At)
    (hknown : ∀ p f, (s.set w sh wk).At p f → f < sh.nextFiber)
    (hnext : s.shared.nextFiber ≤ sh.nextFiber)
    (hfibers : ∀ f, sh.fibers f = s.shared.fibers f ∨
      sh.fibers f = .exec ∧ (∃ e event, (s.workers w).pc = .swapIn e f event) ∨
      sh.fibers f ≠ .exec ∧ ((s.workers w).owns f ∨ f = s.shared.nextFiber))
    (hown : ∀ f, wk.owns f → (s.workers w).owns f ∨ ∃ e event, (s.workers w).pc = .swapIn e f event)
    (hrunning : ∀ f, wk.owns f → sh.fibers f = .exec ∨ (sh.fibers f).isDone = true)
    (hheld : ∀ f, wk.pc = .hold f → sh.fibers f = .exec)
    (hpicked : ∀ e f, wk.pc = .picked e → e.task = .fiber f → sh.fibers f ≠ .exec)
    (hfree : ∀ e f event, wk.pc = .swapIn e f event → ∀ v, ¬(s.workers v).owns f)
    (hunready : ∀ f, wk.pc ≠ .requeue f) : Exclusive (s.set w sh wk) := by
  have hswap : ∀ {v e f event}, (s.workers v).pc = .swapIn e f event → s.At (.hand v) f := by
    intro v e f event pc
    simp [State.At, Worker.wakes, pc]
  -- what another worker runs keeps its state
  have hothers : ∀ v f, v ≠ w → (s.workers v).owns f → sh.fibers f = s.shared.fibers f := by
    intro v f hv hown
    rcases hfibers f with hsame | ⟨-, e, event, pc⟩ | ⟨-, hw | rfl⟩
    · exact hsame
    · exact absurd hown (h.free w e f event pc v)
    · exact absurd (h.runs v w f hown hw) hv
    · exact absurd (h.known _ (.inr ⟨v, hown⟩)) (Nat.lt_irrefl _)
  have howner : ∀ v f, v ≠ w → (s.workers v).owns f → ¬wk.owns f := by
    intro v f hv hold hwk
    rcases hown f hwk with hw | ⟨e, event, pc⟩
    · exact hv (h.runs v w f hold hw)
    · exact h.free w e f event pc v hold
  refine ⟨hwakes, ?_, ?_, ?_, ?_, ?_, ?_, ?_⟩
  · intro v u f hv hu
    rcases State.set_cases (Q := fun wk => wk.owns f) hv with ⟨hvw, hv'⟩ | ⟨hvw, hv'⟩
    · rcases State.set_cases (Q := fun wk => wk.owns f) hu with ⟨huw, -⟩ | ⟨huw, hu'⟩
      · rw [hvw, huw]
      · exact absurd hv' (howner u f huw hu')
    · rcases State.set_cases (Q := fun wk => wk.owns f) hu with ⟨-, hu'⟩ | ⟨-, hu'⟩
      · exact absurd hu' (howner v f hvw hv')
      · exact h.runs v u f hv' hu'
  · intro v f hv
    rcases State.set_cases (Q := fun wk => wk.owns f) hv with ⟨-, hv'⟩ | ⟨hvw, hv'⟩
    · exact hrunning f hv'
    · have hrun := h.running v f hv'
      rwa [← hothers v f hvw hv'] at hrun
  · intro v f hv
    rcases State.set_cases (Q := fun wk => wk.pc = .hold f) hv with ⟨-, hv'⟩ | ⟨hvw, hv'⟩
    · exact hheld f hv'
    · exact (hothers v f hvw (by simp [Worker.owns, hv'])).trans (h.held v f hv')
  · intro v e f hv htask
    rcases State.set_cases (Q := fun wk => wk.pc = .picked e) hv with ⟨-, hv'⟩ | ⟨hvw, hv'⟩
    · exact hpicked e f hv' htask
    · rcases hfibers f with hsame | ⟨-, e', event, pc⟩ | ⟨hexec, -⟩
      · exact fun hexec => h.picked v e f hv' htask (hsame.symm.trans hexec)
      · have hhand : s.At (.hand v) f := by simpa [State.At, Worker.wakes, hv'] using htask
        exact absurd (Place.hand.inj (h.wakes _ _ f hhand (hswap pc))) hvw
      · exact hexec
  · intro v e f event hv u hu
    rcases State.set_cases (Q := fun wk => wk.pc = .swapIn e f event) hv with ⟨-, hv'⟩ | ⟨hvw, hv'⟩
    · rcases State.set_cases (Q := fun wk => wk.owns f) hu with ⟨-, hu'⟩ | ⟨-, hu'⟩
      · simp [Worker.owns, hv'] at hu'
      · exact hfree e f event hv' u hu'
    · rcases State.set_cases (Q := fun wk => wk.owns f) hu with ⟨-, hu'⟩ | ⟨-, hu'⟩
      · rcases hown f hu' with hw | ⟨e', event', pc⟩
        · exact h.free v e f event hv' _ hw
        · exact hvw (Place.hand.inj (h.wakes _ _ f (hswap hv') (hswap pc)))
      · exact h.free v e f event hv' u hu'
  · rintro f (⟨p, hp⟩ | ⟨v, hv⟩)
    · exact hknown p f hp
    · refine lt_of_lt_of_le ?_ hnext
      rcases State.set_cases (Q := fun wk => wk.owns f) hv with ⟨-, hv'⟩ | ⟨-, hv'⟩
      · rcases hown f hv' with hw | ⟨e, event, pc⟩
        · exact h.known f (.inr ⟨_, hw⟩)
        · exact h.known f (.inl ⟨_, hswap pc⟩)
      · exact h.known f (.inr ⟨v, hv'⟩)
  · intro v f hv
    rcases State.set_cases (Q := fun wk => wk.pc = .requeue f) hv with ⟨-, hv'⟩ | ⟨-, hv'⟩
    · exact hunready f hv'
    · exact h.unready v f hv'

/-- Where a worker's wake-ups are after a step of its own. -/
theorem Exclusive.wakes_run (h : Exclusive s) (hnumbered : s.shared.Numbered)
    (hstep : RunStep s.shared (s.workers w) sh wk) :
    Unique (s.set w sh wk).At ∧ ∀ p f, (s.set w sh wk).At p f → f < sh.nextFiber := by
  have hkeep : (∀ e ∈ sh.tasks, e ∈ s.shared.tasks) → (∀ f, wk.wakes f → (s.workers w).wakes f) →
      Unique (s.set w sh wk).At ∧ ∀ p f, (s.set w sh wk).At p f → f < sh.nextFiber :=
    fun htasks hhand => ⟨h.wakes.mono fun p f => at_of_step htasks hhand, fun p f hp =>
      lt_of_lt_of_le (h.known f (.inl ⟨p, at_of_step htasks hhand hp⟩)) hstep.nextFiber⟩
  cases hstep with
  | pick pc found =>
    rename_i e rest
    have hpick := at_of_pick (w := w) hnumbered found
    have hmem : e ∈ s.shared.tasks := by
      obtain ⟨-, pre, post, hl, -, -⟩ := Shared.scan_some found
      simp [hl]
    have hfrom : ∀ f, e.task = .fiber f → s.At (.queue e.id) f := by
      intro f htask
      show (⟨e.id, .fiber f⟩ : Entry) ∈ s.shared.tasks
      rw [← htask]
      exact hmem
    constructor
    · cases htask : e.task with
      | fiber f =>
        refine h.wakes.move (q := .hand w) (hfrom f htask) fun p g hp => ?_
        rcases hpick p _ hp with ⟨rfl, hg⟩ | hat
        · exact .inl ⟨rfl, Task.fiber.inj (hg.symm.trans htask)⟩
        · exact .inr hat
      | cb c =>
        refine h.wakes.mono fun p g hp => ?_
        rcases hpick p _ hp with ⟨-, hg⟩ | ⟨-, hat⟩
        · cases htask.symm.trans hg
        · exact hat
    · intro p f hp
      rcases hpick p _ hp with ⟨-, hf⟩ | ⟨-, hat⟩
      · exact h.known f (.inl ⟨_, hfrom f hf⟩)
      · exact h.known f (.inl ⟨p, hat⟩)
  | acceptCb pc task =>
    rename_i e c
    have hat : ∀ p f, (s.set w s.shared.newFiber
        { s.workers w with pc := .swapIn e s.shared.nextFiber true }).At p f →
        p = .hand w ∧ f = s.shared.nextFiber ∨ s.At p f := by
      intro p f hp
      cases p with
      | queue i => exact .inr hp
      | hand v =>
        rcases at_hand hp with ⟨rfl, hwk⟩ | ⟨-, hat⟩
        · exact .inl ⟨rfl, hwk.symm⟩
        · exact .inr hat
    constructor
    · refine h.wakes.create (fun p hp => ?_) hat
      exact Nat.lt_irrefl _ (h.known _ (.inl ⟨p, hp⟩))
    · intro p f hp
      rcases hat p f hp with ⟨-, rfl⟩ | hold
      · exact Nat.lt_succ_self _
      · exact Nat.lt_succ_of_lt (h.known f (.inl ⟨p, hold⟩))
  | accept pc task open' =>
    refine hkeep (fun _ he => he) fun f hf => ?_
    simp only [Worker.wakes] at hf
    simp [Worker.wakes, pc, task, hf]
  | requeue pc => exact absurd pc (h.unready w _)
  | _ => exact hkeep (fun _ he => he) fun f hf => absurd hf (by simp_all [Worker.wakes])

theorem Exclusive.run (h : Exclusive s) (hnumbered : s.shared.Numbered)
    (hstep : RunStep s.shared (s.workers w) sh wk) : Exclusive (s.set w sh wk) := by
  obtain ⟨hwakes, hknown⟩ := h.wakes_run hnumbered hstep
  refine h.set hwakes hknown hstep.nextFiber (fun f => ?_) (fun f => hstep.owns) ?_ ?_ ?_ ?_ ?_
  · rcases hstep.fibers f with hsame | hexec | ⟨hhold, pc⟩ | ⟨hinit, hf⟩
    · exact .inl hsame
    · exact .inr (.inl hexec)
    · exact .inr (.inr ⟨by simp [hhold], .inl (by simp [Worker.owns, pc])⟩)
    · exact .inr (.inr ⟨by simp [hinit], .inr hf⟩)
  · intro f hf
    cases hstep with
    | swapIn pc =>
      obtain rfl : _ = f := hf
      exact .inl (Shared.setState_self _ _ _)
    | lower pc | suspended pc => exact h.running w f (by simpa [Worker.owns, pc] using hf)
    | _ => exact absurd hf (by simp_all [Worker.owns])
  · intro f hf
    cases hstep with
    | suspended pc open' other =>
      rename_i g event
      obtain rfl : g = f := Pc.hold.inj hf
      rcases h.running w g (by rw [Worker.owns, pc]) with hexec | hdone
      · exact hexec
      · exact absurd (open'.symm.trans hdone) Bool.false_ne_true
    | _ => simp_all
  · intro e f he htask
    cases hstep with
    | pick pc found =>
      obtain rfl := Pc.picked.inj he
      intro hexec
      have hskips := Shared.skips_iff.mpr ⟨f, htask, hexec⟩
      exact Bool.false_ne_true ((Shared.scan_some found).1.symm.trans hskips)
    | _ => simp_all
  · intro e f event he v hv
    cases hstep with
    | accept pc task open' =>
      obtain ⟨rfl, rfl, -⟩ := Pc.swapIn.inj he
      rcases h.running v _ hv with hexec | hdone
      · exact h.picked w _ _ pc task hexec
      · exact Bool.false_ne_true (open'.symm.trans hdone)
    | acceptCb pc task =>
      obtain ⟨-, rfl, -⟩ := Pc.swapIn.inj he
      exact Nat.lt_irrefl _ (h.known _ (.inr ⟨v, hv⟩))
    | _ => simp_all
  · intro f hf
    cases hstep with
    | ready pc state =>
      rcases h.running w _ (by rw [Worker.owns, pc]) with hexec | hdone
      · cases state.symm.trans hexec
      · rw [state] at hdone
        cases hdone
    | _ => simp_all

omit [DecidableEq W] in
/-- An entry that is pushed for a fiber that nobody has scheduled. -/
theorem wakes_push (h : Exclusive s) {t : Task} {workers : W → Worker}
    (hworkers : ∀ v f, (workers v).wakes f → (s.workers v).wakes f)
    (hfresh : ∀ f, t = .fiber f → s.Unscheduled f) :
    Unique (State.mk (s.shared.push t) workers).At ∧
      ∀ p f, (State.mk (s.shared.push t) workers).At p f → f < s.shared.nextFiber := by
  have hat : ∀ p f, (State.mk (s.shared.push t) workers).At p f →
      p = .queue s.shared.pushed ∧ t = .fiber f ∨ s.At p f := by
    intro p f hp
    cases p with
    | queue i =>
      rcases List.mem_append.mp (show _ ∈ s.shared.tasks ++ [_] from hp) with hold | hnew
      · exact .inr hold
      · obtain ⟨rfl, rfl⟩ := Entry.mk.inj (List.mem_singleton.mp hnew)
        exact .inl ⟨rfl, rfl⟩
    | hand v => exact .inr (hworkers v f hp)
  constructor
  · cases t with
    | fiber g =>
      refine h.wakes.create (q := .queue s.shared.pushed) (hfresh g rfl).2 fun p f hp => ?_
      rcases hat p f hp with ⟨rfl, htask⟩ | hold
      · exact .inl ⟨rfl, (Task.fiber.inj htask).symm⟩
      · exact .inr hold
    | cb c =>
      refine h.wakes.mono fun p f hp => ?_
      rcases hat p f hp with ⟨-, htask⟩ | hold
      · cases htask
      · exact hold
  · intro p f hp
    rcases hat p f hp with ⟨-, htask⟩ | hold
    · exact (hfresh f htask).1
    · exact h.known f (.inl ⟨p, hold⟩)

omit [DecidableEq W] in
/-- The entry is new, as its number is. -/
theorem Careful.pushed {s' : State W} {l : Label W} (hnumbered : s.shared.Numbered)
    (hcareful : Careful s l s') (hl : l = .schedule ∨ ∃ w, l = .task w) {t : Task}
    (hpush : s'.shared = s.shared.push t) {f : FiberId} (ht : t = .fiber f) : s.Unscheduled f := by
  subst ht
  refine hcareful.wakes hl ⟨s.shared.pushed, .fiber f⟩ ?_ ?_ f rfl
  · rw [hpush]
    exact List.mem_append_right _ List.mem_cons_self
  · intro hmem
    exact Nat.lt_irrefl _ (hnumbered.mem_lt (List.mem_map.mpr ⟨_, hmem, rfl⟩))

theorem Exclusive.task (h : Exclusive s) (hnumbered : s.shared.Numbered)
    (hstep : TaskStep s.shared (s.workers w) sh wk)
    (hcareful : Careful s (.task w) (s.set w sh wk)) : Exclusive (s.set w sh wk) := by
  have hwakes : ∀ f, wk.wakes f → (s.workers w).wakes f := by
    intro f hf
    cases hstep with
    | schedule t pc | setState st pc => exact hf
    | swapOut pc => exact absurd hf (by simp [Worker.wakes])
  have hinside : (∀ e, wk.pc ≠ .scan ∧ wk.pc ≠ .picked e) ∧
      (∀ e f event, wk.pc ≠ .swapIn e f event) ∧ ∀ f, wk.pc ≠ .hold f ∧ wk.pc ≠ .requeue f := by
    cases hstep with
    | schedule t pc | setState st pc | swapOut pc => simp_all
  have hat : Unique (s.set w sh wk).At ∧ ∀ p f, (s.set w sh wk).At p f → f < sh.nextFiber := by
    have hkeep : (∀ e ∈ sh.tasks, e ∈ s.shared.tasks) →
        Unique (s.set w sh wk).At ∧ ∀ p f, (s.set w sh wk).At p f → f < sh.nextFiber :=
      fun htasks => ⟨h.wakes.mono fun p f => at_of_step htasks hwakes, fun p f hp =>
        hstep.nextFiber ▸ h.known f (.inl ⟨p, at_of_step htasks hwakes hp⟩)⟩
    cases hstep with
    | schedule t pc =>
      refine wakes_push h (fun v f hv => ?_) fun f hf =>
        hcareful.pushed hnumbered (.inr ⟨w, rfl⟩) rfl hf
      rwa [Function.update_eq_self] at hv
    | setState st pc | swapOut pc => exact hkeep fun _ he => he
  have hdone : ∀ f, sh.fibers f = s.shared.fibers f ∨
      (sh.fibers f).isDone = true ∧ (s.workers w).owns f := by
    intro f
    by_cases hsame : sh.fibers f = s.shared.fibers f
    · exact .inl hsame
    · obtain ⟨event, pc⟩ := hstep.fibers hsame
      exact .inr ⟨hcareful.ends w rfl f hsame, by simp [Worker.owns, pc]⟩
  refine h.set hat.1 hat.2 (Nat.le_of_eq hstep.nextFiber.symm) (fun f => ?_)
    (fun f hf => .inl (hstep.owns.mp hf)) (fun f hf => ?_) (fun f hf => absurd hf (hinside.2.2 f).1)
    (fun e f he => absurd he (hinside.1 e).2) (fun e f event he => absurd he (hinside.2.1 e f event))
    fun f => (hinside.2.2 f).2
  · rcases hdone f with hsame | ⟨hend, hown⟩
    · exact .inl hsame
    · refine .inr (.inr ⟨?_, .inl hown⟩)
      intro hexec
      rw [hexec] at hend
      cases hend
  · rcases hdone f with hsame | ⟨hend, -⟩
    · rw [hsame]
      exact h.running w f (hstep.owns.mp hf)
    · exact .inr hend

theorem Exclusive.enter (h : Exclusive s) {pc : Pc} (hto : pc = .scan ∨ pc = .left) :
    Exclusive (s.set w s.shared { s.workers w with pc := pc }) := by
  have hat : ∀ p f, (s.set w s.shared { s.workers w with pc := pc }).At p f → s.At p f := by
    intro p f
    refine at_of_step (fun _ he => he) fun f hf => ?_
    rcases hto with rfl | rfl <;> exact absurd hf (by simp [Worker.wakes])
  refine h.set (h.wakes.mono hat) (fun p f hp => h.known f (.inl ⟨p, hat p f hp⟩)) (Nat.le_refl _)
    (fun f => .inl rfl) ?_ ?_ ?_ ?_ ?_ ?_
  all_goals rcases hto with rfl | rfl <;> simp [Worker.owns]

omit [DecidableEq W] in
theorem Exclusive.schedule (h : Exclusive s) (hnumbered : s.shared.Numbered) {t : Task}
    (hcareful : Careful s .schedule { s with shared := s.shared.push t }) :
    Exclusive { s with shared := s.shared.push t } := by
  obtain ⟨hwakes, hknown⟩ := wakes_push h (t := t) (fun _ _ hv => hv) fun f hf =>
    hcareful.pushed hnumbered (.inl rfl) rfl hf
  refine ⟨hwakes, h.runs, h.running, h.held, h.picked, h.free, ?_, h.unready⟩
  rintro f (⟨p, hp⟩ | hown)
  · exact hknown p f hp
  · exact h.known f (.inr hown)

omit [DecidableEq W] in
theorem Exclusive.stop (h : Exclusive s) (hstep : StopStep s.shared sh) :
    Exclusive { s with shared := sh } := by
  cases hstep with
  | autostop | stopping auto | busy b =>
    have hat : ∀ p f, State.At { s with shared := _ } p f → s.At p f := fun p f hp => by
      cases p with
      | queue i => exact hp
      | hand v => exact hp
    refine ⟨h.wakes.mono hat, h.runs, h.running, h.held, h.picked, h.free, ?_, h.unready⟩
    rintro f (⟨p, hp⟩ | hown)
    · exact h.known f (.inl ⟨p, hat p f hp⟩)
    · exact h.known f (.inr hown)

theorem exclusive_of_reachable [Fintype W] [Nonempty W] {caller : Option W}
    (h : Reachable (careful caller) s) : Exclusive s := by
  have hsound : ∀ s, Reachable (careful caller) s → s.shared.Numbered := by
    intro s hs
    have hreach : Reachable (machine caller) s := by
      induction hs with
      | init hs => exact .init hs
      | step _ hst ih => exact ih.step hst.1
    exact ((machine_inductive caller).reachable hreach).numbered
  refine Reachable.invariant hsound ?_ ?_ h
  · rintro s ⟨htasks, -, -, -, -, -, -, -, -, hworkers⟩
    have howns : ∀ w f, ¬(s.workers w).owns f := fun w f => by simp [hworkers w, Worker.owns]
    have hat : ∀ p f, ¬s.At p f := by
      rintro (i | w) f hp
      · rw [State.At, htasks] at hp
        cases hp
      · simp [State.At, Worker.wakes, hworkers w] at hp
    refine ⟨fun p _ f hp => absurd hp (hat p f), fun v _ f hv => absurd hv (howns v f),
      fun w f hw => absurd hw (howns w f), ?_, ?_, ?_, ?_, ?_⟩
    · intro w f hw
      simp [hworkers w] at hw
    · intro w e f hw
      simp [hworkers w] at hw
    · intro w e f event hw
      simp [hworkers w] at hw
    · rintro f (⟨p, hp⟩ | ⟨w, hw⟩)
      · exact absurd hp (hat p f)
      · exact absurd hw (howns w f)
    · intro w f hw
      simp [hworkers w] at hw
  · rintro s l t hnumbered hs ⟨hstep, hcareful⟩
    cases hstep with
    | run step => exact hs.run hnumbered step
    | task step => exact hs.task hnumbered step hcareful
    | enter pc other => exact hs.enter (.inl rfl)
    | enterCaller pc own stopped stop => exact hs.enter (.inl rfl)
    | skipCaller pc own stop => exact hs.enter (.inr rfl)
    | schedule t => exact hs.schedule hnumbered hcareful
    | stop step => exact hs.stop step

/-- While no fiber is scheduled again before it was switched to, no two workers have the same
fiber between the switch to it and HOLD, one that is switched to is in no other hands, and a
wake-up of a running fiber waits in the queue until its context is saved. -/
theorem exclusive [Fintype W] [Nonempty W] {caller : Option W}
    (h : Reachable (careful caller) s) :
    (∀ v w f, (s.workers v).owns f → (s.workers w).owns f → v = w) ∧
      (∀ w e f event, (s.workers w).pc = .swapIn e f event → ∀ v, ¬(s.workers v).owns f) ∧
      ∀ w e f, e ∈ s.shared.tasks → e.task = .fiber f → (s.workers w).owns f →
        s.shared.skips e = true ∨ (s.shared.fibers f).isDone = true := by
  have hs := exclusive_of_reachable h
  refine ⟨fun v w f => hs.runs v w f, hs.free, ?_⟩
  intro w e f _ htask hown
  rcases hs.running w f hown with hexec | hdone
  · exact .inl (Shared.skips_iff.mpr ⟨f, htask, hexec⟩)
  · exact .inr hdone

end System

/-- Nobody runs yet, and one fiber is there. -/
def fresh : State Bool :=
  ⟨⟨[], 0, [], [], fun _ => .init, 1, 0, 0, false, false, false⟩, fun _ => ⟨.start, false⟩⟩

theorem fresh_init : init fresh :=
  ⟨rfl, rfl, rfl, rfl, fun _ h => (by cases h), rfl, rfl, rfl, rfl, fun _ => rfl⟩

theorem careful_schedule {s : State Bool} {f : FiberId} (h : s.Unscheduled f) :
    Careful s .schedule { s with shared := s.shared.push (.fiber f) } := by
  constructor
  · intro w hw
    cases hw
  · intro _ e he hnot g hg
    rcases List.mem_append.mp he with hold | hnew
    · exact absurd hold hnot
    · obtain rfl := List.mem_singleton.mp hnew
      obtain rfl := Task.fiber.inj hg
      exact h

theorem fresh_unscheduled : fresh.Unscheduled 0 := by
  refine ⟨Nat.zero_lt_one, fun p hp => ?_⟩
  cases p with
  | queue i => cases hp
  | hand v => exact hp

/-- A fiber that was scheduled once, and the worker that runs it. -/
theorem exclusive_once : ∃ s : State Bool, Reachable (careful none) s ∧
    (s.workers true).owns 0 ∧ ∀ v, (s.workers v).owns 0 → v = true := by
  have hrun : ∀ {s : State Bool} {sh : Shared} {wk : Worker}, Reachable (careful none) s →
      RunStep s.shared (s.workers true) sh wk → Reachable (careful none) (s.set true sh wk) :=
    fun hs hstep => hs.step (l := .run true) ⟨Step.run hstep, careful_run (.inl ⟨_, rfl⟩)⟩
  have hinit : Reachable (careful (W := Bool) none) fresh := .init fresh_init
  have hpushed := hinit.step (l := .schedule)
    ⟨Step.schedule (.fiber 0), careful_schedule fresh_unscheduled⟩
  have hentered := hpushed.step (l := .enter true)
    ⟨Step.enter rfl (by simp), careful_run (.inr ⟨_, rfl⟩)⟩
  have hpicked := hrun hentered (RunStep.pick rfl rfl)
  have hinside := hrun (hrun hpicked (RunStep.accept rfl rfl rfl)) (RunStep.swapIn rfl)
  exact ⟨_, hinside, rfl, fun v hv => (exclusive hinside).1 v true 0 hv rfl⟩

/-- Scheduled twice while it waits, the same fiber is run by two workers at once. -/
theorem twice_scheduled : ∃ s : State Bool, Reachable (machine none) s ∧
    (s.workers true).pc = .inside 0 false ∧ (s.workers false).pc = .inside 0 false := by
  have hrun : ∀ {s : State Bool} {w : Bool} {sh : Shared} {wk : Worker},
      Reachable (machine none) s → RunStep s.shared (s.workers w) sh wk →
        Reachable (machine none) (s.set w sh wk) := fun hs hstep => hs.step (Step.run hstep)
  have hinit : Reachable (machine (W := Bool) none) fresh := .init fresh_init
  have hfirst := hinit.step (Step.schedule (.fiber 0))
  have hsecond := hfirst.step (Step.schedule (.fiber 0))
  have hentered := (hsecond.step (Step.enter (w := true) rfl (by simp))).step
    (Step.enter (w := false) rfl (by simp))
  have hpicked := hrun (hrun hentered (w := true) (RunStep.pick rfl rfl)) (w := false)
    (RunStep.pick rfl rfl)
  have haccepted := hrun (hrun hpicked (w := true) (RunStep.accept rfl rfl rfl)) (w := false)
    (RunStep.accept rfl rfl rfl)
  exact ⟨_, hrun (hrun haccepted (w := true) (RunStep.swapIn rfl)) (w := false) (RunStep.swapIn rfl),
    rfl, rfl⟩

end Scheduler
end TwServer
