import TwServer.Scheduler.Model

/-! No task is lost or started twice. The counter is the number of workers that
hold a task, but for the fibers that came back READY; a fiber in state EXEC is always
in some worker's hands, so a worker that leaves past one is not the last. -/

namespace TwServer
open Counting Runs

namespace Scheduler

namespace Worker

/-- From the dequeue of a task to the lowering of the counter after its fiber
switched back or the task was discarded. -/
def holds (wk : Worker) : Bool :=
  match wk.pc with
  | .picked _ | .swapIn _ _ _ | .inside _ _ | .back _ _ => true
  | _ => false

/-- The worker runs `f` or has yet to deal with the state it came back in. -/
def owns (wk : Worker) (f : FiberId) : Prop :=
  match wk.pc with
  | .inside g _ | .back g _ | .lowered g _ | .hold g => g = f
  | _ => False

/-- The worker has left `run()`, or will do so without another look at the queue. -/
def gone (wk : Worker) : Bool :=
  match wk.pc with
  | .left => true
  | .nothing => wk.idleTerm
  | _ => false

theorem gone_of_owns {wk : Worker} {f : FiberId} (h : wk.owns f) : wk.gone = false := by
  unfold owns at h
  unfold gone
  split <;> simp_all

end Worker

namespace Shared

theorem scan_some {s : Shared} {l rest : List Entry} {e : Entry} (h : s.scan l = some (e, rest)) :
    s.skips e = false ∧
      ∃ pre post, l = pre ++ e :: post ∧ rest = pre ++ post ∧ ∀ x ∈ pre, s.skips x = true := by
  induction l generalizing rest with
  | nil => cases h
  | cons x l ih =>
    rw [scan] at h
    cases hx : s.skips x with
    | false =>
      rw [hx] at h
      cases h
      exact ⟨hx, [], l, rfl, rfl, fun y hy => nomatch hy⟩
    | true =>
      rw [hx, if_pos rfl, Option.map_eq_some_iff] at h
      obtain ⟨⟨e', rest'⟩, hscan, heq⟩ := h
      cases heq
      obtain ⟨he, pre, post, rfl, rfl, hpre⟩ := ih hscan
      refine ⟨he, x :: pre, post, rfl, rfl, ?_⟩
      intro y hy
      rcases List.mem_cons.mp hy with rfl | hy
      · exact hx
      · exact hpre y hy

theorem scan_none {s : Shared} {l : List Entry} (h : s.scan l = none) :
    ∀ x ∈ l, s.skips x = true := by
  induction l with
  | nil =>
    intro x hx
    cases hx
  | cons y l ih =>
    rw [scan] at h
    cases hy : s.skips y with
    | false =>
      rw [hy] at h
      cases h
    | true =>
      rw [hy, if_pos rfl, Option.map_eq_none_iff] at h
      intro x hx
      rcases List.mem_cons.mp hx with rfl | hx
      · exact hy
      · exact ih h x hx

theorem skips_iff {s : Shared} {e : Entry} :
    s.skips e = true ↔ ∃ f, e.task = .fiber f ∧ s.fibers f = .exec := by
  unfold skips
  cases e.task with
  | fiber f => simp
  | cb c => simp

theorem setState_self (s : Shared) (f : FiberId) (st : FiberState) :
    (s.setState f st).fibers f = st := Function.update_self _ _ _

theorem setState_of_ne {s : Shared} {f g : FiberId} {st : FiberState} (h : g ≠ f) :
    (s.setState f st).fibers g = s.fibers g := Function.update_of_ne h _ _

/-- The numbers of the entries in the queue. -/
def ids (s : Shared) : List Nat := s.tasks.map Entry.id

/-- Every number is given out once, to an entry that waits in order or was taken. -/
structure Numbered (s : Shared) : Prop where
  perm : (s.taken ++ s.ids).Perm (List.range s.pushed)
  sorted : s.ids.Pairwise (· < ·)

theorem Numbered.mem_lt {s : Shared} (h : Numbered s) {i : Nat} (hi : i ∈ s.ids) : i < s.pushed :=
  List.mem_range.mp (h.perm.mem_iff.mp (List.mem_append_right _ hi))

theorem Numbered.push {s : Shared} (h : Numbered s) (t : Task) : Numbered (s.push t) where
  perm := by
    show (s.taken ++ (s.tasks ++ [(⟨s.pushed, t⟩ : Entry)]).map Entry.id).Perm
      (List.range (s.pushed + 1))
    rw [List.map_append, ← List.append_assoc, List.range_succ]
    exact h.perm.append_right _
  sorted := by
    show ((s.tasks ++ [(⟨s.pushed, t⟩ : Entry)]).map Entry.id).Pairwise (· < ·)
    rw [List.map_append, List.pairwise_append]
    refine ⟨h.sorted, List.pairwise_singleton _ _, ?_⟩
    intro i hi j hj
    obtain rfl := List.mem_singleton.mp hj
    exact h.mem_lt hi

theorem Numbered.take {s : Shared} (h : Numbered s) {e : Entry} {rest : List Entry}
    (hscan : s.scan s.tasks = some (e, rest)) : Numbered (s.take e rest) := by
  obtain ⟨-, pre, post, hl, rfl, -⟩ := scan_some hscan
  have hids : s.ids = pre.map Entry.id ++ e.id :: post.map Entry.id := by
    rw [ids, hl, List.map_append, List.map_cons]
  have hrest : (s.take e (pre ++ post)).ids = pre.map Entry.id ++ post.map Entry.id :=
    List.map_append
  constructor
  · refine List.Perm.trans ?_ h.perm
    rw [hrest, hids]
    show (s.taken ++ [e.id] ++ (pre.map Entry.id ++ post.map Entry.id)).Perm _
    rw [List.append_assoc]
    refine List.Perm.append_left _ ?_
    show (e.id :: (pre.map Entry.id ++ post.map Entry.id)).Perm _
    exact List.perm_middle.symm
  · have hsorted := h.sorted
    rw [hids] at hsorted
    rw [hrest]
    refine hsorted.sublist ?_
    exact List.Sublist.append_left (List.sublist_cons_self _ _) _

end Shared

/-! ## What one worker's step does -/

section Steps
variable {s s' : Shared} {wk wk' : Worker}

/-- The counter moves with the worker that holds a task. -/
theorem RunStep.active (h : RunStep s wk s' wk') (hpos : wk.holds = true → 0 < s.activeThreadCount) :
    s'.activeThreadCount + wk.holds.toNat = s.activeThreadCount + wk'.holds.toNat := by
  cases h with
  | discard pc | lower pc =>
    have hholds : wk.holds = true := by rw [Worker.holds, pc]
    have := decrement_of_pos (hpos hholds)
    rw [hholds]
    exact this
  | pick pc | pickNone pc | accept pc | acceptCb pc | swapIn pc | ready pc | ended pc
  | suspended pc | requeue pc | hold pc | toIdle pc | leave pc | idleYields pc | idleEnds pc
  | idleBack pc =>
    simp [Worker.holds, pc, Shared.take, Shared.newFiber, Shared.start, Shared.setState,
      Shared.push]

theorem TaskStep.active (h : TaskStep s wk s' wk') :
    s'.activeThreadCount + wk.holds.toNat = s.activeThreadCount + wk'.holds.toNat := by
  cases h with
  | schedule t pc => rfl
  | setState st pc => rfl
  | swapOut pc => simp [Worker.holds, pc]

theorem exec_setState {f g : FiberId} {st : FiberState} (hst : st ≠ .exec)
    (h : (s.setState f st).fibers g = .exec) : s.fibers g = .exec ∧ g ≠ f := by
  by_cases hg : g = f
  · subst hg
    rw [Shared.setState_self] at h
    exact absurd h hst
  · rw [Shared.setState_of_ne hg] at h
    exact ⟨h, hg⟩

/-- A fiber in state EXEC after the step is the worker's now, or it was in that
state before in other hands. -/
theorem RunStep.exec (h : RunStep s wk s' wk') {f : FiberId} (hf : s'.fibers f = .exec) :
    wk'.owns f ∨ s.fibers f = .exec ∧ ¬ wk.owns f := by
  cases h with
  | swapIn pc =>
    rename_i g event
    by_cases hg : f = g
    · exact Or.inl hg.symm
    · refine Or.inr ⟨?_, by simp [Worker.owns, pc]⟩
      rwa [← Shared.setState_of_ne hg]
  | acceptCb pc =>
    refine Or.inr ⟨(exec_setState (by decide) hf).1, ?_⟩
    simp [Worker.owns, pc]
  | hold pc =>
    obtain ⟨hexec, hne⟩ := exec_setState (by decide) hf
    refine Or.inr ⟨hexec, ?_⟩
    simpa [Worker.owns, pc] using hne.symm
  | ready pc state =>
    refine Or.inr ⟨hf, ?_⟩
    rintro hown
    simp only [Worker.owns, pc] at hown
    rw [hown, hf] at state
    cases state
  | ended pc done =>
    refine Or.inr ⟨hf, ?_⟩
    rintro hown
    simp only [Worker.owns, pc] at hown
    rw [hown, hf] at done
    cases done
  | lower pc | suspended pc =>
    by_cases hown : wk.owns f
    · exact Or.inl (by simpa [Worker.owns, pc] using hown)
    · exact Or.inr ⟨hf, hown⟩
  | pick pc | pickNone pc | accept pc | discard pc | requeue pc | toIdle pc | leave pc
  | idleYields pc | idleEnds pc | idleBack pc => exact Or.inr ⟨hf, by simp [Worker.owns, pc]⟩

theorem TaskStep.exec (h : TaskStep s wk s' wk') {f : FiberId} (hf : s'.fibers f = .exec) :
    wk'.owns f ∨ s.fibers f = .exec ∧ ¬ wk.owns f := by
  by_cases hown : wk.owns f
  · left
    cases h with
    | schedule t pc | setState st pc => exact hown
    | swapOut pc => simpa [Worker.owns, pc] using hown
  · refine Or.inr ⟨?_, hown⟩
    cases h with
    | schedule t pc | swapOut pc => exact hf
    | setState st pc =>
      rename_i g event
      have hg : f ≠ g := by
        rintro rfl
        exact hown (by simp [Worker.owns, pc])
      rwa [Shared.setState_of_ne hg] at hf

theorem RunStep.numbered (h : RunStep s wk s' wk') (hs : s.Numbered) : s'.Numbered := by
  cases h with
  | pick pc found => exact hs.take found
  | requeue pc => exact hs.push _
  | _ => exact ⟨hs.perm, hs.sorted⟩

theorem TaskStep.numbered (h : TaskStep s wk s' wk') (hs : s.Numbered) : s'.Numbered := by
  cases h with
  | schedule t pc => exact hs.push t
  | _ => exact ⟨hs.perm, hs.sorted⟩

/-- A worker goes for good only past a queue of running fibers. -/
theorem RunStep.served (h : RunStep s wk s' wk') :
    wk'.gone = false ∨ s' = s ∧
      (wk.gone = true ∨ (∀ f, ¬ wk.owns f) ∧ ∀ e ∈ s.tasks, s.skips e = true) := by
  cases h with
  | pickNone pc none =>
    exact Or.inr ⟨rfl, Or.inr ⟨fun f => by simp [Worker.owns, pc], Shared.scan_none none⟩⟩
  | leave pc term => exact Or.inr ⟨rfl, Or.inl (by simp [Worker.gone, pc, term])⟩
  | _ => exact Or.inl rfl

theorem TaskStep.served (h : TaskStep s wk s' wk') : wk'.gone = false := by
  cases h with
  | schedule t pc | setState st pc => simp [Worker.gone, pc]
  | swapOut pc => rfl

/-- The worker's idle fiber ends only once `stop()` was called. -/
theorem RunStep.quit (h : RunStep s wk s' wk') (hq : wk'.idleTerm = true ∨ wk'.pc = .left) :
    wk.idleTerm = true ∨ s.autostop = true := by
  cases h with
  | leave pc term => exact Or.inl term
  | idleEnds pc stop =>
    simp only [Shared.isStopping, Bool.and_eq_true] at stop
    exact Or.inr stop.2.1.1.1
  | _ => exact Or.inl (by simpa using hq)

theorem RunStep.autostop (h : RunStep s wk s' wk') : s'.autostop = s.autostop := by
  cases h <;> rfl

theorem TaskStep.quit (h : TaskStep s wk s' wk') (hq : wk'.idleTerm = true ∨ wk'.pc = .left) :
    wk.idleTerm = true := by
  cases h with
  | schedule t pc | setState st pc => simpa [pc] using hq
  | swapOut pc => simpa using hq

theorem TaskStep.autostop (h : TaskStep s wk s' wk') : s'.autostop = s.autostop := by
  cases h <;> rfl

end Steps

/-! ## The invariant -/

structure Sound {W : Type} [Fintype W] (s : State W) : Prop where
  active : s.shared.activeThreadCount = count Worker.holds s.workers
  owned : ∀ f, s.shared.fibers f = .exec → ∃ w, (s.workers w).owns f
  numbered : s.shared.Numbered
  quit : ∀ w, (s.workers w).idleTerm = true ∨ (s.workers w).pc = .left → s.shared.autostop = true

/-- Somebody will look at the queue again while it is not empty. -/
def State.Served {W : Type} (s : State W) : Prop :=
  s.shared.tasks ≠ [] → ∃ w, (s.workers w).gone = false

section System
variable {W : Type} [Fintype W] [DecidableEq W] {s : State W} {w : W} {sh : Shared} {wk : Worker}

/-- A step of one worker that does what the lemmas above say keeps the invariant. -/
theorem Sound.set (h : Sound s)
    (hactive : sh.activeThreadCount + (s.workers w).holds.toNat =
      s.shared.activeThreadCount + wk.holds.toNat)
    (hexec : ∀ f, sh.fibers f = .exec →
      wk.owns f ∨ s.shared.fibers f = .exec ∧ ¬ (s.workers w).owns f)
    (hnumbered : sh.Numbered)
    (hquit : wk.idleTerm = true ∨ wk.pc = .left → s.shared.autostop = true)
    (hautostop : sh.autostop = s.shared.autostop) : Sound (s.set w sh wk) := by
  have howned : ∀ f, sh.fibers f = .exec → ∃ v, ((s.set w sh wk).workers v).owns f := by
    intro f hf
    rcases hexec f hf with hown | ⟨hf, hnot⟩
    · exact ⟨w, by rwa [State.set_self]⟩
    · obtain ⟨v, hv⟩ := h.owned f hf
      have hne : v ≠ w := by
        rintro rfl
        exact hnot hv
      exact ⟨v, by rwa [State.set_of_ne hne]⟩
  refine ⟨counter_update h.active hactive, howned, hnumbered, fun v hv => ?_⟩
  show sh.autostop = true
  rw [hautostop]
  by_cases hvw : v = w
  · subst hvw
    rw [State.set_self] at hv
    exact hquit hv
  · rw [State.set_of_ne hvw] at hv
    exact h.quit v hv

theorem Sound.run (h : Sound s) (hstep : RunStep s.shared (s.workers w) sh wk) :
    Sound (s.set w sh wk) := by
  refine h.set (hstep.active ?_) (fun f => hstep.exec) (hstep.numbered h.numbered) ?_
    hstep.autostop
  · intro hholds
    rw [h.active]
    exact count_pos hholds
  · intro hq
    rcases hstep.quit hq with hterm | hauto
    · exact h.quit w (Or.inl hterm)
    · exact hauto

theorem Sound.task (h : Sound s) (hstep : TaskStep s.shared (s.workers w) sh wk) :
    Sound (s.set w sh wk) :=
  h.set hstep.active (fun _ => hstep.exec) (hstep.numbered h.numbered)
    (fun hq => h.quit w (Or.inl (hstep.quit hq))) hstep.autostop

/-- A worker that enters `run()`, or whose `stop()` saw nothing left to do. -/
theorem Sound.enter (h : Sound s) (hpc : (s.workers w).pc = .start) {pc : Pc}
    (hto : pc = .scan ∨ pc = .left ∧ s.shared.isStopping = true) :
    Sound (s.set w s.shared { s.workers w with pc := pc }) := by
  refine h.set ?_ ?_ h.numbered ?_ rfl
  · rcases hto with rfl | ⟨rfl, -⟩ <;> simp [Worker.holds, hpc]
  · intro f hf
    exact Or.inr ⟨hf, by simp [Worker.owns, hpc]⟩
  · rcases hto with rfl | ⟨rfl, hstop⟩
    · intro hq
      exact h.quit w (Or.inl (by simpa using hq))
    · intro _
      simp only [Shared.isStopping, Bool.and_eq_true] at hstop
      exact hstop.2.1.1.1

omit [DecidableEq W] in
theorem Sound.stop (h : Sound s) (hstep : StopStep s.shared sh) :
    Sound { s with shared := sh } := by
  cases hstep with
  | autostop => exact ⟨h.active, h.owned, ⟨h.numbered.perm, h.numbered.sorted⟩, fun _ _ => rfl⟩
  | stopping auto | busy b =>
    exact ⟨h.active, h.owned, ⟨h.numbered.perm, h.numbered.sorted⟩, h.quit⟩

theorem machine_inductive (caller : Option W) : (machine caller).Inductive Sound where
  init := by
    rintro s ⟨htasks, hpushed, htaken, -, hfibers, hactive, -, -, -, hworkers⟩
    constructor
    · rw [hactive, eq_comm, count_eq_zero]
      intro w
      rw [hworkers w]
      rfl
    · intro f hf
      exact absurd hf (hfibers f)
    · constructor
      · rw [Shared.ids, htasks, hpushed, htaken]
        exact List.Perm.refl _
      · rw [Shared.ids, htasks]
        exact List.Pairwise.nil
    · intro w hw
      rw [hworkers w] at hw
      simp at hw
  step := by
    intro s l s' h hstep
    cases hstep with
    | run step => exact h.run step
    | task step => exact h.task step
    | enter pc other => exact h.enter pc (Or.inl rfl)
    | enterCaller pc own stopped stop => exact h.enter pc (Or.inl rfl)
    | skipCaller pc own stop => exact h.enter pc (Or.inr ⟨rfl, stop⟩)
    | schedule t => exact ⟨h.active, h.owned, h.numbered.push t, h.quit⟩
    | stop step => exact h.stop step

/-! ## Who serves the queue -/

/-- A thread that is no worker does not call `schedule()` any more once `stop()` was called. -/
def Early {W : Type} (s : State W) : Label W → Prop
  | .schedule => s.shared.autostop = false
  | _ => True

omit [DecidableEq W] in
/-- Before `stop()` no worker is gone. -/
theorem Sound.stays (h : Sound s) (hearly : s.shared.autostop = false) (w : W) :
    (s.workers w).gone = false := by
  cases hgone : (s.workers w).gone with
  | false => rfl
  | true =>
    have hq : (s.workers w).idleTerm = true ∨ (s.workers w).pc = .left := by
      unfold Worker.gone at hgone
      split at hgone
      · exact Or.inr ‹_›
      · exact Or.inl hgone
      · cases hgone
    exact absurd (hearly.symm.trans (h.quit w hq)) Bool.false_ne_true

theorem State.Served.set (h : s.Served) (hs : Sound s)
    (hserved : wk.gone = false ∨ sh = s.shared ∧
      ((s.workers w).gone = true ∨
        (∀ f, ¬ (s.workers w).owns f) ∧ ∀ e ∈ s.shared.tasks, s.shared.skips e = true)) :
    (s.set w sh wk).Served := by
  intro htasks
  rcases hserved with hwk | ⟨rfl, hrest⟩
  · exact ⟨w, by rwa [State.set_self]⟩
  · have hother : ∃ v, v ≠ w ∧ (s.workers v).gone = false := by
      rcases hrest with hgone | ⟨hnone, hskip⟩
      · obtain ⟨v, hv⟩ := h htasks
        refine ⟨v, ?_, hv⟩
        rintro rfl
        rw [hgone] at hv
        cases hv
      · -- the head of the queue runs in some other worker, which is not gone
        obtain ⟨e, he⟩ := List.exists_mem_of_ne_nil _ htasks
        obtain ⟨f, -, hf⟩ := Shared.skips_iff.mp (hskip e he)
        obtain ⟨v, hv⟩ := hs.owned f hf
        refine ⟨v, ?_, Worker.gone_of_owns hv⟩
        rintro rfl
        exact hnone f hv
    obtain ⟨v, hne, hv⟩ := hother
    exact ⟨v, by rwa [State.set_of_ne hne]⟩

/-- An entry that is dequeued ahead of an earlier one passes only running fibers. -/
theorem RunStep.order {s s' : Shared} {wk wk' : Worker} (h : RunStep s wk s' wk')
    (hs : s.Numbered) {i : Nat} (hi : s'.taken = s.taken ++ [i]) {e : Entry} (he : e ∈ s.tasks)
    (hlt : e.id < i) : s.skips e = true := by
  cases h with
  | pick pc found =>
    obtain ⟨-, pre, post, hl, -, hpre⟩ := Shared.scan_some found
    obtain rfl := List.singleton_inj.mp (List.append_cancel_left hi)
    rw [hl] at he
    rcases List.mem_append.mp he with he | he
    · exact hpre e he
    · exfalso
      have hsorted := hs.sorted
      rw [Shared.ids, hl, List.map_append, List.map_cons, List.pairwise_append,
        List.pairwise_cons] at hsorted
      rcases List.mem_cons.mp he with rfl | he
      · omega
      · have := hsorted.2.1.1 e.id (List.mem_map_of_mem he)
        omega
  | _ =>
    have hlen := congrArg List.length hi
    simp [Shared.lower, Shared.push, Shared.setState, Shared.start, Shared.newFiber] at hlen

theorem TaskStep.taken {s s' : Shared} {wk wk' : Worker} (h : TaskStep s wk s' wk') :
    s'.taken = s.taken := by
  cases h <;> rfl

theorem StopStep.taken {s s' : Shared} (h : StopStep s s') : s'.taken = s.taken := by
  cases h <;> rfl

end System

/-- Nobody runs yet, and nothing is scheduled. -/
def quiet : State Bool :=
  ⟨⟨[], 0, [], [], fun _ => .init, 1, 0, 0, false, false, false⟩, fun _ => ⟨.start, false⟩⟩

theorem quiet_init : init quiet :=
  ⟨rfl, rfl, rfl, rfl, fun _ h => (by cases h), rfl, rfl, rfl, rfl, fun _ => rfl⟩

section
variable {s : State Bool}

/-- Worker `true` is inside fiber 0. -/
def running : State Bool :=
  ⟨⟨[], 1, [0], [0], Function.update (fun _ => .init) 0 .exec, 1, 1, 0, false, false, false⟩,
    Function.update (fun _ => ⟨.start, false⟩) true ⟨.inside 0 false, false⟩⟩

end

end Scheduler
end TwServer
