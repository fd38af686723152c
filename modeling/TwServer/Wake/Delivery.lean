import TwServer.Wake.Safety

/-! Every wake-up arrives once. A registration enqueues its fiber at most once,
and an entry of the queue stays there or with the worker that took it until that
worker switches to its fiber. -/

namespace TwServer
open Counting Runs Scheduler

namespace Wake
variable {W : Type} [DecidableEq W]

/-! ## Registrations -/

/-- A registration that has not enqueued its fiber yet. -/
def Open (s : State W) (r : Registration) : Prop :=
  s.regs[r.number]? = some r.fiber ∧ r.number ∉ s.woken.map Registration.number

structure Logged (s : State W) : Prop where
  slot : ∀ fd ev r, s.slots fd ev = some r → Open s r
  waking : ∀ fd r, s.waking fd = some r → Open s r
  woken : ∀ r ∈ s.woken, s.regs[r.number]? = some r.fiber
  once : (s.woken.map Registration.number).Nodup

section Logged
variable {s : State W}

omit [DecidableEq W]

/-- Steps that leave the registrations alone. -/
theorem Logged.congr {s' : State W} (h : Logged s) (hslots : s'.slots = s.slots)
    (hwaking : s'.waking = s.waking) (hregs : s'.regs = s.regs) (hwoken : s'.woken = s.woken) :
    Logged s' := by
  have hopen : ∀ r, Open s r → Open s' r := by
    intro r hr
    unfold Open
    rw [hregs, hwoken]
    exact hr
  refine ⟨?_, ?_, ?_, by rw [hwoken]; exact h.once⟩
  · intro fd ev r hr
    exact hopen r (h.slot fd ev r (by rw [← hslots]; exact hr))
  · intro fd r hr
    exact hopen r (h.waking fd r (by rw [← hwaking]; exact hr))
  · intro r hr
    rw [hregs]
    exact h.woken r (by rw [← hwoken]; exact hr)

theorem getElem?_append_some {α : Type} {l m : List α} {i : Nat} {a : α} (h : l[i]? = some a) :
    (l ++ m)[i]? = some a := by
  rw [List.getElem?_append_left (List.getElem?_eq_some_iff.mp h).1, h]

theorem Logged.addEvent (h : Logged s) (f : FiberId) (fd : Nat) (ev : Event) :
    Logged { s with
      slots := setSlot s.slots fd ev (some ⟨s.regs.length, f⟩)
      armed := Function.update s.armed f true
      regs := s.regs ++ [f] } := by
  have hopen : ∀ r, Open s r → Open { s with
      slots := setSlot s.slots fd ev (some ⟨s.regs.length, f⟩)
      armed := Function.update s.armed f true
      regs := s.regs ++ [f] } r :=
    fun r hr => ⟨getElem?_append_some hr.1, hr.2⟩
  refine ⟨?_, ?_, ?_, h.once⟩
  · intro fd' ev' r hr
    rcases setSlot_cases hr with ⟨-, hnew⟩ | ⟨-, hold⟩
    · cases hnew
      refine ⟨?_, ?_⟩
      · show (s.regs ++ [f])[s.regs.length]? = some f
        rw [List.getElem?_append_right (Nat.le_refl _), Nat.sub_self]
        rfl
      · -- the number is new
        intro hmem
        obtain ⟨r, hr, heq⟩ := List.mem_map.mp hmem
        have hlt := (List.getElem?_eq_some_iff.mp (h.woken r hr)).1
        have heq' : r.number = s.regs.length := heq
        omega
    · exact hopen r (h.slot fd' ev' r hold)
  · exact fun fd' r hr => hopen r (h.waking fd' r hr)
  · exact fun r hr => getElem?_append_some (h.woken r hr)

theorem Logged.clear (h : Logged s) {fd : Nat} {ev : Event} {r : Registration}
    (registered : s.slots fd ev = some r) :
    Logged { s with
      slots := setSlot s.slots fd ev none
      waking := Function.update s.waking fd (some r) } := by
  refine ⟨?_, ?_, h.woken, h.once⟩
  · intro fd' ev' r' hr
    rcases setSlot_cases hr with ⟨-, hnew⟩ | ⟨-, hold⟩
    · cases hnew
    · exact h.slot fd' ev' r' hold
  · intro fd' r' hr
    rcases setWaking_cases hr with ⟨-, hnew⟩ | ⟨-, hold⟩
    · cases hnew
      exact h.slot fd ev _ registered
    · exact h.waking fd' r' hold

/-- Two registrations of one number are one fiber's, and a fiber has one wake-up. -/
theorem Logged.wake (h : Logged s) (hsafe : Safe s) {fd : Nat} {r : Registration}
    (locked : s.waking fd = some r) :
    Logged { s.withShared (s.sched.shared.push (.fiber r.fiber)) with
      waking := Function.update s.waking fd none
      woken := s.woken ++ [r] } := by
  have hr := h.waking fd r locked
  have hsame : ∀ r', Open s r' → r'.number = r.number → r'.fiber = r.fiber := by
    intro r' hr' heq
    have hfiber := hr'.1
    rw [heq, hr.1] at hfiber
    exact (Option.some.inj hfiber).symm
  have hopen : ∀ r', Open s r' → r'.number ≠ r.number →
      Open { s.withShared (s.sched.shared.push (.fiber r.fiber)) with
        waking := Function.update s.waking fd none
        woken := s.woken ++ [r] } r' := by
    intro r' hr' hne
    refine ⟨hr'.1, ?_⟩
    show r'.number ∉ (s.woken ++ [r]).map Registration.number
    rw [List.map_append, List.mem_append]
    rintro (hmem | hmem)
    · exact hr'.2 hmem
    · exact hne (List.mem_singleton.mp hmem)
  refine ⟨?_, ?_, ?_, ?_⟩
  · intro fd' ev' r' hr'
    have hr'' := h.slot fd' ev' r' hr'
    refine hopen r' hr'' ?_
    intro heq
    cases hsafe.unique (.slot fd' ev') (.waking fd) r.fiber ⟨r', hr', hsame r' hr'' heq⟩
      ⟨r, locked, rfl⟩
  · intro fd' r' hr'
    rcases setWaking_cases hr' with ⟨-, hnew⟩ | ⟨hne, hold⟩
    · cases hnew
    · have hr'' := h.waking fd' r' hold
      refine hopen r' hr'' ?_
      intro heq
      cases hsafe.unique (.waking fd') (.waking fd) r.fiber ⟨r', hold, hsame r' hr'' heq⟩
        ⟨r, locked, rfl⟩
      exact hne rfl
  · intro r' hr'
    rcases List.mem_append.mp hr' with hr' | hr'
    · exact h.woken r' hr'
    · cases List.mem_singleton.mp hr'
      exact hr.1
  · show ((s.woken ++ [r]).map Registration.number).Nodup
    rw [List.map_append, List.nodup_append]
    refine ⟨h.once, List.nodup_singleton _, ?_⟩
    intro a ha b hb
    obtain rfl := List.mem_singleton.mp hb
    rintro rfl
    exact hr.2 ha

theorem Logged.step [DecidableEq W] (h : Logged s) (hsafe : Safe s) {caller : Option W} {l : Label W}
    {s' : State W} (hstep : Step caller s l s') : Logged s' := by
  cases hstep with
  | addEvent fd ev _ _ _ _ _ => exact h.addEvent _ fd ev
  | clear fd ev _ registered => exact h.clear registered
  | wake fd locked => exact h.wake hsafe locked
  | _ => exact h.congr rfl rfl rfl rfl

end Logged

/-! ## Entries -/

/-- Every dequeued entry is in the hands of one worker or has been switched to once. -/
def Delivered [Fintype W] (s : Scheduler.State W) : Prop :=
  ∀ i, s.shared.taken.count i =
    count (Worker.carriesEntry i) s.workers + s.shared.started.count i

theorem carriesEntry_eq_count (wk : Worker) (i : Nat) :
    (wk.carriesEntry i).toNat = (wk.entry.toList.map Entry.id).count i := by
  unfold Worker.carriesEntry
  cases wk.entry with
  | none => rfl
  | some e => by_cases he : e.id = i <;> simp [he]

theorem RunStep.delivered {s s' : Shared} {wk wk' : Worker} (h : RunStep s wk s' wk')
    (hopen : ∀ e f, wk.pc = .picked e → e.task = .fiber f → (s.fibers f).isDone = false) (i : Nat) :
    s'.taken.count i + (wk.carriesEntry i).toNat + s.started.count i =
      s.taken.count i + (wk'.carriesEntry i).toNat + s'.started.count i := by
  rw [carriesEntry_eq_count, carriesEntry_eq_count]
  cases h with
  | discard pc task done =>
    rw [hopen _ _ pc task] at done
    cases done
  | pick pc found =>
    simp [Worker.entry, pc, Shared.take, List.count_append]
  | swapIn pc =>
    simp [Worker.entry, pc, Shared.start, Shared.setState, List.count_append]
    omega
  | accept pc | acceptCb pc | pickNone pc | lower pc | ready pc | ended pc | suspended pc
  | requeue pc | hold pc | toIdle pc | leave pc | idleYields pc | idleEnds pc | idleBack pc =>
    simp [Worker.entry, pc, Shared.newFiber, Shared.setState, Shared.push, Shared.lower]

section Entries
variable [Fintype W]

/-- The step of one worker, or of a worker that takes no part. -/
theorem Delivered.set {s : Scheduler.State W} (h : Delivered s) {w : W} {sh : Shared} {wk : Worker}
    (hstep : ∀ i, sh.taken.count i + ((s.workers w).carriesEntry i).toNat + s.shared.started.count i =
      s.shared.taken.count i + (wk.carriesEntry i).toNat + sh.started.count i) :
    Delivered (s.set w sh wk) := by
  intro i
  have hcount := count_update (Worker.carriesEntry i) s.workers w wk
  have := h i
  have := hstep i
  show sh.taken.count i =
    count (Worker.carriesEntry i) (Function.update s.workers w wk) + sh.started.count i
  omega

omit [DecidableEq W] in
theorem Delivered.congr {s : Scheduler.State W} (h : Delivered s) {sh : Shared}
    (htaken : sh.taken = s.shared.taken) (hstarted : sh.started = s.shared.started) :
    Delivered { s with shared := sh } := by
  intro i
  show sh.taken.count i = count (Worker.carriesEntry i) s.workers + sh.started.count i
  rw [htaken, hstarted]
  exact h i

theorem StopStep.delivered {s sh : Shared} (h : StopStep s sh) :
    sh.taken = s.taken ∧ sh.started = s.started := by
  cases h <;> exact ⟨rfl, rfl⟩

theorem Delivered.step {s : State W} (h : Delivered s.sched) (hsafe : Safe s) {caller : Option W}
    {l : Label W} {s' : State W} (hstep : Step caller s l s') : Delivered s'.sched := by
  cases hstep with
  | run step =>
    exact h.set (RunStep.delivered step fun e f pc task => hsafe.not_done pc task)
  | enter step =>
    cases step with
    | enter pc _ | enterCaller pc _ _ _ | skipCaller pc _ _ =>
      refine h.set fun i => ?_
      simp [Worker.carriesEntry, Worker.entry, pc]
  | swapOut pc _ =>
    refine h.set fun i => ?_
    simp [Worker.carriesEntry, Worker.entry, pc]
  | flag step => exact h.congr (StopStep.delivered step).1 (StopStep.delivered step).2
  | spawn | scheduleCb | finish | wake => exact h.congr rfl rfl
  | addEvent | clear => exact h

/-! ## Every run -/

structure Inv (s : State W) : Prop where
  numbered : s.sched.shared.Numbered
  safe : Safe s
  logged : Logged s
  delivered : Delivered s.sched

omit [Fintype W] in
theorem numbered_step {s s' : State W} (h : s.sched.shared.Numbered) {caller : Option W}
    {l : Label W} (hstep : Step caller s l s') : s'.sched.shared.Numbered := by
  cases hstep with
  | run step => exact step.numbered h
  | enter step =>
    cases step with
    | enter | enterCaller | skipCaller => exact h
  | flag step => cases step <;> exact ⟨h.perm, h.sorted⟩
  | spawn => exact Shared.Numbered.push (s := s.sched.shared.newFiber) ⟨h.perm, h.sorted⟩ _
  | scheduleCb c => exact h.push _
  | wake => exact h.push _
  | finish => exact ⟨h.perm, h.sorted⟩
  | addEvent | swapOut | clear => exact h

section Start
variable {s : State W}

omit [DecidableEq W] [Fintype W]

/-- Nothing waits or wakes up when the machine starts. -/
theorem init_at (h : init s) (p : Place W) (f : FiberId) : ¬ At s p f := by
  obtain ⟨⟨htasks, -, -, -, -, -, -, -, -, hworkers⟩, hslots, hwaking, -⟩ := h
  intro hp
  cases p with
  | slot fd ev =>
    obtain ⟨r, hr, -⟩ := hp
    rw [hslots] at hr
    cases hr
  | waking fd =>
    obtain ⟨r, hr, -⟩ := hp
    rw [hwaking] at hr
    cases hr
  | queued i =>
    rw [At, htasks] at hp
    cases hp
  | carried w =>
    rw [At, hworkers] at hp
    exact hp

theorem init_numbered (h : init s) : s.sched.shared.Numbered := by
  obtain ⟨⟨htasks, hpushed, htaken, -⟩, -⟩ := h
  constructor
  · rw [Shared.ids, htasks, hpushed, htaken]
    exact List.Perm.refl _
  · rw [Shared.ids, htasks]
    exact List.Pairwise.nil

theorem init_safe (h : init s) : Safe s := by
  have hat := init_at h
  have hworkers := h.1.2.2.2.2.2.2.2.2.2
  have hown : ∀ w f, ¬ (s.sched.workers w).owns f := by
    intro w f hw
    rw [hworkers] at hw
    exact hw
  constructor
  · exact fun p _ f hp => absurd hp (hat p f)
  · exact fun p f hp => absurd hp (hat p f)
  · exact fun v _ f hv => absurd hv (hown v f)
  · exact fun w f hw => absurd hw (hown w f)
  · exact fun _ f _ _ _ p => hat p f
  · exact fun v _ f hv => absurd hv (hown v f)
  · exact fun f _ => ⟨fun p => hat p f, fun w => hown w f⟩
  · intro w f hw
    rw [hworkers] at hw
    cases hw

theorem init_logged (h : init s) : Logged s := by
  obtain ⟨-, hslots, hwaking, -, -, hwoken⟩ := h
  constructor
  · intro fd ev r hr
    rw [hslots] at hr
    cases hr
  · intro fd r hr
    rw [hwaking] at hr
    cases hr
  · intro r hr
    rw [hwoken] at hr
    cases hr
  · rw [hwoken]
    exact List.nodup_nil

theorem init_delivered [Fintype W] (h : init s) : Delivered s.sched := by
  obtain ⟨⟨-, -, htaken, hstarted, -, -, -, -, -, hworkers⟩, -⟩ := h
  intro i
  have hzero : count (Worker.carriesEntry i) s.sched.workers = 0 := by
    rw [count_eq_zero]
    intro w
    rw [hworkers]
    rfl
  rw [htaken, hstarted, hzero]
  rfl

end Start

theorem machine_inductive (caller : Option W) : (machine caller).Inductive Inv where
  init s h := ⟨init_numbered h, init_safe h, init_logged h, init_delivered h⟩
  step := by
    intro s l s' h hstep
    exact ⟨numbered_step h.numbered hstep, h.safe.step h.numbered hstep,
      h.logged.step h.safe hstep, h.delivered.step h.safe hstep⟩

end Entries

end Wake
end TwServer
