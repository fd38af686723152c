import TwServer.Lib.Tokens
import TwServer.Wake.Model

/-! A fiber has at most one wake-up under way: in a slot, in the hands of a
`triggerEvent`, in the queue, or with the worker that took it from there. While a
worker owns the fiber its state is EXEC until HOLD is set, so the queue keeps the
wake-up back. -/

namespace TwServer
open Counting Runs Scheduler Tokens

namespace Scheduler.Worker

/-- The worker has taken an entry and not yet switched to its fiber. -/
def entry (wk : Worker) : Option Entry :=
  match wk.pc with
  | .picked e | .swapIn e _ _ => some e
  | _ => none

/-- The worker is on its way to switch to `f`. -/
def carries (wk : Worker) (f : FiberId) : Prop :=
  match wk.pc with
  | .picked e => e.task = .fiber f
  | .swapIn _ g _ => g = f
  | _ => False

def carriesEntry (i : Nat) (wk : Worker) : Bool := wk.entry.map Entry.id = some i

end Scheduler.Worker

namespace Wake
variable {W : Type} [DecidableEq W]

/-- Where the wake-up of a fiber can be. -/
inductive Place (W : Type) where
  | slot (fd : Nat) (ev : Event)
  | waking (fd : Nat)
  | queued (i : Nat)
  | carried (w : W)

def At (s : State W) : Place W → FiberId → Prop
  | .slot fd ev, f => ∃ r, s.slots fd ev = some r ∧ r.fiber = f
  | .waking fd, f => ∃ r, s.waking fd = some r ∧ r.fiber = f
  | .queued i, f => (⟨i, .fiber f⟩ : Entry) ∈ s.sched.shared.tasks
  | .carried w, f => (s.sched.workers w).carries f

structure Safe (s : State W) : Prop where
  unique : Unique (At s)
  alive : ∀ p f, At s p f → (s.sched.shared.fibers f).isDone = false
  owner : ∀ v w f, (s.sched.workers v).owns f → (s.sched.workers w).owns f → v = w
  state : ∀ w f, (s.sched.workers w).owns f →
    s.sched.shared.fibers f = .exec ∨ (s.sched.shared.fibers f).isDone = true
  unarmed : ∀ w f event, (s.sched.workers w).pc = .inside f event → s.armed f = false →
    ∀ p, ¬ At s p f
  apart : ∀ v w f, (s.sched.workers v).owns f → ¬ (s.sched.workers w).carries f
  fresh : ∀ f, s.sched.shared.nextFiber ≤ f →
    (∀ p, ¬ At s p f) ∧ ∀ w, ¬ (s.sched.workers w).owns f
  noRequeue : ∀ w f, (s.sched.workers w).pc ≠ .requeue f

section Rules
omit [DecidableEq W]
variable {s s' : State W}

/-- A step that makes no new wake-up and gives nobody a fiber. -/
theorem Safe.next (h : Safe s) (hunique : Unique (At s'))
    (htokens : ∀ p f, At s' p f → ∃ q, At s q f)
    (howns : ∀ w f, (s'.sched.workers w).owns f → (s.sched.workers w).owns f)
    (hfibers : s'.sched.shared.fibers = s.sched.shared.fibers)
    (hnext : s'.sched.shared.nextFiber = s.sched.shared.nextFiber) (harmed : s'.armed = s.armed)
    (hinside : ∀ w f event, (s'.sched.workers w).pc = .inside f event →
      (s.sched.workers w).pc = .inside f event)
    (hapart : ∀ v w f, (s'.sched.workers v).owns f → ¬ (s'.sched.workers w).carries f)
    (hrequeue : ∀ w f, (s'.sched.workers w).pc ≠ .requeue f) : Safe s' where
  unique := hunique
  alive := by
    intro p f hp
    obtain ⟨q, hq⟩ := htokens p f hp
    rw [hfibers]
    exact h.alive q f hq
  owner v w f hv hw := h.owner v w f (howns v f hv) (howns w f hw)
  state := by
    intro w f hw
    rw [hfibers]
    exact h.state w f (howns w f hw)
  unarmed := by
    intro w f event hpc hf p hp
    obtain ⟨q, hq⟩ := htokens p f hp
    rw [harmed] at hf
    exact h.unarmed w f event (hinside w f event hpc) hf q hq
  apart := hapart
  fresh := by
    intro f hf
    rw [hnext] at hf
    refine ⟨?_, fun w hw => (h.fresh f hf).2 w (howns w f hw)⟩
    intro p hp
    obtain ⟨q, hq⟩ := htokens p f hp
    exact (h.fresh f hf).1 q hq
  noRequeue := hrequeue

/-- A step that makes a new fiber with one wake-up. -/
theorem Safe.create (h : Safe s) {q : Place W}
    (htokens : ∀ p f, At s' p f → p = q ∧ f = s.sched.shared.nextFiber ∨ At s p f)
    (howns : ∀ w f, (s'.sched.workers w).owns f → (s.sched.workers w).owns f)
    (hnew : (s'.sched.shared.fibers s.sched.shared.nextFiber).isDone = false)
    (hothers : ∀ f, f ≠ s.sched.shared.nextFiber →
      s'.sched.shared.fibers f = s.sched.shared.fibers f)
    (hnext : s.sched.shared.nextFiber < s'.sched.shared.nextFiber) (harmed : s'.armed = s.armed)
    (hinside : ∀ w f event, (s'.sched.workers w).pc = .inside f event →
      (s.sched.workers w).pc = .inside f event)
    (hrequeue : ∀ w f, (s'.sched.workers w).pc ≠ .requeue f) : Safe s' := by
  obtain ⟨hnone, hfree⟩ := h.fresh _ (Nat.le_refl _)
  have hown : ∀ w f, (s'.sched.workers w).owns f → f ≠ s.sched.shared.nextFiber := by
    rintro w f hw rfl
    exact hfree w (howns w _ hw)
  constructor
  · exact h.unique.create hnone htokens
  · intro p f hp
    by_cases hf : f = s.sched.shared.nextFiber
    · rw [hf]
      exact hnew
    · rcases htokens p f hp with ⟨-, rfl⟩ | hp
      · exact absurd rfl hf
      · rw [hothers f hf]
        exact h.alive p f hp
  · exact fun v w f hv hw => h.owner v w f (howns v f hv) (howns w f hw)
  · intro w f hw
    rw [hothers f (hown w f hw)]
    exact h.state w f (howns w f hw)
  · intro w f event hpc hf p hp
    rw [harmed] at hf
    rcases htokens p f hp with ⟨-, rfl⟩ | hp
    · exact hfree w (by simp [Worker.owns, hinside w _ event hpc])
    · exact h.unarmed w f event (hinside w f event hpc) hf p hp
  · intro v w f hv hw
    rcases htokens (.carried w) f hw with ⟨-, rfl⟩ | hw
    · exact hown v _ hv rfl
    · exact h.apart v w f (howns v f hv) hw
  · intro f hf
    have hlt : s.sched.shared.nextFiber ≤ f := Nat.le_of_lt (Nat.lt_of_lt_of_le hnext hf)
    refine ⟨?_, fun w hw => (h.fresh f hlt).2 w (howns w f hw)⟩
    intro p hp
    rcases htokens p f hp with ⟨-, rfl⟩ | hp
    · exact absurd hnext (Nat.not_lt.mpr hf)
    · exact (h.fresh f hlt).1 p hp
  · exact hrequeue

end Rules

/-! ## The steps of `run()` -/

section Run
variable {s : State W} {w : W} {sh : Shared} {wk : Worker}

def State.setWorker (s : State W) (w : W) (sh : Shared) (wk : Worker) : State W :=
  { s with sched := s.sched.set w sh wk }

/-- A wake-up after the step of a worker: the worker carries it, it is in the
queue, or it is where it was. -/
theorem at_setWorker {p : Place W} {f : FiberId} (hp : At (s.setWorker w sh wk) p f) :
    (p = .carried w ∧ wk.carries f) ∨ (∃ i, p = .queued i ∧ (⟨i, .fiber f⟩ : Entry) ∈ sh.tasks) ∨
      (p ≠ .carried w ∧ (∀ i, p ≠ .queued i) ∧ At s p f) := by
  cases p with
  | slot fd ev => exact Or.inr (Or.inr ⟨by simp, by simp, hp⟩)
  | waking fd => exact Or.inr (Or.inr ⟨by simp, by simp, hp⟩)
  | queued i => exact Or.inr (Or.inl ⟨i, rfl, hp⟩)
  | carried v =>
    rcases State.set_cases (Q := (·.carries f)) hp with ⟨rfl, hw⟩ | ⟨hne, hw⟩
    · exact Or.inl ⟨rfl, hw⟩
    · exact Or.inr (Or.inr ⟨by simpa using hne, by simp, hw⟩)

theorem owns_setWorker {v : W} {f : FiberId}
    (hv : ((s.setWorker w sh wk).sched.workers v).owns f) :
    v = w ∧ wk.owns f ∨ v ≠ w ∧ (s.sched.workers v).owns f :=
  State.set_cases (Q := (·.owns f)) hv

theorem pc_setWorker {v : W} {pc : Pc} (hv : ((s.setWorker w sh wk).sched.workers v).pc = pc) :
    v = w ∧ wk.pc = pc ∨ v ≠ w ∧ (s.sched.workers v).pc = pc :=
  State.set_cases (Q := (·.pc = pc)) hv

/-- A step that takes neither a wake-up nor a fiber, and leaves the fibers as they are. -/
theorem Safe.mono (h : Safe s) (htasks : ∀ e ∈ sh.tasks, e ∈ s.sched.shared.tasks)
    (hfibers : sh.fibers = s.sched.shared.fibers)
    (hnext : sh.nextFiber = s.sched.shared.nextFiber)
    (hcarries : ∀ f, wk.carries f → (s.sched.workers w).carries f)
    (howns : ∀ f, wk.owns f → (s.sched.workers w).owns f)
    (hinside : ∀ f event, wk.pc ≠ .inside f event) (hrequeue : ∀ f, wk.pc ≠ .requeue f) :
    Safe (s.setWorker w sh wk) := by
  have hat : ∀ p f, At (s.setWorker w sh wk) p f → At s p f := by
    intro p f hp
    rcases at_setWorker hp with ⟨rfl, hw⟩ | ⟨i, rfl, hi⟩ | ⟨-, -, hp⟩
    · exact hcarries f hw
    · exact htasks _ hi
    · exact hp
  have howned : ∀ v f, ((s.setWorker w sh wk).sched.workers v).owns f →
      (s.sched.workers v).owns f := by
    intro v f hv
    rcases owns_setWorker hv with ⟨rfl, hw⟩ | ⟨-, hw⟩
    · exact howns f hw
    · exact hw
  refine h.next (h.unique.mono hat) (fun p f hp => ⟨p, hat p f hp⟩) howned hfibers hnext rfl ?_ ?_ ?_
  · intro v f event hv
    rcases pc_setWorker hv with ⟨rfl, hw⟩ | ⟨-, hw⟩
    · exact absurd hw (hinside f event)
    · exact hw
  · exact fun u v f hu hv => h.apart u v f (howned u f hu) (hat (.carried v) f hv)
  · intro v f hv
    rcases pc_setWorker hv with ⟨rfl, hw⟩ | ⟨-, hw⟩
    · exact hrequeue f hw
    · exact h.noRequeue v f hw

omit [DecidableEq W] in
/-- An entry about to leave the queue, and a fiber nobody owns. -/
theorem Safe.head (h : Safe s) {e : Entry} {f : FiberId} (hmem : e ∈ s.sched.shared.tasks)
    (htask : e.task = .fiber f) (hskip : s.sched.shared.skips e = false) :
    At s (.queued e.id) f ∧ ∀ v, ¬ (s.sched.workers v).owns f := by
  have hqueued : At s (.queued e.id) f := by
    show (⟨e.id, .fiber f⟩ : Entry) ∈ s.sched.shared.tasks
    rw [← htask]
    exact hmem
  refine ⟨hqueued, ?_⟩
  intro v hv
  rcases h.state v f hv with hexec | hdone
  · rw [Shared.skips_iff.mpr ⟨f, htask, hexec⟩] at hskip
    cases hskip
  · rw [h.alive _ f hqueued] at hdone
    cases hdone

/-- The dequeue: the wake-up goes from the queue to the worker. No worker owns the
fiber, since its state is neither EXEC nor that of a fiber that has ended. -/
theorem Safe.pick (h : Safe s) (hnum : s.sched.shared.Numbered) {e : Entry} {rest : List Entry}
    (pc : (s.sched.workers w).pc = .scan)
    (found : s.sched.shared.scan s.sched.shared.tasks = some (e, rest)) :
    Safe (s.setWorker w (s.sched.shared.take e rest) { s.sched.workers w with pc := .picked e }) := by
  obtain ⟨hskip, pre, post, hl, rfl, -⟩ := Shared.scan_some found
  have hsub : ∀ x ∈ pre ++ post, x ∈ s.sched.shared.tasks := by
    intro x hx
    rw [hl]
    rcases List.mem_append.mp hx with hx | hx
    · exact List.mem_append_left _ hx
    · exact List.mem_append_right _ (List.mem_cons_of_mem _ hx)
  cases htask : e.task with
  | cb c =>
    refine h.mono hsub rfl rfl ?_ ?_ ?_ ?_
    · intro f hf
      exact absurd (htask.symm.trans hf) (by simp)
    · intro f hf
      exact hf.elim
    · intro f event hf
      cases hf
    · intro f hf
      cases hf
  | fiber f =>
    have hmem : e ∈ s.sched.shared.tasks := by
      rw [hl]
      exact List.mem_append_right _ List.mem_cons_self
    obtain ⟨hqueued, hnobody⟩ := h.head hmem htask hskip
    have hids : e.id ∉ (pre ++ post).map Entry.id := by
      have hnodup : s.sched.shared.ids.Nodup := hnum.sorted.imp fun hlt => Nat.ne_of_lt hlt
      rw [Shared.ids, hl, List.map_append, List.map_cons] at hnodup
      rw [List.map_append]
      exact (List.nodup_cons.mp (List.nodup_middle.mp hnodup)).1
    have hpicked : ∀ g, e.task = .fiber g → g = f := by
      intro g hg
      rw [htask] at hg
      cases hg
      rfl
    have hat : ∀ p g, At (s.setWorker w (s.sched.shared.take e (pre ++ post))
        { s.sched.workers w with pc := .picked e }) p g →
        p = .carried w ∧ g = f ∨ p ≠ .queued e.id ∧ At s p g := by
      intro p g hp
      rcases at_setWorker hp with ⟨rfl, hw⟩ | ⟨i, rfl, hi⟩ | ⟨-, hq, hp⟩
      · exact Or.inl ⟨rfl, hpicked g hw⟩
      · refine Or.inr ⟨?_, hsub _ hi⟩
        rintro ⟨⟩
        exact hids (List.mem_map.mpr ⟨_, hi, rfl⟩)
      · exact Or.inr ⟨hq _, hp⟩
    refine h.next (h.unique.move hqueued hat) (fun _ _ hp => had_of_move hqueued hat hp) ?_ rfl rfl
      rfl ?_ ?_ ?_
    · intro v g hv
      rcases owns_setWorker hv with ⟨rfl, hw⟩ | ⟨-, hw⟩
      · exact hw.elim
      · exact hw
    · intro v g event hv
      rcases pc_setWorker hv with ⟨rfl, hw⟩ | ⟨-, hw⟩
      · cases hw
      · exact hw
    · intro u v g hu hv
      rcases owns_setWorker hu with ⟨rfl, hw⟩ | ⟨-, hown⟩
      · exact hw.elim
      · rcases State.set_cases (Q := (·.carries g)) hv with ⟨rfl, hw⟩ | ⟨-, hw⟩
        · exact hnobody u (hpicked g hw ▸ hown)
        · exact h.apart u v g hown hw
    · intro v g hv
      rcases pc_setWorker hv with ⟨rfl, hw⟩ | ⟨-, hw⟩
      · cases hw
      · exact h.noRequeue v g hw

/-- The switch: the wake-up is used up and the worker owns the fiber. -/
theorem Safe.swapIn (h : Safe s) {e : Entry} {f : FiberId} {event : Bool}
    (pc : (s.sched.workers w).pc = .swapIn e f event) :
    Safe (s.setWorker w (s.sched.shared.start e f)
      { s.sched.workers w with pc := .inside f event }) := by
  have hcarried : At s (.carried w) f := by
    show (s.sched.workers w).carries f
    simp [Worker.carries, pc]
  have hat : ∀ p g, At (s.setWorker w (s.sched.shared.start e f)
      { s.sched.workers w with pc := .inside f event }) p g → At s p g ∧ g ≠ f := by
    intro p g hp
    rcases at_setWorker hp with ⟨-, hw⟩ | ⟨i, rfl, hi⟩ | ⟨hne, -, hold⟩
    · exact hw.elim
    · refine ⟨hi, ?_⟩
      rintro rfl
      cases h.unique (.queued i) _ g hi hcarried
    · refine ⟨hold, ?_⟩
      rintro rfl
      exact hne (h.unique p _ g hold hcarried)
  have hothers : ∀ g, g ≠ f → (s.sched.shared.start e f).fibers g = s.sched.shared.fibers g :=
    fun g hg => Shared.setState_of_ne hg
  have hself : (s.sched.shared.start e f).fibers f = .exec := Shared.setState_self _ _ _
  -- the owners now: the worker of `f`, the old ones of the others
  have howned : ∀ v g, ((s.setWorker w (s.sched.shared.start e f)
      { s.sched.workers w with pc := .inside f event }).sched.workers v).owns g →
      v = w ∧ g = f ∨ g ≠ f ∧ (s.sched.workers v).owns g := by
    intro v g hv
    rcases owns_setWorker hv with ⟨rfl, hw⟩ | ⟨-, hw⟩
    · exact Or.inl ⟨rfl, hw.symm⟩
    · refine Or.inr ⟨?_, hw⟩
      rintro rfl
      exact h.apart v w g hw hcarried
  constructor
  · exact h.unique.mono fun p g hp => (hat p g hp).1
  · intro p g hp
    obtain ⟨hp, hg⟩ := hat p g hp
    show ((s.sched.shared.start e f).fibers g).isDone = false
    rw [hothers g hg]
    exact h.alive p g hp
  · intro u v g hu hv
    rcases howned u g hu with ⟨rfl, rfl⟩ | ⟨hg, hu⟩
    · rcases howned v g hv with ⟨rfl, -⟩ | ⟨hg, -⟩
      · rfl
      · exact absurd rfl hg
    · rcases howned v g hv with ⟨rfl, rfl⟩ | ⟨-, hv⟩
      · exact absurd rfl hg
      · exact h.owner u v g hu hv
  · intro v g hv
    show (s.sched.shared.start e f).fibers g = .exec ∨
      ((s.sched.shared.start e f).fibers g).isDone = true
    rcases howned v g hv with ⟨-, rfl⟩ | ⟨hg, hv⟩
    · exact Or.inl hself
    · rw [hothers g hg]
      exact h.state v g hv
  · intro v g event' hv harmed p hp
    obtain ⟨hp, hg⟩ := hat p g hp
    rcases pc_setWorker hv with ⟨rfl, hw⟩ | ⟨-, hw⟩
    · cases hw
      exact hg rfl
    · exact h.unarmed v g event' hw harmed p hp
  · intro u v g hu hv
    obtain ⟨hv, hg⟩ := hat (.carried v) g hv
    rcases howned u g hu with ⟨-, rfl⟩ | ⟨-, hu⟩
    · exact hg rfl
    · exact h.apart u v g hu hv
  · intro g hg
    refine ⟨fun p hp => (h.fresh g hg).1 p (hat p g hp).1, ?_⟩
    intro v hv
    rcases howned v g hv with ⟨-, rfl⟩ | ⟨-, hv⟩
    · exact (h.fresh g hg).1 _ hcarried
    · exact (h.fresh g hg).2 v hv
  · intro v g hv
    rcases pc_setWorker hv with ⟨rfl, hw⟩ | ⟨-, hw⟩
    · cases hw
    · exact h.noRequeue v g hw

/-- A callback gets a new fiber, which nobody else knows yet. -/
theorem Safe.acceptCb (h : Safe s) (e : Entry) :
    Safe (s.setWorker w s.sched.shared.newFiber
      { s.sched.workers w with pc := .swapIn e s.sched.shared.nextFiber true }) := by
  refine h.create (q := .carried w) ?_ ?_ ?_ ?_ (Nat.lt_succ_self _) rfl ?_ ?_
  · intro p f hp
    rcases at_setWorker hp with ⟨rfl, hw⟩ | ⟨i, rfl, hi⟩ | ⟨-, -, hp⟩
    · exact Or.inl ⟨rfl, hw.symm⟩
    · exact Or.inr hi
    · exact Or.inr hp
  · intro v f hv
    rcases owns_setWorker hv with ⟨-, hw⟩ | ⟨-, hw⟩
    · exact hw.elim
    · exact hw
  · show ((s.sched.shared.setState s.sched.shared.nextFiber .init).fibers _).isDone = false
    rw [Shared.setState_self]
    rfl
  · exact fun f hf => Shared.setState_of_ne hf
  · intro v f event hv
    rcases pc_setWorker hv with ⟨-, hw⟩ | ⟨-, hw⟩
    · cases hw
    · exact hw
  · intro v f hv
    rcases pc_setWorker hv with ⟨-, hw⟩ | ⟨-, hw⟩
    · cases hw
    · exact h.noRequeue v f hw

/-- `m_state = HOLD`: the worker lets go of the fiber. -/
theorem Safe.hold (h : Safe s) {f : FiberId} (pc : (s.sched.workers w).pc = .hold f) :
    Safe (s.setWorker w (s.sched.shared.setState f .hold)
      { s.sched.workers w with pc := .scan }) := by
  have hown : (s.sched.workers w).owns f := by simp [Worker.owns, pc]
  have hat : ∀ p g, At (s.setWorker w (s.sched.shared.setState f .hold)
      { s.sched.workers w with pc := .scan }) p g → At s p g := by
    intro p g hp
    rcases at_setWorker hp with ⟨-, hw⟩ | ⟨i, rfl, hi⟩ | ⟨-, -, hp⟩
    · exact hw.elim
    · exact hi
    · exact hp
  have howned : ∀ v g, ((s.setWorker w (s.sched.shared.setState f .hold)
      { s.sched.workers w with pc := .scan }).sched.workers v).owns g →
      g ≠ f ∧ (s.sched.workers v).owns g := by
    intro v g hv
    rcases owns_setWorker hv with ⟨-, hw⟩ | ⟨hne, hw⟩
    · exact hw.elim
    · refine ⟨?_, hw⟩
      rintro rfl
      exact hne (h.owner v w g hw hown)
  constructor
  · exact h.unique.mono hat
  · intro p g hp
    show ((s.sched.shared.setState f .hold).fibers g).isDone = false
    by_cases hg : g = f
    · rw [hg, Shared.setState_self]
      rfl
    · rw [Shared.setState_of_ne hg]
      exact h.alive p g (hat p g hp)
  · exact fun u v g hu hv => h.owner u v g (howned u g hu).2 (howned v g hv).2
  · intro v g hv
    obtain ⟨hg, hv⟩ := howned v g hv
    show (s.sched.shared.setState f .hold).fibers g = .exec ∨
      ((s.sched.shared.setState f .hold).fibers g).isDone = true
    rw [Shared.setState_of_ne hg]
    exact h.state v g hv
  · intro v g event hv harmed p hp
    rcases pc_setWorker hv with ⟨-, hw⟩ | ⟨-, hw⟩
    · cases hw
    · exact h.unarmed v g event hw harmed p (hat p g hp)
  · exact fun u v g hu hv => h.apart u v g (howned u g hu).2 (hat (.carried v) g hv)
  · exact fun g hg => ⟨fun p hp => (h.fresh g hg).1 p (hat p g hp),
      fun v hv => (h.fresh g hg).2 v (howned v g hv).2⟩
  · intro v g hv
    rcases pc_setWorker hv with ⟨-, hw⟩ | ⟨-, hw⟩
    · cases hw
    · exact h.noRequeue v g hw

omit [DecidableEq W] in
/-- A worker is never asked to discard a fiber: the fiber it picked has not ended. -/
theorem Safe.not_done (h : Safe s) {e : Entry} {f : FiberId}
    (pc : (s.sched.workers w).pc = .picked e) (task : e.task = .fiber f) :
    (s.sched.shared.fibers f).isDone = false :=
  h.alive (.carried w) f (by simp [At, Worker.carries, pc, task])

/-- Every step of `run()`. -/
theorem Safe.run (h : Safe s) (hnum : s.sched.shared.Numbered)
    (hstep : RunStep s.sched.shared (s.sched.workers w) sh wk) : Safe (s.setWorker w sh wk) := by
  cases hstep with
  | pick pc found => exact h.pick hnum pc found
  | acceptCb pc task => exact h.acceptCb _
  | swapIn pc => exact h.swapIn pc
  | hold pc => exact h.hold pc
  | ready pc state =>
    -- nothing makes a fiber READY here
    rcases h.state w _ (by rw [Worker.owns, pc]) with hexec | hdone
    · rw [state] at hexec
      cases hexec
    · rw [state] at hdone
      cases hdone
  | requeue pc => exact absurd pc (h.noRequeue w _)
  | accept pc task _ =>
    refine h.mono (fun _ he => he) rfl rfl ?_ (fun _ hf => hf.elim) (by simp) (by simp)
    intro g hg
    obtain rfl : _ = g := hg
    simpa [Worker.carries, pc] using task
  | lower pc | suspended pc =>
    refine h.mono (fun _ he => he) rfl rfl (fun _ hf => hf.elim) ?_ (by simp) (by simp)
    intro g hg
    simpa [Worker.owns, pc] using hg
  | _ =>
    exact h.mono (fun _ he => he) rfl rfl (fun _ hf => hf.elim) (fun _ hf => hf.elim) (by simp)
      (by simp)

end Run

/-! ## The other steps -/

section Others
variable {s : State W} {w : W}

omit [DecidableEq W] in
/-- `addEvent`: the running fiber had no wake-up under way and now has one. -/
theorem Safe.addEvent (h : Safe s) {f : FiberId} {event : Bool} (fd : Nat) (ev : Event)
    (pc : (s.sched.workers w).pc = .inside f event) (exec : s.sched.shared.fibers f = .exec)
    (unarmed : s.armed f = false) :
    Safe { s with
      slots := setSlot s.slots fd ev (some ⟨s.regs.length, f⟩)
      armed := Function.update s.armed f true
      regs := s.regs ++ [f] } := by
  have hnone := h.unarmed w f event pc unarmed
  have hown : (s.sched.workers w).owns f := by simp [Worker.owns, pc]
  have hat : ∀ p g, At { s with
      slots := setSlot s.slots fd ev (some ⟨s.regs.length, f⟩)
      armed := Function.update s.armed f true
      regs := s.regs ++ [f] } p g → p = .slot fd ev ∧ g = f ∨ At s p g := by
    intro p g hp
    cases p with
    | slot fd' ev' =>
      obtain ⟨r, hr, hg⟩ := hp
      rcases setSlot_cases hr with ⟨he, hnew⟩ | ⟨-, hold⟩
      · cases he
        cases hnew
        exact Or.inl ⟨rfl, hg.symm⟩
      · exact Or.inr ⟨r, hold, hg⟩
    | waking fd' => exact Or.inr hp
    | queued i => exact Or.inr hp
    | carried v => exact Or.inr hp
  constructor
  · exact h.unique.create hnone hat
  · intro p g hp
    rcases hat p g hp with ⟨-, rfl⟩ | hp
    · show (s.sched.shared.fibers g).isDone = false
      rw [exec]
      rfl
    · exact h.alive p g hp
  · exact h.owner
  · exact h.state
  · intro v g event' hpc hg p hp
    have hne : g ≠ f := by
      rintro rfl
      have htrue : Function.update s.armed g true g = false := hg
      rw [Function.update_self] at htrue
      cases htrue
    have harmed : Function.update s.armed f true g = false := hg
    rw [Function.update_of_ne hne] at harmed
    rcases hat p g hp with ⟨-, rfl⟩ | hp
    · exact hne rfl
    · exact h.unarmed v g event' hpc harmed p hp
  · exact h.apart
  · intro g hg
    refine ⟨?_, (h.fresh g hg).2⟩
    intro p hp
    rcases hat p g hp with ⟨-, rfl⟩ | hp
    · exact (h.fresh g hg).2 w hown
    · exact (h.fresh g hg).1 p hp
  · exact h.noRequeue

theorem Safe.swapOut (h : Safe s) {f : FiberId} {event : Bool}
    (pc : (s.sched.workers w).pc = .inside f event) :
    Safe { s with
      sched := s.sched.set w s.sched.shared { s.sched.workers w with pc := .back f event }
      armed := Function.update s.armed f false } := by
  have hown : (s.sched.workers w).owns f := by simp [Worker.owns, pc]
  have hback : Safe (s.setWorker w s.sched.shared { s.sched.workers w with pc := .back f event }) := by
    refine h.mono (fun _ he => he) rfl rfl (fun _ hg => hg.elim) ?_ (by simp) (by simp)
    intro g hg
    obtain rfl : f = g := hg
    exact hown
  refine ⟨hback.unique, hback.alive, hback.owner, hback.state, ?_, hback.apart, hback.fresh,
    hback.noRequeue⟩
  intro v g event' hv hg p hp
  rcases pc_setWorker hv with ⟨-, hw⟩ | ⟨hne, hw⟩
  · cases hw
  · have hgf : g ≠ f := by
      rintro rfl
      exact hne (h.owner v w g (by simp [Worker.owns, hw]) hown)
    have harmed : Function.update s.armed f false g = false := hg
    rw [Function.update_of_ne hgf] at harmed
    exact hback.unarmed v g event' hv harmed p hp

omit [DecidableEq W] in
theorem Safe.finish (h : Safe s) {f : FiberId} {event : Bool} {st : FiberState}
    (pc : (s.sched.workers w).pc = .inside f event) (unarmed : s.armed f = false)
    (done : st.isDone = true) : Safe (s.withShared (s.sched.shared.setState f st)) := by
  have hnone := h.unarmed w f event pc unarmed
  refine ⟨h.unique, ?_, h.owner, ?_, h.unarmed, h.apart, h.fresh, h.noRequeue⟩
  · intro p g hp
    have hg : g ≠ f := by
      rintro rfl
      exact hnone p hp
    show ((s.sched.shared.setState f st).fibers g).isDone = false
    rw [Shared.setState_of_ne hg]
    exact h.alive p g hp
  · intro v g hv
    show (s.sched.shared.setState f st).fibers g = .exec ∨
      ((s.sched.shared.setState f st).fibers g).isDone = true
    by_cases hg : g = f
    · rw [hg, Shared.setState_self]
      exact Or.inr done
    · rw [Shared.setState_of_ne hg]
      exact h.state v g hv

omit [DecidableEq W] in
/-- `cancelEvent`, first half: the wake-up goes from the slot to the canceller. -/
theorem Safe.clear (h : Safe s) {fd : Nat} {ev : Event} {r : Registration}
    (registered : s.slots fd ev = some r) :
    Safe { s with
      slots := setSlot s.slots fd ev none
      waking := Function.update s.waking fd (some r) } := by
  have hslot : At s (.slot fd ev) r.fiber := ⟨r, registered, rfl⟩
  have hat : ∀ p g, At { s with
      slots := setSlot s.slots fd ev none
      waking := Function.update s.waking fd (some r) } p g →
      p = .waking fd ∧ g = r.fiber ∨ p ≠ .slot fd ev ∧ At s p g := by
    intro p g hp
    cases p with
    | slot fd' ev' =>
      obtain ⟨r', hr, hg⟩ := hp
      rcases setSlot_cases hr with ⟨-, hnew⟩ | ⟨he, hold⟩
      · cases hnew
      · exact Or.inr ⟨fun hp => he (by cases hp; rfl), r', hold, hg⟩
    | waking fd' =>
      obtain ⟨r', hr, hg⟩ := hp
      rcases setWaking_cases hr with ⟨rfl, hnew⟩ | ⟨-, hold⟩
      · cases hnew
        exact Or.inl ⟨rfl, hg.symm⟩
      · exact Or.inr ⟨by simp, r', hold, hg⟩
    | queued i => exact Or.inr ⟨by simp, hp⟩
    | carried v => exact Or.inr ⟨by simp, hp⟩
  exact h.next (h.unique.move hslot hat) (fun _ _ hp => had_of_move hslot hat hp)
    (fun _ _ hv => hv) rfl rfl rfl (fun _ _ _ hv => hv) h.apart h.noRequeue

omit [DecidableEq W] in
/-- `cancelEvent`, second half: it goes on to the queue. -/
theorem Safe.wake (h : Safe s) {fd : Nat} {r : Registration} (locked : s.waking fd = some r) :
    Safe { s.withShared (s.sched.shared.push (.fiber r.fiber)) with
      waking := Function.update s.waking fd none
      woken := s.woken ++ [r] } := by
  have hwaking : At s (.waking fd) r.fiber := ⟨r, locked, rfl⟩
  have hat : ∀ p g, At { s.withShared (s.sched.shared.push (.fiber r.fiber)) with
      waking := Function.update s.waking fd none
      woken := s.woken ++ [r] } p g →
      p = .queued s.sched.shared.pushed ∧ g = r.fiber ∨ p ≠ .waking fd ∧ At s p g := by
    intro p g hp
    cases p with
    | slot fd' ev' => exact Or.inr ⟨by simp, hp⟩
    | waking fd' =>
      obtain ⟨r', hr, hg⟩ := hp
      rcases setWaking_cases hr with ⟨-, hnew⟩ | ⟨he, hold⟩
      · cases hnew
      · exact Or.inr ⟨by simpa using he, r', hold, hg⟩
    | queued i =>
      rcases List.mem_append.mp hp with hp | hp
      · exact Or.inr ⟨by simp, hp⟩
      · cases List.mem_singleton.mp hp
        exact Or.inl ⟨rfl, rfl⟩
    | carried v => exact Or.inr ⟨by simp, hp⟩
  exact h.next (h.unique.move hwaking hat) (fun _ _ hp => had_of_move hwaking hat hp)
    (fun _ _ hv => hv) rfl rfl rfl (fun _ _ _ hv => hv) h.apart h.noRequeue

omit [DecidableEq W] in
/-- A callback in the queue is nobody's wake-up. -/
theorem Safe.scheduleCb (h : Safe s) (c : Callback) :
    Safe (s.withShared (s.sched.shared.push (.cb c))) := by
  have hat : ∀ p g, At (s.withShared (s.sched.shared.push (.cb c))) p g → At s p g := by
    intro p g hp
    cases p with
    | slot fd' ev' => exact hp
    | waking fd' => exact hp
    | queued i =>
      rcases List.mem_append.mp hp with hp | hp
      · exact hp
      · cases List.mem_singleton.mp hp
    | carried v => exact hp
  exact h.next (h.unique.mono hat) (fun p g hp => ⟨p, hat p g hp⟩) (fun _ _ hv => hv) rfl rfl rfl
    (fun _ _ _ hv => hv) h.apart h.noRequeue

omit [DecidableEq W] in
/-- `schedule` of a fiber that was just made. -/
theorem Safe.spawn (h : Safe s) :
    Safe (s.withShared (s.sched.shared.newFiber.push (.fiber s.sched.shared.nextFiber))) := by
  refine h.create (q := .queued s.sched.shared.pushed) ?_ (fun _ _ hv => hv) ?_ ?_
    (Nat.lt_succ_self _) rfl (fun _ _ _ hv => hv) h.noRequeue
  · intro p g hp
    cases p with
    | slot fd' ev' => exact Or.inr hp
    | waking fd' => exact Or.inr hp
    | queued i =>
      rcases List.mem_append.mp hp with hp | hp
      · exact Or.inr hp
      · cases List.mem_singleton.mp hp
        exact Or.inl ⟨rfl, rfl⟩
    | carried v => exact Or.inr hp
  · show ((s.sched.shared.setState s.sched.shared.nextFiber .init).fibers _).isDone = false
    rw [Shared.setState_self]
    rfl
  · exact fun f hf => Shared.setState_of_ne hf

theorem Safe.enter (h : Safe s) {caller : Option W} {sched : Scheduler.State W}
    (hstep : Scheduler.Step caller s.sched (.enter w) sched) : Safe { s with sched := sched } := by
  cases hstep with
  | enter pc _ | enterCaller pc _ _ _ | skipCaller pc _ _ =>
    exact h.mono (fun _ he => he) rfl rfl (fun _ hf => hf.elim) (fun _ hf => hf.elim) (by simp)
      (by simp)

omit [DecidableEq W] in
theorem Safe.flag (h : Safe s) {sh : Shared} (hstep : StopStep s.sched.shared sh) :
    Safe (s.withShared sh) := by
  cases hstep with
  | autostop | stopping _ | busy _ =>
    exact ⟨h.unique, h.alive, h.owner, h.state, h.unarmed, h.apart, h.fresh, h.noRequeue⟩

theorem Safe.step (h : Safe s) (hnum : s.sched.shared.Numbered) {caller : Option W}
    {l : Label W} {s' : State W} (hstep : Step caller s l s') : Safe s' := by
  cases hstep with
  | run step => exact h.run hnum step
  | enter step => exact h.enter step
  | flag step => exact h.flag step
  | spawn => exact h.spawn
  | scheduleCb c => exact h.scheduleCb c
  | addEvent fd ev pc exec unarmed _ _ => exact h.addEvent fd ev pc exec unarmed
  | swapOut pc _ => exact h.swapOut pc
  | finish st pc unarmed done => exact h.finish pc unarmed done
  | clear fd ev _ registered => exact h.clear registered
  | wake fd locked => exact h.wake locked

end Others

end Wake
end TwServer
