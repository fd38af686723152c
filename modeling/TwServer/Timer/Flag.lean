import TwServer.Lib.Runs
import TwServer.Timer.Lifecycle

/-! `m_flag`, which keeps `addTimer` from calling `addTimerFront` twice, and what it
hides. Threads take the manager's lock one after another; outside it they read
the clock and call `addTimerFront`. -/

namespace TwServer
open Programs Runs OrderedSet

namespace TimerManager

/-! ## The front of the set -/

/-- The deadline of `*m_timers.begin()`; none when the set is empty. -/
def earliest (m : TimerManager) : Option Nat := m.timers.head?.map fun t => (m.heap t).next

section
variable {m m' : TimerManager} {t : TimerId}

theorem Ordered.head_le (h : Ordered m) {d : Nat} (hd : m.earliest = some d) (ht : t ∈ m.timers) :
    d ≤ (m.heap t).next := by
  unfold earliest at hd
  have hsorted := h.sorted
  cases hl : m.timers with
  | nil =>
    rw [hl] at ht
    cases ht
  | cons u l =>
    rw [hl] at hd ht hsorted
    obtain rfl : (m.heap u).next = d := Option.some.inj hd
    rcases List.mem_cons.mp ht with rfl | ht
    · exact Nat.le_refl _
    · have := before_iff.mp ((List.pairwise_cons.mp hsorted).1 t ht)
      omega

/-- An inserted timer that is not at the front comes after some other. -/
theorem head_of_insert (h : Sorted m.before m.timers) (hfront : (m.insert t).timers.head? ≠ some t) :
    ∃ u ∈ m.timers, (m.heap u).next ≤ (m.heap t).next := by
  have hsorted := sorted_insert (t := t) h
  have hmem : t ∈ (m.insert t).timers := mem_insert.mpr (Or.inl rfl)
  cases hl : (m.insert t).timers with
  | nil =>
    rw [hl] at hmem
    cases hmem
  | cons u l =>
    rw [hl] at hfront hmem hsorted
    have hne : t ≠ u := by
      rintro rfl
      exact hfront rfl
    have hu : u ∈ m.timers := by
      have hmem' : u ∈ (m.insert t).timers := by
        rw [hl]
        exact List.mem_cons_self
      exact (mem_insert.mp hmem').resolve_left hne.symm
    refine ⟨u, hu, ?_⟩
    have ht := (List.mem_cons.mp hmem).resolve_left hne
    have hbefore : m.before u t = true := (List.pairwise_cons.mp hsorted).1 t ht
    have := before_iff.mp hbefore
    omega

/-- What `addTimer` leaves in `m_flag`, and what it means that it does not notify. -/
theorem addTimer_flag (h : Sorted m.before m.timers) {front : Bool}
    (run : addTimer t m = .ok front m') :
    m'.flag = (m.flag || front) ∧ (m.flag = true → front = false) ∧
      (m.flag = false → front = false → ∃ u ∈ m.timers, (m.heap u).next ≤ (m.heap t).next) := by
  cases run
  refine ⟨rfl, ?_, ?_⟩
  · intro hflag
    rw [hflag]
    simp
  · intro hflag hfront
    refine head_of_insert h ?_
    intro hhead
    simp [hflag, hhead] at hfront

/-! ## The flag in the other operations -/

theorem cancel_flag {rt : Bool} (run : cancel t m = .ok rt m') : m'.flag = m.flag := by
  unfold cancel at run
  split at run
  · dsimp only at run
    split at run
    · cases run
    · cases run
      rfl
  · cases run
    rfl

theorem refresh_flag {now : Nat} {rt : Bool} (run : refresh t now m = .ok rt m') :
    m'.flag = m.flag := by
  unfold refresh at run
  split at run
  · cases run
    rfl
  · split at run
    · cases run
      rfl
    · cases run
      rfl

theorem expire_flag {now : Nat} {ts : List TimerId} : (expire now ts m).2.flag = m.flag := by
  induction ts generalizing m with
  | nil => rfl
  | cons t ts ih =>
    have hrearm : (m.rearm now t).flag = m.flag := by
      unfold rearm
      dsimp only
      split <;> rfl
    exact ih.trans hrearm

theorem listExpiredCb_flag {now : Nat} {probe : TimerId} {cbs : List (Option Callback)}
    (run : listExpiredCb now probe m = .ok cbs m') : m'.flag = m.flag := by
  unfold listExpiredCb at run
  split at run
  · cases run
    rfl
  · cases run
    exact expire_flag

/-- The timer's fields after `reset`. -/
def resetTimer (now ms : Nat) (fromNow : Bool) (x : Timer) : Timer :=
  { x with ms := ms, next :=
      if fromNow then addMs now ms else (x.next + (2 ^ 64 - x.ms) + ms) % 2 ^ 64 }

/-- `reset` of a pending timer takes it out and adds it again. -/
theorem Ordered.reset_cases (h : Ordered m) {now ms : Nat} {fromNow rt front : Bool}
    (run : TimerManager.reset t now ms fromNow m = .ok (rt, front) m') :
    (t ∉ m.timers ∧ front = false ∧ m' = m) ∨
      (t ∈ m.timers ∧
        addTimer t ((m.erase t).setTimer t (resetTimer now ms fromNow (m.heap t))) =
          .ok front m') := by
  unfold TimerManager.reset at run
  cases hcb : (m.heap t).cb with
  | none =>
    rw [hcb] at run
    cases run
    refine Or.inl ⟨fun ht => ?_, rfl, rfl⟩
    have hsome := h.pending.mpr ht
    rw [hcb] at hsome
    cases hsome
  | some c =>
    have ht : t ∈ m.timers := h.pending.mp (by rw [hcb]; rfl)
    refine Or.inr ⟨ht, ?_⟩
    rw [hcb, find_eq h.sorted ht] at run
    cases run
    rfl

end
end TimerManager

/-! ## Threads -/

namespace Flag

/-- Where a thread stands outside the lock. -/
inductive Pc where
  | idle
  /-- in `addTimer(ms, cb, recurring)`, the timer was made at the clock reading `now` -/
  | made (now ms : Nat) (cb : Callback) (recurring : Bool)
  /-- `atFrontFlag` is set and the lock released -/
  | front
  /-- in `listExpiredCb`, the clock has been read -/
  | read (now : Nat)
  /-- and the set was not empty under the read lock -/
  | expiring (now : Nat)

/-- What the history keeps, newest first. -/
inductive Entry where
  | getNextTime (earliest : Option Nat)
  /-- an `addTimer` or `reset` of thread `i` set `m_flag` -/
  | flagged (i : Nat)
  | addTimerFront (i : Nat)

structure State where
  manager : TimerManager
  clock : Nat
  pc : Nat → Pc
  history : List Entry

/-- The earliest deadline the most recent `getNextTime` saw; none for infinity. -/
def lastSeen : List Entry → Option Nat
  | [] => none
  | .getNextTime earliest :: _ => earliest
  | _ :: es => lastSeen es

/-- The entries since the most recent `getNextTime`. -/
def since : List Entry → List Entry
  | [] => []
  | .getNextTime _ :: _ => []
  | e :: es => e :: since es

namespace State

def goto (i : Nat) (pc : Pc) (s : State) : State := { s with pc := Function.update s.pc i pc }

def locked (m : TimerManager) (s : State) : State := { s with manager := m }

/-- Thread `i` leaves `addTimer(timer, lock)` up to its unlocking. -/
def added (i : Nat) (front : Bool) (m : TimerManager) (s : State) : State :=
  if front then { (s.locked m).goto i .front with history := .flagged i :: s.history }
  else (s.locked m).goto i .idle

end State

/-- Since the most recent `getNextTime` an `addTimer` or `reset` has set the flag
whose thread is about to call `addTimerFront` or has called it. -/
def Notified (pc : Nat → Pc) (history : List Entry) : Prop :=
  ∃ i later earlier, since history = later ++ .flagged i :: earlier ∧
    (pc i = .front ∨ .addTimerFront i ∈ later)

inductive Label where
  | tick
  | make (i : Nat)
  | addTimer (i : Nat)
  | addTimerFront (i : Nat)
  | cancel (i : Nat)
  | refresh (i : Nat) (t : TimerId)
  | reset (i : Nat) (t : TimerId) (ms : Nat) (fromNow : Bool)
  | getNextTime (i : Nat)
  | readClock (i : Nat)
  | peek (i : Nat)
  | listExpiredCb (i : Nat)

inductive Step : State → Label → State → Prop
  | tick {s : State} (clock : Nat) (forward : s.clock ≤ clock) :
      Step s .tick { s with clock := clock }
  | make {s : State} (i ms : Nat) (cb : Callback) (recurring : Bool) (pc : s.pc i = .idle) :
      Step s (.make i) (s.goto i (.made s.clock ms cb recurring))
  | addTimer {s : State} {front : Bool} {m : TimerManager} {now ms : Nat} {cb : Callback}
      {recurring : Bool} (i : Nat) (t : TimerId) (pc : s.pc i = .made now ms cb recurring)
      (fresh : t ∉ s.manager.timers)
      (run : TimerManager.addNewTimer t now ms cb recurring s.manager = .ok front m) :
      Step s (.addTimer i) (s.added i front m)
  | addTimerFront {s : State} (i : Nat) (pc : s.pc i = .front) :
      Step s (.addTimerFront i)
        { s.goto i .idle with history := .addTimerFront i :: s.history }
  | cancel {s : State} {rt : Bool} {m : TimerManager} (i : Nat) (t : TimerId)
      (pc : s.pc i = .idle) (run : TimerManager.cancel t s.manager = .ok rt m) :
      Step s (.cancel i) (s.locked m)
  | refresh {s : State} {rt : Bool} {m : TimerManager} (i : Nat) (t : TimerId)
      (pc : s.pc i = .idle) (run : TimerManager.refresh t s.clock s.manager = .ok rt m) :
      Step s (.refresh i t) (s.locked m)
  | reset {s : State} {rt front : Bool} {m : TimerManager} (i : Nat) (t : TimerId) (ms : Nat)
      (fromNow : Bool) (pc : s.pc i = .idle)
      (run : TimerManager.reset t s.clock ms fromNow s.manager = .ok (rt, front) m) :
      Step s (.reset i t ms fromNow) (s.added i front m)
  | getNextTime {s : State} {n : Nat} {m : TimerManager} (i : Nat) (pc : s.pc i = .idle)
      (run : TimerManager.getNextTime s.clock s.manager = .ok n m) :
      Step s (.getNextTime i)
        { s.locked m with history := .getNextTime s.manager.earliest :: s.history }
  | readClock {s : State} (i : Nat) (pc : s.pc i = .idle) :
      Step s (.readClock i) (s.goto i (.read s.clock))
  | peek {s : State} {now : Nat} (i : Nat) (pc : s.pc i = .read now) :
      Step s (.peek i)
        (s.goto i (if s.manager.timers.isEmpty then .idle else .expiring now))
  | listExpiredCb {s : State} {now : Nat} {cbs : List (Option Callback)} {m : TimerManager}
      (i : Nat) (probe : TimerId) (pc : s.pc i = .expiring now)
      (run : TimerManager.listExpiredCb now probe s.manager = .ok cbs m) :
      Step s (.listExpiredCb i) ((s.locked m).goto i .idle)

def init (s : State) : Prop :=
  s.manager.timers = [] ∧ (∀ t, (s.manager.heap t).cb = none) ∧ s.manager.flag = false ∧
    (∀ i, s.pc i = .idle) ∧ s.history = []

def machine : System State Label := ⟨init, Step⟩

/-- The deadlines the step computes are below 2^64. -/
def NoOverflow (s : State) : Label → Prop
  | .addTimer i => ∀ now ms cb recurring, s.pc i = .made now ms cb recurring → now + ms < 2 ^ 64
  | .refresh _ t => s.clock + (s.manager.heap t).ms < 2 ^ 64
  | .reset _ t ms fromNow =>
    if fromNow then s.clock + ms < 2 ^ 64
    else (s.manager.heap t).next + ms < 2 ^ 64 + (s.manager.heap t).ms
  | .listExpiredCb i => ∀ now, s.pc i = .expiring now → ∀ t ∈ s.manager.timers,
      (s.manager.heap t).next ≤ now → (s.manager.heap t).recurring = true →
        now + (s.manager.heap t).ms < 2 ^ 64
  | _ => True

/-! ## Deadlines only move later -/

/-- The timer was last started at a clock reading that is not after `clock`. -/
def Started (clock : Nat) (x : Timer) : Prop :=
  x.ms ≤ x.next ∧ x.next ≤ clock + x.ms ∧ x.next < 2 ^ 64

/-- From `m` to `m'` with `m_flag` left false no deadline has come up that is
earlier than all those before. -/
structure Evolves (clock : Nat) (m m' : TimerManager) : Prop where
  ordered : m'.Ordered
  started : ∀ t ∈ m'.timers, Started clock (m'.heap t)
  flag : m.flag = true → m'.flag = true
  later : m'.flag = false → ∀ t ∈ m'.timers, ∃ u ∈ m.timers, (m.heap u).next ≤ (m'.heap t).next

section
variable {m m' : TimerManager} {clock now : Nat} {t : TimerId}

theorem Started.mono {x : Timer} {clock' : Nat} (h : Started clock x) (hle : clock ≤ clock') :
    Started clock' x := ⟨h.1, Nat.le_trans h.2.1 (Nat.add_le_add_right hle _), h.2.2⟩

theorem started_of_addMs {x : Timer} (hx : x.next = addMs now x.ms) (hnow : now ≤ clock)
    (hfit : now + x.ms < 2 ^ 64) : x.next = now + x.ms ∧ Started clock x := by
  have hnext : x.next = now + x.ms := hx.trans (Nat.mod_eq_of_lt hfit)
  unfold Started
  omega

/-- Taking timers away and pushing deadlines back. -/
theorem Evolves.of_le (hord : m'.Ordered) (hflag : m'.flag = m.flag)
    (hle : ∀ t ∈ m'.timers, t ∈ m.timers ∧ (m.heap t).next ≤ (m'.heap t).next ∧
      Started clock (m'.heap t)) : Evolves clock m m' where
  ordered := hord
  started t ht := (hle t ht).2.2
  flag h := hflag.trans h
  later _ t ht := ⟨t, (hle t ht).1, (hle t ht).2.1⟩

/-- `addTimer` of a timer outside the set. -/
theorem Evolves.addTimer {front : Bool} (hwithout : m.Without t [])
    (hcb : (m.heap t).cb.isSome = true) (hstarted : ∀ u ∈ m.timers, Started clock (m.heap u))
    (ht : Started clock (m.heap t)) (run : TimerManager.addTimer t m = .ok front m') :
    Evolves clock m m' := by
  have hord := hwithout.addTimer hcb run
  obtain ⟨hflag, htrue, hfalse⟩ := TimerManager.addTimer_flag hwithout.sorted run
  have hheap : m'.heap = m.heap := by
    cases run
    rfl
  have hmem : ∀ u ∈ m'.timers, u = t ∨ u ∈ m.timers := by
    cases run
    exact fun u hu => TimerManager.mem_insert.mp hu
  refine ⟨hord, ?_, ?_, ?_⟩
  · intro u hu
    rw [hheap]
    rcases hmem u hu with rfl | hu
    · exact ht
    · exact hstarted u hu
  · intro h
    rw [hflag, h, Bool.true_or]
  · intro h u hu
    rw [hflag, Bool.or_eq_false_iff] at h
    rw [hheap]
    rcases hmem u hu with rfl | hu
    · exact hfalse h.1 h.2
    · exact ⟨u, hu, Nat.le_refl _⟩

theorem evolves_addNewTimer (h : m.Ordered) (hstarted : ∀ u ∈ m.timers, Started clock (m.heap u))
    (hfresh : t ∉ m.timers) {ms : Nat} {cb : Callback} {recurring front : Bool}
    (hnow : now ≤ clock) (hfit : now + ms < 2 ^ 64)
    (run : TimerManager.addNewTimer t now ms cb recurring m = .ok front m') :
    Evolves clock m m' := by
  have hne : ∀ u ∈ m.timers, u ≠ t := by
    rintro u hu rfl
    exact hfresh hu
  let x := Timer.new now ms cb recurring
  have hself : (m.setTimer t x).heap t = x := TimerManager.setTimer_heap_self x
  have hother : ∀ u ∈ m.timers, (m.setTimer t x).heap u = m.heap u :=
    fun u hu => TimerManager.setTimer_heap_of_ne x (hne u hu)
  have hevolves : Evolves clock (m.setTimer t x) m' := by
    refine Evolves.addTimer ((h.without hfresh).setTimer x) ?_ ?_ ?_ run
    · rw [hself]
      rfl
    · intro u hu
      rw [hother u hu]
      exact hstarted u hu
    · rw [hself]
      exact (started_of_addMs rfl hnow hfit).2
  refine ⟨hevolves.ordered, hevolves.started, hevolves.flag, ?_⟩
  intro hflag u hu
  obtain ⟨v, hv, hle⟩ := hevolves.later hflag u hu
  rw [hother v hv] at hle
  exact ⟨v, hv, hle⟩

theorem evolves_cancel (h : m.Ordered) (hstarted : ∀ u ∈ m.timers, Started clock (m.heap u))
    {rt : Bool} (run : TimerManager.cancel t m = .ok rt m') : Evolves clock m m' := by
  obtain ⟨_, hrun, hord, hheap⟩ := h.cancel t
  have hflag := TimerManager.cancel_flag run
  rw [hrun] at run
  cases run
  refine Evolves.of_le hord hflag ?_
  intro u hu
  have hcb := hord.pending.mpr hu
  rw [hheap] at hcb ⊢
  rcases Decidable.em (u = t) with rfl | hut
  · rw [Function.update_self] at hcb
    cases hcb
  · rw [Function.update_of_ne hut] at hcb ⊢
    have hmem := h.pending.mp hcb
    exact ⟨hmem, Nat.le_refl _, hstarted u hmem⟩

theorem evolves_refresh (h : m.Ordered) (hstarted : ∀ u ∈ m.timers, Started clock (m.heap u))
    {rt : Bool} (hfit : clock + (m.heap t).ms < 2 ^ 64)
    (run : TimerManager.refresh t clock m = .ok rt m') : Evolves clock m m' := by
  obtain ⟨_, hrun, hord, hheap⟩ := h.refresh t clock
  have hflag := TimerManager.refresh_flag run
  rw [hrun] at run
  cases run
  refine Evolves.of_le hord hflag ?_
  intro u hu
  have hcb := hord.pending.mpr hu
  rw [hheap] at hcb ⊢
  split at hcb
  · rename_i hpending
    rw [if_pos hpending]
    rcases Decidable.em (u = t) with rfl | hut
    · have hmem := h.pending.mp hpending
      have hold := (hstarted u hmem).2.1
      rw [Function.update_self]
      obtain ⟨hnext, hst⟩ := started_of_addMs
        (x := { m.heap u with next := addMs clock (m.heap u).ms }) rfl (Nat.le_refl clock) hfit
      refine ⟨hmem, ?_, hst⟩
      rw [hnext]
      exact hold
    · rw [Function.update_of_ne hut] at hcb ⊢
      have hmem := h.pending.mp hcb
      exact ⟨hmem, Nat.le_refl _, hstarted u hmem⟩
  · rename_i hpending
    rw [if_neg hpending]
    have hmem := h.pending.mp hcb
    exact ⟨hmem, Nat.le_refl _, hstarted u hmem⟩

theorem started_reset {x : Timer} {ms : Nat} {fromNow : Bool} (hx : Started clock x)
    (hfit : if fromNow then clock + ms < 2 ^ 64 else x.next + ms < 2 ^ 64 + x.ms) :
    Started clock (TimerManager.resetTimer clock ms fromNow x) := by
  obtain ⟨hms, hclock, hlt⟩ := hx
  unfold TimerManager.resetTimer
  cases fromNow with
  | true =>
    have hfit' : clock + ms < 2 ^ 64 := hfit
    exact (started_of_addMs (x := { x with ms := ms, next := addMs clock ms }) rfl
      (Nat.le_refl clock) hfit').2
  | false =>
    have hfit' : x.next + ms < 2 ^ 64 + x.ms := hfit
    have hsum : x.next + (2 ^ 64 - x.ms) + ms = (x.next - x.ms + ms) + 2 ^ 64 := by omega
    have hnext : (x.next + (2 ^ 64 - x.ms) + ms) % 2 ^ 64 = x.next - x.ms + ms := by
      rw [hsum, Nat.add_mod_right, Nat.mod_eq_of_lt (by omega)]
    simp only [Bool.false_eq_true, ↓reduceIte, Started, hnext]
    omega

theorem evolves_reset (h : m.Ordered) (hstarted : ∀ u ∈ m.timers, Started clock (m.heap u))
    {ms : Nat} {fromNow rt front : Bool}
    (hfit : if fromNow then clock + ms < 2 ^ 64
      else (m.heap t).next + ms < 2 ^ 64 + (m.heap t).ms)
    (run : TimerManager.reset t clock ms fromNow m = .ok (rt, front) m') :
    Evolves clock m m' := by
  rcases h.reset_cases run with ⟨-, -, rfl⟩ | ⟨ht, hadd⟩
  · exact Evolves.of_le h rfl fun u hu => ⟨hu, Nat.le_refl _, hstarted u hu⟩
  · let x := TimerManager.resetTimer clock ms fromNow (m.heap t)
    have hout : ∀ u ∈ (m.erase t).timers, u ≠ t ∧ u ∈ m.timers :=
      fun u hu => h.nodup.mem_erase_iff.mp hu
    have hself : ((m.erase t).setTimer t x).heap t = x := TimerManager.setTimer_heap_self x
    have hother : ∀ u ∈ (m.erase t).timers, ((m.erase t).setTimer t x).heap u = m.heap u :=
      fun u hu => TimerManager.setTimer_heap_of_ne x (hout u hu).1
    have hevolves : Evolves clock ((m.erase t).setTimer t x) m' := by
      refine Evolves.addTimer ((h.erase ht).without.setTimer x) ?_ ?_ ?_ hadd
      · rw [hself]
        exact h.pending.mpr ht
      · intro u hu
        rw [hother u hu]
        exact hstarted u (hout u hu).2
      · rw [hself]
        exact started_reset (hstarted t ht) hfit
    refine ⟨hevolves.ordered, hevolves.started, hevolves.flag, ?_⟩
    intro hflag u hu
    obtain ⟨v, hv, hle⟩ := hevolves.later hflag u hu
    rw [hother v hv] at hle
    exact ⟨v, (hout v hv).2, hle⟩

theorem evolves_listExpiredCb (h : m.Ordered)
    (hstarted : ∀ u ∈ m.timers, Started clock (m.heap u)) (hnow : now ≤ clock)
    (hfit : ∀ t ∈ m.timers, (m.heap t).next ≤ now → (m.heap t).recurring = true →
      now + (m.heap t).ms < 2 ^ 64) {probe : TimerId} {cbs : List (Option Callback)}
    (run : TimerManager.listExpiredCb now probe m = .ok cbs m') : Evolves clock m m' := by
  obtain ⟨_, hrun, hord, hheap⟩ := h.listExpiredCb now probe
  have hflag := TimerManager.listExpiredCb_flag run
  rw [hrun] at run
  cases run
  refine Evolves.of_le hord hflag ?_
  intro u hu
  have hcb := hord.pending.mpr hu
  rw [hheap] at hcb ⊢
  rcases Decidable.em (u ∈ m.expired now probe) with hdue | hdue
  · obtain ⟨hmem, hle⟩ := (h.expired now probe).2 u hdue
    rw [if_pos hdue] at hcb ⊢
    unfold TimerManager.afterExpiry at hcb ⊢
    cases hrec : (m.heap u).recurring with
    | false =>
      rw [hrec] at hcb
      cases hcb
    | true =>
      rw [if_pos rfl]
      obtain ⟨hnext, hst⟩ := started_of_addMs
        (x := { m.heap u with next := addMs now (m.heap u).ms }) rfl hnow (hfit u hmem hle hrec)
      refine ⟨hmem, ?_, hst⟩
      rw [hnext]
      exact Nat.le_trans hle (Nat.le_add_right _ _)
  · rw [if_neg hdue] at hcb ⊢
    have hmem := h.pending.mp hcb
    exact ⟨hmem, Nat.le_refl _, hstarted u hmem⟩

end

/-! ## Every reachable state -/

/-- A clock reading a thread holds is in the past. -/
def Pc.Past (clock : Nat) : Pc → Prop
  | .made now _ _ _ | .read now | .expiring now => now ≤ clock
  | .idle | .front => True

structure Inv (s : State) : Prop where
  ordered : s.manager.Ordered
  started : ∀ t ∈ s.manager.timers, Started s.clock (s.manager.heap t)
  past : ∀ i, (s.pc i).Past s.clock
  earlier : s.manager.flag = false → ∀ t ∈ s.manager.timers,
    ∃ d, lastSeen s.history = some d ∧ d ≤ (s.manager.heap t).next
  notified : s.manager.flag = true → Notified s.pc s.history

section
variable {s : State} {i : Nat}

theorem Pc.Past.mono {clock clock' : Nat} {pc : Pc} (h : pc.Past clock) (hle : clock ≤ clock') :
    pc.Past clock' := by
  cases pc with
  | idle | front => trivial
  | made now _ _ _ | read now | expiring now => exact Nat.le_trans h hle

theorem past_update {clock : Nat} {pcs : Nat → Pc} {pc : Pc} (h : ∀ i, (pcs i).Past clock)
    (hpc : pc.Past clock) (j : Nat) : (Function.update pcs i pc j).Past clock := by
  rcases Decidable.em (j = i) with rfl | hj
  · rwa [Function.update_self]
  · rw [Function.update_of_ne hj]
    exact h j

theorem Notified.goto {pcs : Nat → Pc} {history : List Entry} (h : Notified pcs history)
    (hi : pcs i ≠ .front) (pc : Pc) : Notified (Function.update pcs i pc) history := by
  obtain ⟨j, later, earlier, hsince, hcall⟩ := h
  refine ⟨j, later, earlier, hsince, ?_⟩
  rcases hcall with hfront | hcalled
  · rw [Function.update_of_ne]
    · exact Or.inl hfront
    · rintro rfl
      exact hi hfront
  · exact Or.inr hcalled

/-- The thread calls `addTimerFront`. -/
theorem Notified.call {pcs : Nat → Pc} {history : List Entry} (h : Notified pcs history) :
    Notified (Function.update pcs i .idle) (.addTimerFront i :: history) := by
  obtain ⟨j, later, earlier, hsince, hcall⟩ := h
  refine ⟨j, .addTimerFront i :: later, earlier, congrArg (_ :: ·) hsince, ?_⟩
  rcases Decidable.em (j = i) with rfl | hj
  · exact Or.inr List.mem_cons_self
  · rw [Function.update_of_ne hj]
    exact hcall.imp_right (List.mem_cons_of_mem _)

/-- A step in which a thread that is not about to notify changes the manager. -/
theorem Inv.locked (h : Inv s) {m : TimerManager} (hm : Evolves s.clock s.manager m)
    (hflag : m.flag = s.manager.flag) (hi : s.pc i ≠ .front) {pc : Pc} (hpc : pc.Past s.clock) :
    Inv ((s.locked m).goto i pc) where
  ordered := hm.ordered
  started := hm.started
  past := past_update h.past hpc
  earlier hf t ht := by
    obtain ⟨u, hu, hle⟩ := hm.later hf t ht
    obtain ⟨d, hd, hdu⟩ := h.earlier (hflag.symm.trans hf) u hu
    exact ⟨d, hd, Nat.le_trans hdu hle⟩
  notified hf := (h.notified (hflag.symm.trans hf)).goto hi pc

theorem State.goto_self (s : State) (i : Nat) (m : TimerManager) :
    (s.locked m).goto i (s.pc i) = s.locked m :=
  congrArg (State.mk m s.clock · s.history) (Function.update_eq_self i s.pc)

theorem Evolves.refl (h : Inv s) : Evolves s.clock s.manager s.manager :=
  ⟨h.ordered, h.started, id, fun _ t ht => ⟨t, ht, Nat.le_refl _⟩⟩

theorem Inv.goto (h : Inv s) (hi : s.pc i ≠ .front) {pc : Pc} (hpc : pc.Past s.clock) :
    Inv (s.goto i pc) := h.locked (Evolves.refl h) rfl hi hpc

/-- `addTimer(timer, lock)` on behalf of thread `i`. -/
theorem Inv.added (h : Inv s) {m : TimerManager} (hm : Evolves s.clock s.manager m)
    {front : Bool} (hflag : m.flag = (s.manager.flag || front)) (hi : s.pc i ≠ .front) :
    Inv (s.added i front m) := by
  unfold State.added
  cases front with
  | false => exact h.locked hm (hflag.trans (Bool.or_false _)) hi trivial
  | true =>
    rw [Bool.or_true] at hflag
    refine ⟨hm.ordered, hm.started, past_update h.past trivial, ?_, ?_⟩
    · intro hf
      exact absurd (hflag.symm.trans hf) Bool.noConfusion
    · intro _
      exact ⟨i, [], since s.history, rfl, Or.inl (Function.update_self _ _ _)⟩

theorem addNewTimer_flag {m m' : TimerManager} {t : TimerId} (h : m.Ordered)
    (hfresh : t ∉ m.timers) {now ms : Nat} {cb : Callback} {recurring front : Bool}
    (run : TimerManager.addNewTimer t now ms cb recurring m = .ok front m') :
    m'.flag = (m.flag || front) :=
  (TimerManager.addTimer_flag ((h.without hfresh).setTimer _).sorted run).1

theorem reset_flag {m m' : TimerManager} {t : TimerId} (h : m.Ordered) {now ms : Nat}
    {fromNow rt front : Bool} (run : TimerManager.reset t now ms fromNow m = .ok (rt, front) m') :
    m'.flag = (m.flag || front) := by
  rcases h.reset_cases run with ⟨-, rfl, rfl⟩ | ⟨ht, hadd⟩
  · exact (Bool.or_false _).symm
  · exact (TimerManager.addTimer_flag ((h.erase ht).without.setTimer _).sorted hadd).1

/-- `getNextTime` has seen the earliest deadline there is. -/
theorem Inv.getNextTime (h : Inv s) {n : Nat} {m : TimerManager}
    (run : TimerManager.getNextTime s.clock s.manager = .ok n m) :
    Inv { s.locked m with history := .getNextTime s.manager.earliest :: s.history } := by
  obtain ⟨_, _, hrun, hord, hheap⟩ := h.ordered.getNextTime s.clock
  have hm : m = { s.manager with flag := false } := by
    unfold TimerManager.getNextTime at run
    dsimp only at run
    split at run
    · cases run
      rfl
    · cases run
      rfl
  rw [hrun] at run
  cases run
  subst hm
  refine ⟨hord, h.started, h.past, ?_, fun hf => Bool.noConfusion hf⟩
  intro _ t ht
  cases hd : s.manager.earliest with
  | none =>
    rw [TimerManager.earliest, Option.map_eq_none_iff, List.head?_eq_none_iff] at hd
    have ht' : t ∈ s.manager.timers := ht
    rw [hd] at ht'
    cases ht'
  | some d => exact ⟨d, rfl, h.ordered.head_le hd ht⟩

theorem Inv.step {s' : State} {l : Label} (h : Inv s) (hfit : NoOverflow s l)
    (hstep : Step s l s') : Inv s' := by
  cases hstep with
  | tick clock forward =>
    exact ⟨h.ordered, fun t ht => (h.started t ht).mono forward,
      fun i => (h.past i).mono forward, h.earlier, h.notified⟩
  | make i ms cb recurring pc => exact h.goto (by rw [pc]; exact Pc.noConfusion) (Nat.le_refl _)
  | addTimer i t pc fresh run =>
    have hpast := h.past i
    rw [pc] at hpast
    refine h.added ?_ (addNewTimer_flag h.ordered fresh run) (by rw [pc]; exact Pc.noConfusion)
    exact evolves_addNewTimer h.ordered h.started fresh hpast (hfit _ _ _ _ pc) run
  | addTimerFront i pc =>
    exact ⟨h.ordered, h.started, past_update h.past trivial, h.earlier,
      fun hf => (h.notified hf).call⟩
  | cancel i t pc run =>
    have hlocked := h.locked (evolves_cancel h.ordered h.started run)
      (TimerManager.cancel_flag run) (i := i) (by rw [pc]; exact Pc.noConfusion) (h.past i)
    rwa [State.goto_self] at hlocked
  | refresh i t pc run =>
    have hlocked := h.locked (evolves_refresh h.ordered h.started hfit run)
      (TimerManager.refresh_flag run) (i := i) (by rw [pc]; exact Pc.noConfusion) (h.past i)
    rwa [State.goto_self] at hlocked
  | reset i t ms fromNow pc run =>
    exact h.added (evolves_reset h.ordered h.started hfit run) (reset_flag h.ordered run)
      (by rw [pc]; exact Pc.noConfusion)
  | getNextTime i pc run => exact h.getNextTime run
  | readClock i pc => exact h.goto (by rw [pc]; exact Pc.noConfusion) (Nat.le_refl _)
  | peek i pc =>
    have hpast := h.past i
    rw [pc] at hpast
    refine h.goto (by rw [pc]; exact Pc.noConfusion) ?_
    split
    · trivial
    · exact hpast
  | listExpiredCb i probe pc run =>
    have hpast := h.past i
    rw [pc] at hpast
    refine h.locked ?_ (TimerManager.listExpiredCb_flag run) ?_ trivial
    · exact evolves_listExpiredCb h.ordered h.started hpast (hfit _ pc) run
    · rw [pc]
      exact Pc.noConfusion

end

theorem restrict_inductive : (machine.restrict NoOverflow).Inductive Inv where
  init := by
    rintro s ⟨hnil, hnone, hflag, hidle, -⟩
    refine ⟨TimerManager.machine_inductive.init _ ⟨hnil, hnone⟩, ?_, ?_, ?_, ?_⟩
    · rw [hnil]
      exact fun t ht => absurd ht List.not_mem_nil
    · intro i
      rw [hidle i]
      trivial
    · rw [hnil]
      exact fun _ t ht => absurd ht List.not_mem_nil
    · intro hf
      exact absurd (hflag.symm.trans hf) Bool.noConfusion
  step s l s' h hstep := h.step hstep.2 hstep.1

/-- While no deadline overflows: with `m_flag` false no timer has a deadline
earlier than the earliest one the most recent `getNextTime` saw, and with
`m_flag` true somebody has called `addTimerFront` since then or is about to. -/
theorem flag_hides_nothing {s : State} (h : Reachable (machine.restrict NoOverflow) s) :
    (s.manager.flag = false → ∀ t ∈ s.manager.timers,
      ∃ d, lastSeen s.history = some d ∧ d ≤ (s.manager.heap t).next) ∧
    (s.manager.flag = true → Notified s.pc s.history) := by
  have hs := restrict_inductive.reachable h
  exact ⟨hs.earlier, hs.notified⟩

/-- Thread 1 adds a timer to the empty set and is about to call `addTimerFront`. -/
theorem flag_hides_nothing_front : ∃ s, Reachable machine s ∧ s.manager.flag = true ∧
    Notified s.pc s.history := by
  let s₀ : State := ⟨TimerManager.empty, 1000, fun _ => .idle, []⟩
  have hinit : Reachable (machine.restrict NoOverflow) s₀ :=
    Reachable.init ⟨rfl, fun _ => rfl, rfl, fun _ => rfl, rfl⟩
  have hmake : Step s₀ (.make 1) (s₀.goto 1 (.made 1000 50 3 false)) := Step.make 1 50 3 false rfl
  have hadd : Step (s₀.goto 1 (.made 1000 50 3 false)) (.addTimer 1) _ :=
    Step.addTimer 1 8 rfl List.not_mem_nil rfl
  have hfit : NoOverflow (s₀.goto 1 (.made 1000 50 3 false)) (.addTimer 1) := by
    rintro now ms cb recurring ⟨⟩
    decide
  have hreach := (hinit.step ⟨hmake, trivial⟩).step ⟨hadd, hfit⟩
  exact ⟨_, hreach.of_restrict, rfl, (flag_hides_nothing hreach).2 rfl⟩

end Flag
end TwServer
