import TwServer.Timer.Lifecycle

/-! How long after a request for a delay its callback is handed out. The clock counts
microseconds; `GetCurrentMS` drops the part below a millisecond, `sleep` multiplies in 32
bits and `usleep` divides. -/

namespace TwServer
open Programs Runs OrderedSet

/-- `GetCurrentMS`, from the microseconds of `gettimeofday`. -/
def getCurrentMS (micros : Nat) : Nat := micros / 1000

namespace TimerManager

/-- The hooked `sleep`: `cb` schedules the fiber, which yields. -/
def sleep (t : TimerId) (now : Nat) (seconds : UInt32) (cb : Callback) :
    Program TimerManager Bool :=
  addNewTimer t now (seconds * 1000).toNat cb false

/-- The hooked `usleep`. -/
def usleep (t : TimerId) (now : Nat) (usec : UInt32) (cb : Callback) :
    Program TimerManager Bool :=
  addNewTimer t now (usec / 1000).toNat cb false

/-- The calls that ask for a delay. -/
inductive Request where
  | addTimer (ms : UInt64) (recurring : Bool)
  | sleep (seconds : UInt32)
  | usleep (usec : UInt32)
  deriving DecidableEq

namespace Request

def run (t : TimerId) (now : Nat) (cb : Callback) : Request → Program TimerManager Bool
  | addTimer ms recurring => addNewTimer t now ms.toNat cb recurring
  | sleep seconds => TimerManager.sleep t now seconds cb
  | usleep usec => TimerManager.usleep t now usec cb

/-- The delay asked for, in microseconds. -/
def delay : Request → Nat
  | addTimer ms _ => ms.toNat * 1000
  | sleep seconds => seconds.toNat * 1000 * 1000
  | usleep usec => usec.toNat

/-- The milliseconds that the timer gets. -/
def ms : Request → Nat
  | addTimer ms _ => ms.toNat
  | sleep seconds => (seconds * 1000).toNat
  | usleep usec => (usec / 1000).toNat

def recurring : Request → Bool
  | addTimer _ recurring => recurring
  | _ => false

/-- The delay is a number of milliseconds and fits the type it goes through. -/
def Exact : Request → Prop
  | addTimer _ _ => True
  | sleep seconds => seconds.toNat * 1000 < 2 ^ 32
  | usleep usec => usec.toNat % 1000 = 0

instance : DecidablePred Exact
  | addTimer _ _ => inferInstanceAs (Decidable True)
  | sleep seconds => inferInstanceAs (Decidable (seconds.toNat * 1000 < 2 ^ 32))
  | usleep usec => inferInstanceAs (Decidable (usec.toNat % 1000 = 0))

theorem run_eq (t : TimerId) (now : Nat) (cb : Callback) (r : Request) :
    r.run t now cb = addNewTimer t now r.ms cb r.recurring := by cases r <;> rfl

theorem exact_iff (r : Request) : r.Exact ↔ r.delay ≤ r.ms * 1000 := by
  cases r with
  | addTimer ms recurring => exact iff_of_true trivial (Nat.le_refl _)
  | sleep seconds =>
    have hms : (seconds * 1000).toNat = seconds.toNat * 1000 % 2 ^ 32 := UInt32.toNat_mul _ _
    show seconds.toNat * 1000 < 2 ^ 32 ↔
      seconds.toNat * 1000 * 1000 ≤ (seconds * 1000).toNat * 1000
    omega
  | usleep usec =>
    have hms : (usec / 1000).toNat = usec.toNat / 1000 := UInt32.toNat_div _ _
    show usec.toNat % 1000 = 0 ↔ usec.toNat ≤ (usec / 1000).toNat * 1000
    omega

theorem ms_le (r : Request) : r.ms * 1000 ≤ r.delay := by
  cases r with
  | addTimer ms recurring => exact Nat.le_refl _
  | sleep seconds =>
    have hms : (seconds * 1000).toNat = seconds.toNat * 1000 % 2 ^ 32 := UInt32.toNat_mul _ _
    show (seconds * 1000).toNat * 1000 ≤ seconds.toNat * 1000 * 1000
    omega
  | usleep usec =>
    have hms : (usec / 1000).toNat = usec.toNat / 1000 := UInt32.toNat_div _ _
    show (usec / 1000).toNat * 1000 ≤ usec.toNat
    omega

theorem ms_lt (r : Request) : r.ms < 2 ^ 64 := by
  cases r with
  | addTimer ms recurring => exact ms.toNat_lt
  | sleep seconds => exact Nat.lt_trans (UInt32.toNat_lt _) (by decide)
  | usleep usec => exact Nat.lt_trans (UInt32.toNat_lt _) (by decide)

end Request

/-! ## Runs with a clock -/

/-- When an operation is called, reads the clock and gives the lock back. `GetCurrentMS`
does not wrap. -/
structure Times where
  called : Nat
  read : Nat
  done : Nat
  called_le : called ≤ read
  read_le : read ≤ done
  fits : getCurrentMS done < 2 ^ 64

namespace Action

/-- The reading of the clock in it. -/
def now? : Action → Option Nat
  | addTimer _ now _ _ _ => some now
  | cancel _ _ => none
  | refresh _ now _ => some now
  | reset _ now _ _ _ => some now
  | listExpiredCb now _ => some now
  | getNextTime now => some now

/-- It asks for another delay of the timer `t`. -/
def asks (t : TimerId) : Action → Bool
  | refresh u _ _ => u == t
  | reset u _ _ _ _ => u == t
  | a => a.creates t

end Action

/-- Operations after `start`, in the order in which they have the lock, none of which asks for
another delay of `t`. -/
structure Follows (t : TimerId) (start : Times) (as : List (Times × Action)) : Prop where
  order : ((start :: as.map Prod.fst).map Times.done).Pairwise (· ≤ ·)
  reads : ∀ p ∈ as, ∀ now ∈ p.2.now?, now = getCurrentMS p.1.read
  alone : ∀ p ∈ as, p.2.asks t = false

/-- However long a call takes that reads the clock at `read`, and whatever comes after it, no
operation hands its callback out too early by `clock`. -/
def Kept (clock : Nat → Nat) (m : TimerManager) (t : TimerId) (r : Request) (cb : Callback)
    (read : Nat) : Prop :=
  ∀ start : Times, start.read = read →
    ∀ front m₁, r.run t (getCurrentMS read) cb m = .ok front m₁ →
      ∀ as m₂, Run machine m₁ (as.map Prod.snd) m₂ → Follows t start as →
        ∀ p ∈ as, t ∈ p.2.handed → clock start.called + r.delay ≤ clock p.1.done

section
variable {m m' : TimerManager} {a : Action} {t : TimerId}

/-! ## The deadline of one timer -/

/-- Only a hand-out and a request move the deadline. -/
theorem Writes.next_eq {x y : Timer} (h : Writes t x a y) (hasks : a.asks t = false)
    (hout : t ∉ a.handed) : y.next = x.next := by
  cases h with
  | same out => rfl
  | addTimer now ms cb recurring => simp [Action.asks, Action.creates] at hasks
  | cancel rt => rfl
  | refresh now rt => simp [Action.asks] at hasks
  | reset now ms fromNow rt next => simp [Action.asks] at hasks
  | listExpiredCb now out => exact absurd out hout

theorem Ordered.handed_due (h : Ordered m) (hstep : Step m a m') (hout : t ∈ a.handed) :
    ∃ now ∈ a.now?, (m.heap t).next ≤ now := by
  cases hstep with
  | listExpiredCb now probe run => exact ⟨now, rfl, ((h.expired now probe).2 t hout).2⟩
  | _ => exact absurd hout List.not_mem_nil

/-! ## Whole runs -/

theorem Follows.tail {start : Times} {p : Times × Action} {as : List (Times × Action)}
    (h : Follows t start (p :: as)) : Follows t p.1 as where
  order := (List.pairwise_cons.mp h.order).2
  reads q hq := h.reads q (List.mem_cons_of_mem p hq)
  alone q hq := h.alone q (List.mem_cons_of_mem p hq)

theorem Follows.start_le {start : Times} {as : List (Times × Action)} (h : Follows t start as)
    {p : Times × Action} (hp : p ∈ as) : start.done ≤ p.1.done := by
  refine (List.pairwise_cons.mp h.order).1 p.1.done ?_
  exact List.mem_map_of_mem (List.mem_map_of_mem hp)

/-- Before the timer is handed out again it was due once. -/
theorem Ordered.run_due (h : Ordered m) {start : Times} {as : List (Times × Action)}
    (hrun : Run machine m (as.map Prod.snd) m') (hfollows : Follows t start as)
    {p : Times × Action} (hp : p ∈ as) (hout : t ∈ p.2.handed) :
    ∃ q ∈ as, q.1.done ≤ p.1.done ∧ (m.heap t).next ≤ getCurrentMS q.1.read := by
  induction as generalizing m start with
  | nil => cases hp
  | cons q as ih =>
    cases hrun with
    | next hstep hrest =>
      by_cases hfirst : t ∈ q.2.handed
      · obtain ⟨now, hnow, hdue⟩ := h.handed_due hstep hfirst
        have hread := hfollows.reads q List.mem_cons_self now hnow
        refine ⟨q, List.mem_cons_self, ?_, hread ▸ hdue⟩
        rcases List.mem_cons.mp hp with rfl | hp
        · exact Nat.le_refl _
        · exact hfollows.tail.start_le hp
      · have hasks := hfollows.alone q List.mem_cons_self
        have hp : p ∈ as := by
          rcases List.mem_cons.mp hp with rfl | hp
          · exact absurd hout hfirst
          · exact hp
        obtain ⟨u, hu, hle, hdue⟩ := ih (h.step hstep) hrest hfollows.tail hp
        rw [(h.writes hstep).next_eq hasks hfirst] at hdue
        exact ⟨u, List.mem_cons_of_mem q hu, hle, hdue⟩

end

/-- The deadline of a request that reads the clock at `read`, in microseconds. -/
def Request.due (r : Request) (read : Nat) : Nat := addMs (getCurrentMS read) r.ms * 1000

theorem due_le_iff {r : Request} {read t : Nat} :
    addMs (getCurrentMS read) r.ms ≤ getCurrentMS t ↔ r.due read ≤ t := by
  unfold Request.due getCurrentMS
  omega

theorem due_of_fits {r : Request} {read : Nat} (h : getCurrentMS read + r.ms < 2 ^ 64) :
    r.due read = (getCurrentMS read + r.ms) * 1000 := by
  unfold Request.due addMs
  rw [Nat.mod_eq_of_lt h]

/-- A deadline that wraps has passed already. -/
theorem due_of_wraps {r : Request} {read : Nat} (hread : getCurrentMS read < 2 ^ 64)
    (h : ¬getCurrentMS read + r.ms < 2 ^ 64) : r.due read ≤ read := by
  have hms := r.ms_lt
  rw [← due_le_iff]
  unfold addMs
  omega

theorem run_added {m : TimerManager} (h : Ordered m) {t : TimerId} (ht : t ∉ m.timers)
    (r : Request) (cb : Callback) (now : Nat) :
    ∃ front m₁, r.run t now cb m = .ok front m₁ ∧ Ordered m₁ ∧ t ∈ m₁.timers ∧
      (m₁.heap t).next = addMs now r.ms := by
  have hrun : ∃ front m₁, addNewTimer t now r.ms cb r.recurring m = .ok front m₁ := ⟨_, _, rfl⟩
  obtain ⟨front, m₁, hrun⟩ := hrun
  have hord := h.addNewTimer ht hrun
  have hheap : m₁.heap t = .new now r.ms cb r.recurring := by
    rw [addNewTimer_heap hrun, Function.update_self]
  refine ⟨front, m₁, (congrFun (r.run_eq t now cb) m).trans hrun, hord, ?_, ?_⟩
  · rw [← hord.pending, hheap]
    rfl
  · rw [hheap]
    rfl

/-- A request keeps its delay exactly if none of it is left when it is due, since then
nothing keeps it from being handed out. -/
theorem kept_iff_due {clock : Nat → Nat} (hmono : ∀ s t, s ≤ t → clock s ≤ clock t)
    {m : TimerManager} (h : Ordered m) {t : TimerId} (ht : t ∉ m.timers) (r : Request)
    (cb : Callback) {read : Nat} (hread : getCurrentMS read < 2 ^ 64) :
    Kept clock m t r cb read ↔ clock read + r.delay ≤ clock (max read (r.due read)) := by
  obtain ⟨front, m₁, hadd, hord, hmem, hnext⟩ := run_added h ht r cb (getCurrentMS read)
  constructor
  · intro hkept
    let last := max read (r.due read)
    let now := getCurrentMS last
    have hfits : getCurrentMS last < 2 ^ 64 := by
      have hdue : getCurrentMS (r.due read) < 2 ^ 64 := by
        unfold Request.due getCurrentMS addMs
        omega
      rcases Nat.le_total read (r.due read) with hle | hle
      · rwa [show last = r.due read from Nat.max_eq_right hle]
      · rwa [show last = read from Nat.max_eq_left hle]
    let start : Times := ⟨read, read, read, Nat.le_refl _, Nat.le_refl _, hread⟩
    let finish : Times := ⟨last, last, last, Nat.le_refl _, Nat.le_refl _, hfits⟩
    obtain ⟨m₂, hlist, -⟩ := hord.listExpiredCb now 0
    have hstep : Step m₁ (.listExpiredCb now (m₁.expired now 0)) m₂ := Step.listExpiredCb now 0 hlist
    have hout : t ∈ m₁.expired now 0 := by
      refine (mem_expired hord.sorted _ 0).mpr ⟨hmem, ?_⟩
      rw [hnext]
      exact due_le_iff.mpr (Nat.le_max_right _ _)
    refine hkept start rfl front m₁ hadd [(finish, _)] m₂ (Run.next hstep (Run.refl m₂)) ?_
      (finish, _) List.mem_cons_self hout
    refine ⟨?_, ?_, ?_⟩
    · exact List.pairwise_pair.mpr (Nat.le_max_left _ _)
    · simp [Action.now?, finish, now]
    · simp [Action.asks, Action.creates]
  · rintro hdue start rfl front' m₁' hadd' as m₂ hrun hfollows p hp hout
    cases hadd.symm.trans hadd'
    obtain ⟨q, -, hle, hq⟩ := hord.run_due hrun hfollows hp hout
    rw [hnext, due_le_iff] at hq
    have hlast : max start.read (r.due start.read) ≤ p.1.done := by
      have h1 := start.read_le
      have h2 := hfollows.start_le hp
      have h3 := q.1.read_le
      omega
    calc clock start.called + r.delay
        ≤ clock start.read + r.delay := Nat.add_le_add_right (hmono _ _ start.called_le) _
      _ ≤ clock (max start.read (r.due start.read)) := hdue
      _ ≤ clock p.1.done := hmono _ _ hlast

/-! ## The two clocks -/

/-- By microseconds even `addTimer` is early by the part of a millisecond that its reading
drops. By `GetCurrentMS` only what does not fit is lost. -/
theorem delay_kept_iff {m : TimerManager} (h : Reachable machine m) {t : TimerId}
    (ht : t ∉ m.timers) (r : Request) (cb : Callback) {read : Nat}
    (hread : getCurrentMS read < 2 ^ 64) :
    (Kept (fun micros => getCurrentMS micros * 1000) m t r cb read ↔
      r.delay = 0 ∨ r.Exact ∧ getCurrentMS read + r.ms < 2 ^ 64) ∧
    (Kept (fun micros => micros) m t r cb read ↔
      r.delay = 0 ∨ r.Exact ∧ getCurrentMS read + r.ms < 2 ^ 64 ∧ read % 1000 = 0) := by
  have hord : Ordered m := machine_inductive.reachable h
  have hmillis : ∀ s t, s ≤ t → getCurrentMS s * 1000 ≤ getCurrentMS t * 1000 :=
    fun s t hst => Nat.mul_le_mul_right 1000 (Nat.div_le_div_right hst)
  have hle := r.ms_le
  rw [kept_iff_due hmillis hord ht r cb hread, kept_iff_due (fun s t hst => hst) hord ht r cb hread,
    r.exact_iff]
  by_cases hfits : getCurrentMS read + r.ms < 2 ^ 64
  · have hdue := due_of_fits hfits
    unfold getCurrentMS at *
    omega
  · have hdue := due_of_wraps hread hfits
    rw [Nat.max_eq_left hdue]
    omega

theorem reachable_empty : Reachable machine empty := Reachable.init ⟨rfl, fun _ => rfl⟩

theorem delay_kept_iff_sleep :
    Kept (fun micros => getCurrentMS micros * 1000) empty 8 (.sleep 2) 3 5000000 ∧
      Kept (fun micros => micros) empty 8 (.sleep 2) 3 5000000 := by
  have hread : getCurrentMS 5000000 < 2 ^ 64 := by decide
  have h := delay_kept_iff reachable_empty List.not_mem_nil (t := 8) (.sleep 2) 3 hread
  exact ⟨h.1.mpr (Or.inr ⟨by decide, by decide⟩),
    h.2.mpr (Or.inr ⟨by decide, by decide, by decide⟩)⟩

/-! ## Delays that are cut short -/

/-- `usleep(1500)` at 0 is over after 1000 microseconds and `sleep(4294968)` after 704
milliseconds; the largest delay of `addTimer` is over at once, and one of a millisecond after
a microsecond. -/
theorem usleep_cut_short :
    (∃ m m', usleep 8 (getCurrentMS 0) 1500 3 empty = .ok true m ∧
      Run machine m [.listExpiredCb (getCurrentMS 1000) [8]] m') ∧
    (∃ m m', sleep 8 (getCurrentMS 0) 4294968 3 empty = .ok true m ∧
      Run machine m [.listExpiredCb (getCurrentMS 704000) [8]] m') ∧
    ¬Kept (fun micros => getCurrentMS micros * 1000) empty 8 (.usleep 1500) 3 0 ∧
    ¬Kept (fun micros => getCurrentMS micros * 1000) empty 8 (.sleep 4294968) 3 0 ∧
    ¬Kept (fun micros => getCurrentMS micros * 1000) empty 8
      (.addTimer 18446744073709551615 false) 3 1000 ∧
    ¬Kept (fun micros => micros) empty 8 (.addTimer 1 false) 3 999 := by
  have hnew : (8 : TimerId) ∉ empty.timers := List.not_mem_nil
  have hat : ∀ {read}, read ≤ 1000 → getCurrentMS read < 2 ^ 64 := fun {read} h => by
    unfold getCurrentMS
    omega
  refine ⟨⟨_, _, rfl, Run.next (Step.listExpiredCb 1 9 rfl) (Run.refl _)⟩,
    ⟨_, _, rfl, Run.next (Step.listExpiredCb 704 9 rfl) (Run.refl _)⟩, ?_, ?_, ?_, ?_⟩
  · rw [(delay_kept_iff reachable_empty hnew (.usleep 1500) 3 (hat (by decide))).1]
    decide
  · rw [(delay_kept_iff reachable_empty hnew (.sleep 4294968) 3 (hat (by decide))).1]
    decide
  · rw [(delay_kept_iff reachable_empty hnew (.addTimer 18446744073709551615 false) 3
      (hat (by decide))).1]
    decide
  · rw [(delay_kept_iff reachable_empty hnew (.addTimer 1 false) 3 (hat (by decide))).2]
    decide

end TimerManager
end TwServer
