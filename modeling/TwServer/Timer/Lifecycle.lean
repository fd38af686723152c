import TwServer.Lib.Runs
import TwServer.Timer.Order
import Mathlib.Data.List.Nodup

/-! Whole runs of a `TimerManager`: a timer is pending until it is cancelled or
handed out, and a one-shot timer is handed out once. -/

namespace TwServer
open Programs Runs OrderedSet

namespace TimerManager

/-- An operation with its arguments, clock reading and result. `listExpiredCb`
shows its vector `expired`. -/
inductive Action where
  | addTimer (t : TimerId) (now ms : Nat) (cb : Callback) (recurring : Bool)
  | cancel (t : TimerId) (rt : Bool)
  | refresh (t : TimerId) (now : Nat) (rt : Bool)
  | reset (t : TimerId) (now ms : Nat) (fromNow rt : Bool)
  | listExpiredCb (now : Nat) (expired : List TimerId)
  | getNextTime (now : Nat)

namespace Action

def creates (t : TimerId) : Action → Bool
  | addTimer u _ _ _ _ => u == t
  | _ => false

/-- The timers whose callbacks the operation hands out. -/
def handed : Action → List TimerId
  | listExpiredCb _ expired => expired
  | _ => []

end Action

/-- A new timer lies at an address that no timer of the set has. -/
inductive Step : TimerManager → Action → TimerManager → Prop
  | addTimer {m m' : TimerManager} {front : Bool} (t : TimerId) (now ms : Nat) (cb : Callback)
      (recurring : Bool) (fresh : t ∉ m.timers)
      (run : addNewTimer t now ms cb recurring m = .ok front m') :
      Step m (.addTimer t now ms cb recurring) m'
  | cancel {m m' : TimerManager} {rt : Bool} (t : TimerId) (run : cancel t m = .ok rt m') :
      Step m (.cancel t rt) m'
  | refresh {m m' : TimerManager} {rt : Bool} (t : TimerId) (now : Nat)
      (run : refresh t now m = .ok rt m') : Step m (.refresh t now rt) m'
  | reset {m m' : TimerManager} {rt front : Bool} (t : TimerId) (now ms : Nat) (fromNow : Bool)
      (run : reset t now ms fromNow m = .ok (rt, front) m') : Step m (.reset t now ms fromNow rt) m'
  | listExpiredCb {m m' : TimerManager} {cbs : List (Option Callback)} (now : Nat)
      (probe : TimerId) (run : listExpiredCb now probe m = .ok cbs m') :
      Step m (.listExpiredCb now (m.expired now probe)) m'
  | getNextTime {m m' : TimerManager} {n : Nat} (now : Nat)
      (run : getNextTime now m = .ok n m') : Step m (.getNextTime now) m'

def machine : System TimerManager Action where
  init m := m.timers = [] ∧ ∀ t, (m.heap t).cb = none
  step := Step

section
variable {m m' : TimerManager} {a : Action} {t : TimerId}

/-! ## One step -/

theorem Ordered.step (h : Ordered m) (hstep : Step m a m') : Ordered m' := by
  cases hstep with
  | addTimer t now ms cb recurring fresh run => exact h.addNewTimer fresh run
  | cancel t run =>
    obtain ⟨_, hrun, hord, -⟩ := h.cancel t
    rw [hrun] at run
    cases run
    exact hord
  | refresh t now run =>
    obtain ⟨_, hrun, hord, -⟩ := h.refresh t now
    rw [hrun] at run
    cases run
    exact hord
  | reset t now ms fromNow run =>
    obtain ⟨_, _, _, hrun, hord, -⟩ := h.reset t now ms fromNow
    rw [hrun] at run
    cases run
    exact hord
  | listExpiredCb now probe run =>
    obtain ⟨_, hrun, hord, -⟩ := h.listExpiredCb now probe
    rw [hrun] at run
    cases run
    exact hord
  | getNextTime now run =>
    obtain ⟨_, _, hrun, hord, -⟩ := h.getNextTime now
    rw [hrun] at run
    cases run
    exact hord

/-- What an operation makes of the timer `x` at `t`. -/
inductive Writes (t : TimerId) (x : Timer) : Action → Timer → Prop
  | same {a : Action} (out : t ∉ a.handed) : Writes t x a x
  | addTimer (now ms : Nat) (cb : Callback) (recurring : Bool) :
      Writes t x (.addTimer t now ms cb recurring) (.new now ms cb recurring)
  | cancel (rt : Bool) : Writes t x (.cancel t rt) { x with cb := none }
  | refresh (now : Nat) (rt : Bool) :
      Writes t x (.refresh t now rt) { x with next := addMs now x.ms }
  | reset (now ms : Nat) (fromNow rt : Bool) (next : Nat) :
      Writes t x (.reset t now ms fromNow rt) { x with ms := ms, next := next }
  | listExpiredCb (now : Nat) {expired : List TimerId} (out : t ∈ expired) :
      Writes t x (.listExpiredCb now expired) (afterExpiry now x)

/-- An operation that writes the timer `u` only. -/
theorem Writes.update {heap : TimerId → Timer} {u : TimerId} {x : Timer} (out : t ∉ a.handed)
    (h : t = u → Writes t (heap t) a x) : Writes t (heap t) a (Function.update heap u x t) := by
  rcases Decidable.em (t = u) with rfl | ht
  · rw [Function.update_self]
    exact h rfl
  · rw [Function.update_of_ne ht]
    exact Writes.same out

theorem Ordered.writes (h : Ordered m) (hstep : Step m a m') :
    Writes t (m.heap t) a (m'.heap t) := by
  cases hstep with
  | addTimer u now ms cb recurring fresh run =>
    rw [addNewTimer_heap run]
    refine Writes.update List.not_mem_nil ?_
    rintro rfl
    exact Writes.addTimer now ms cb recurring
  | cancel u run =>
    obtain ⟨_, hrun, -, hheap⟩ := h.cancel u
    rw [hrun] at run
    cases run
    rw [hheap]
    refine Writes.update List.not_mem_nil ?_
    rintro rfl
    exact Writes.cancel _
  | refresh u now run =>
    obtain ⟨_, hrun, -, hheap⟩ := h.refresh u now
    rw [hrun] at run
    cases run
    rw [hheap]
    split
    · refine Writes.update List.not_mem_nil ?_
      rintro rfl
      exact Writes.refresh now _
    · exact Writes.same List.not_mem_nil
  | reset u now ms fromNow run =>
    obtain ⟨_, _, next, hrun, -, hheap⟩ := h.reset u now ms fromNow
    rw [hrun] at run
    cases run
    rw [hheap]
    split
    · refine Writes.update List.not_mem_nil ?_
      rintro rfl
      exact Writes.reset now ms fromNow _ next
    · exact Writes.same List.not_mem_nil
  | listExpiredCb now probe run =>
    obtain ⟨_, hrun, -, hheap⟩ := h.listExpiredCb now probe
    rw [hrun] at run
    cases run
    rw [hheap]
    split
    · exact Writes.listExpiredCb now ‹_›
    · exact Writes.same ‹_›
  | getNextTime now run =>
    obtain ⟨_, _, hrun, -, hheap⟩ := h.getNextTime now
    rw [hrun] at run
    cases run
    rw [hheap]
    exact Writes.same List.not_mem_nil

/-- What an operation other than its `addTimer` may do to a timer: a callback is
only ever cleared, and it is cleared when a one-shot timer is handed out. -/
structure Ages (a : Action) (t : TimerId) (x y : Timer) : Prop where
  recurring : y.recurring = x.recurring
  cb : y.cb = none ∨ y.cb = x.cb
  handed : t ∈ a.handed → x.recurring = false → y.cb = none

theorem Writes.ages {x y : Timer} (h : Writes t x a y) (ht : a.creates t = false) :
    Ages a t x y := by
  cases h with
  | same out => exact ⟨rfl, Or.inr rfl, fun ht => absurd ht out⟩
  | addTimer now ms cb recurring => simp [Action.creates] at ht
  | cancel rt => exact ⟨rfl, Or.inl rfl, fun ht => absurd ht List.not_mem_nil⟩
  | refresh now rt => exact ⟨rfl, Or.inr rfl, fun ht => absurd ht List.not_mem_nil⟩
  | reset now ms fromNow rt next => exact ⟨rfl, Or.inr rfl, fun ht => absurd ht List.not_mem_nil⟩
  | listExpiredCb now out =>
    unfold afterExpiry
    split
    · rename_i hrec
      refine ⟨rfl, Or.inr rfl, fun _ hone => ?_⟩
      rw [hrec] at hone
      cases hone
    · exact ⟨rfl, Or.inl rfl, fun _ _ => rfl⟩

/-- Only pending timers are handed out, each of them once. -/
theorem Ordered.handed_pending (h : Ordered m) (hstep : Step m a m') :
    a.handed.Nodup ∧ ∀ t ∈ a.handed, (m.heap t).cb.isSome = true := by
  cases hstep with
  | listExpiredCb now probe run =>
    obtain ⟨hnodup, hdue⟩ := h.expired now probe
    exact ⟨hnodup, fun t ht => h.pending.mpr (hdue t ht).1⟩
  | _ => exact ⟨List.nodup_nil, fun t ht => absurd ht List.not_mem_nil⟩

theorem Ordered.gone_of_cancel (h : Ordered m) {rt : Bool} (hstep : Step m (.cancel t rt) m') :
    (m'.heap t).cb = none := by
  cases hstep with
  | cancel t run =>
    obtain ⟨_, hrun, -, hheap⟩ := h.cancel t
    rw [hrun] at run
    cases run
    rw [hheap, Function.update_self]

/-! ## Whole runs -/

theorem machine_inductive : machine.Inductive Ordered where
  init := by
    rintro m ⟨hnil, hnone⟩
    refine ⟨?_, ?_, ?_, List.nodup_nil⟩
    · rw [hnil]
      exact List.Pairwise.nil
    · intro t
      rw [hnone t, hnil]
      simp
    · intro t ht
      cases ht
  step m a m' h hstep := h.step hstep

/-- The timers handed out along a run, in order. -/
def handed (as : List Action) : List TimerId := as.flatMap Action.handed

/-- `t` is one timer throughout: nothing new is made at its address. -/
def OneTimer (t : TimerId) (as : List Action) : Prop := ∀ a ∈ as, a.creates t = false

variable {as : List Action}

/-- A timer without its callback stays so and is not handed out. -/
theorem Ordered.not_handed (h : Ordered m) (hrun : Run machine m as m') (hone : OneTimer t as)
    (hgone : (m.heap t).cb = none) : t ∉ handed as := by
  induction hrun with
  | refl m => exact List.not_mem_nil
  | next hstep _ ih =>
    have hages := (h.writes hstep).ages (hone _ List.mem_cons_self)
    have hgone' := hages.cb.elim id fun heq => heq.trans hgone
    have hrest := ih (h.step hstep) (fun a ha => hone a (List.mem_cons_of_mem _ ha)) hgone'
    rw [handed, List.flatMap_cons, List.mem_append, not_or]
    refine ⟨?_, hrest⟩
    intro ht
    have hsome := (h.handed_pending hstep).2 t ht
    rw [hgone] at hsome
    cases hsome

theorem Ordered.handed_once (h : Ordered m) (hrun : Run machine m as m') (hone : OneTimer t as)
    (hshot : (m.heap t).recurring = false) : (handed as).count t ≤ 1 := by
  induction hrun with
  | refl m => exact Nat.zero_le 1
  | @next m _ _ a as hstep hrest ih =>
    have hages := (h.writes hstep).ages (hone _ List.mem_cons_self)
    have hone' : OneTimer t as := fun b hb => hone b (List.mem_cons_of_mem _ hb)
    rw [handed, List.flatMap_cons, List.count_append]
    rcases Decidable.em (t ∈ a.handed) with ht | ht
    · have hgone := hages.handed ht hshot
      have hzero := List.count_eq_zero.mpr ((h.step hstep).not_handed hrest hone' hgone)
      have honce := List.nodup_iff_count_le_one.mp (h.handed_pending hstep).1 t
      rw [handed] at hzero
      omega
    · have hzero := List.count_eq_zero.mpr ht
      have hrec := ih (h.step hstep) hone' (hages.recurring.trans hshot)
      rw [handed] at hrec
      omega

theorem Ordered.not_handed_after_cancel (h : Ordered m) {as bs : List Action}
    (hrun : Run machine m (as ++ .cancel t true :: bs) m') (hone : OneTimer t bs) :
    t ∉ handed bs := by
  induction as generalizing m with
  | nil =>
    cases hrun with
    | next hstep hrest => exact (h.step hstep).not_handed hrest hone (h.gone_of_cancel hstep)
  | cons a as ih =>
    cases hrun with
    | next hstep hrest => exact ih (h.step hstep) hrest

/-- In every state of every run the set holds exactly the timers whose callback
is set, once each and in the order of their current keys; `cancel`, `refresh` and
`reset` never fail and succeed on exactly those; `listExpiredCb` hands out the
callbacks of pending timers whose deadline is not after its clock reading. From
then on a one-shot timer is handed out at most once, and no timer is after a
`cancel` that returned true. -/
theorem timer_life_cycle (h : Reachable machine m) :
    (∀ t, t ∈ m.timers ↔ (m.heap t).cb ≠ none) ∧ m.timers.Nodup ∧ Sorted m.before m.timers ∧
    (∀ t, ∃ m', cancel t m = .ok (decide (t ∈ m.timers)) m') ∧
    (∀ t now, ∃ m', refresh t now m = .ok (decide (t ∈ m.timers)) m') ∧
    (∀ t now ms fromNow, ∃ front m',
      reset t now ms fromNow m = .ok (decide (t ∈ m.timers), front) m') ∧
    (∀ now probe, ∃ m',
      listExpiredCb now probe m = .ok ((m.expired now probe).map fun t => (m.heap t).cb) m' ∧
      (m.expired now probe).Nodup ∧
      ∀ t ∈ m.expired now probe, t ∈ m.timers ∧ (m.heap t).next ≤ now) ∧
    ∀ t as m', Run machine m as m' →
      (OneTimer t as → (m.heap t).recurring = false → (handed as).count t ≤ 1) ∧
      ∀ bs cs, as = bs ++ .cancel t true :: cs → OneTimer t cs → t ∉ handed cs := by
  have hm := machine_inductive.reachable h
  have hpending : ∀ t, (m.heap t).cb.isSome = decide (t ∈ m.timers) := by
    intro t
    rw [Bool.eq_iff_iff, decide_eq_true_eq]
    exact hm.pending
  refine ⟨?_, hm.nodup, hm.sorted, ?_, ?_, ?_, ?_, ?_⟩
  · intro t
    rw [← hm.pending, Option.isSome_iff_ne_none]
  · intro t
    obtain ⟨m', hrun, -⟩ := hm.cancel t
    exact ⟨m', hpending t ▸ hrun⟩
  · intro t now
    obtain ⟨m', hrun, -⟩ := hm.refresh t now
    exact ⟨m', hpending t ▸ hrun⟩
  · intro t now ms fromNow
    obtain ⟨front, m', _, hrun, -⟩ := hm.reset t now ms fromNow
    exact ⟨front, m', hpending t ▸ hrun⟩
  · intro now probe
    obtain ⟨m', hrun, -⟩ := hm.listExpiredCb now probe
    exact ⟨m', hrun, hm.expired now probe⟩
  · intro t as m' hrun
    refine ⟨hm.handed_once hrun, ?_⟩
    rintro bs cs rfl hone
    exact hm.not_handed_after_cancel hrun hone

end

/-- A manager with nothing in it, at time 0. -/
def empty : TimerManager := ⟨fun _ => ⟨false, 0, 0, none⟩, [], 0, false⟩

/-- A timer of 50 ms is made at 1000 and handed out at 1050, once. -/
theorem timer_life_cycle_once : ∃ m m',
    Run machine empty [.addTimer 8 1000 50 3 false, .listExpiredCb 1050 [8]] m' ∧
      Step empty (.addTimer 8 1000 50 3 false) m ∧ 8 ∈ m.timers ∧
      (handed [.listExpiredCb 1050 [8]]).count 8 ≤ 1 := by
  let m : TimerManager := { (empty.setTimer 8 (.new 1000 50 3 false)).insert 8 with flag := true }
  have hadd : Step empty (.addTimer 8 1000 50 3 false) m :=
    Step.addTimer 8 1000 50 3 false List.not_mem_nil rfl
  have hlist : Step m (.listExpiredCb 1050 (m.expired 1050 9)) _ := Step.listExpiredCb 1050 9 rfl
  have hexpired : m.expired 1050 9 = [8] := rfl
  rw [hexpired] at hlist
  have hinit : Reachable machine empty := Reachable.init ⟨rfl, fun _ => rfl⟩
  have hlife := timer_life_cycle (hinit.step hadd)
  have hrun : Run machine _ [.listExpiredCb 1050 [8]] _ := Run.next hlist (Run.refl _)
  refine ⟨_, _, Run.next hadd hrun, hadd, (hlife.1 8).mpr (by decide), ?_⟩
  refine (hlife.2.2.2.2.2.2.2 8 _ _ hrun).1 ?_ rfl
  intro a ha
  obtain rfl := List.mem_singleton.mp ha
  rfl

end TimerManager
end TwServer
