import TwServer.Timer.Order
import Mathlib.Data.List.Nodup

/-! `listExpiredCb` on any set that is sorted by `Timer::Comparator`, with the
temporary timer at any address. It needs no more of the timers than that: their
callbacks may be null and their deadlines may tie. -/

namespace TwServer
open Programs OrderedSet

namespace TimerManager

/-- From `m` to `m'` exactly the timers due at `now` were handed out as `cbs`. -/
structure ExpiredExactly (now : Nat) (m : TimerManager) (cbs : List (Option Callback))
    (m' : TimerManager) : Prop where
  handed : ∃ ts : List TimerId, cbs = ts.map (fun t => (m.heap t).cb) ∧ ts.Nodup ∧
    (∀ t, t ∈ ts ↔ t ∈ m.timers ∧ (m.heap t).next ≤ now) ∧
    ts.Pairwise fun t u => (m.heap t).next ≤ (m.heap u).next
  oneShot : ∀ t ∈ m.timers, (m.heap t).next ≤ now → (m.heap t).recurring = false →
    t ∉ m'.timers ∧ m'.heap t = { m.heap t with cb := none }
  recurring : ∀ t ∈ m.timers, (m.heap t).next ≤ now → (m.heap t).recurring = true →
    m'.timers.count t = 1 ∧ m'.heap t = { m.heap t with next := now + (m.heap t).ms }
  others : ∀ t, ¬ (t ∈ m.timers ∧ (m.heap t).next ≤ now) →
    m'.heap t = m.heap t ∧ (t ∈ m'.timers ↔ t ∈ m.timers)
  left : ∀ t ∈ m'.timers, (m'.heap t).next ≤ now →
    (m'.heap t).recurring = true ∧ (m'.heap t).ms = 0
  sorted : Sorted m'.before m'.timers

section
variable {m : TimerManager} {now : Nat}

theorem expired_pairwise (h : Sorted m.before m.timers) (now : Nat) (probe : TimerId) :
    (m.expired now probe).Pairwise fun t u => (m.heap t).next ≤ (m.heap u).next := by
  refine List.Pairwise.imp ?_ (List.Pairwise.sublist (expired_sublist m now probe) h)
  intro t u htu
  have := before_iff.mp htu
  omega

/-- A recurring timer is put back at `now + ms`, a one-shot timer loses its callback. -/
theorem afterExpiry_recurring {x : Timer} (hrec : x.recurring = true)
    (hfit : now + x.ms < 2 ^ 64) : afterExpiry now x = { x with next := now + x.ms } := by
  rw [afterExpiry, if_pos hrec, addMs, Nat.mod_eq_of_lt hfit]

theorem afterExpiry_oneShot {x : Timer} (hrec : x.recurring = false) :
    afterExpiry now x = { x with cb := none } := by
  rw [afterExpiry, if_neg (Bool.eq_false_iff.mp hrec)]

theorem listExpiredCb_exact (hsorted : Sorted m.before m.timers) (probe : TimerId)
    (hfit : ∀ t ∈ m.timers, (m.heap t).recurring = true → now + (m.heap t).ms < 2 ^ 64) :
    ∃ cbs m', listExpiredCb now probe m = .ok cbs m' ∧ ExpiredExactly now m cbs m' := by
  obtain ⟨m', hrun, hsorted', hheap, htimers⟩ := listExpiredCb_sorted hsorted now probe
  have hmem : ∀ t, t ∈ m.expired now probe ↔ t ∈ m.timers ∧ (m.heap t).next ≤ now :=
    fun _ => mem_expired hsorted now probe
  have hnodup := OrderedSet.Sorted.nodup (before_strict m) hsorted
  have hnodup' := OrderedSet.Sorted.nodup (before_strict m') hsorted'
  refine ⟨_, m', hrun, ?_⟩
  constructor
  case handed =>
    exact ⟨m.expired now probe, rfl, hnodup.sublist (expired_sublist m now probe), hmem,
      expired_pairwise hsorted now probe⟩
  case oneShot =>
    intro t ht hdue hrec
    have hout := (hmem t).mpr ⟨ht, hdue⟩
    rw [htimers t, hheap t, if_pos hout, afterExpiry_oneShot hrec]
    refine ⟨?_, rfl⟩
    rintro (⟨-, hin⟩ | ⟨-, hyes⟩)
    · exact hin hout
    · rw [hrec] at hyes
      exact Bool.false_ne_true hyes
  case recurring =>
    intro t ht hdue hrec
    have hout := (hmem t).mpr ⟨ht, hdue⟩
    rw [hheap t, if_pos hout, afterExpiry_recurring hrec (hfit t ht hrec)]
    have hin : t ∈ m'.timers := (htimers t).mpr (Or.inr ⟨hout, hrec⟩)
    exact ⟨List.count_eq_one_of_mem hnodup' hin, rfl⟩
  case others =>
    intro t hnot
    have hin : t ∉ m.expired now probe := mt (hmem t).mp hnot
    rw [hheap t, if_neg hin, htimers t]
    simp [hin]
  case left =>
    intro t ht hle
    rcases (htimers t).mp ht with ⟨hold, hin⟩ | ⟨hout, hrec⟩
    · rw [hheap t, if_neg hin] at hle
      exact absurd ((hmem t).mpr ⟨hold, hle⟩) hin
    · have hfit' := hfit t ((hmem t).mp hout).1 hrec
      rw [hheap t, if_pos hout, afterExpiry_recurring hrec hfit'] at hle ⊢
      have hms : now + (m.heap t).ms ≤ now := hle
      exact ⟨hrec, by dsimp only; omega⟩
  case sorted => exact hsorted'

end

/-- A one-shot timer due at 5 and a recurring one due at the clock reading 7. -/
def dueTimers : TimerManager where
  heap t := if t = 1 then ⟨false, 5, 5, some 10⟩ else ⟨true, 4, 7, some 20⟩
  timers := [1, 2]
  previousTime := 0
  flag := false

theorem listExpiredCb_exact_two :
    ∃ cbs m', listExpiredCb 7 3 dueTimers = .ok cbs m' ∧ ExpiredExactly 7 dueTimers cbs m' := by
  have hsorted : Sorted dueTimers.before dueTimers.timers := by
    unfold Sorted
    decide
  exact listExpiredCb_exact hsorted 3 (by decide)

example : (match listExpiredCb 7 1 dueTimers with
    | .ok cbs m => (cbs, m.timers)
    | _ => ([], [])) = ([some 10, some 20], [2]) := by decide

end TimerManager
end TwServer
