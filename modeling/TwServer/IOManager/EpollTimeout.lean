import TwServer.IOManager.Tickle

/-! The last argument of `epoll_wait` for any timers. The remaining time is compared
after it was cut to an `int`, so a deadline that is 2^31 milliseconds away passes
for one in the past and the argument is negative: the wait has no end. -/

namespace TwServer
open Programs

namespace Tickle

/-- `nexttime` after the test against `MAX_TIMEOUT`. -/
def clamp (nexttime : Nat) : Nat :=
  if nexttime ≠ noTimeout then if toInt nexttime > 3000 then 3000 else nexttime else 3000

/-- `nexttime` at the call of `epoll_wait` that follows `retries` EINTRs. -/
def nexttimeAfter (nexttime : Nat) : Nat → Nat
  | 0 => clamp nexttime
  | retries + 1 => clamp (nexttimeAfter nexttime retries)

def epollTimeoutAfter (nexttime retries : Nat) : Int := toInt (nexttimeAfter nexttime retries)

theorem epollTimeout_eq (nexttime : Nat) : epollTimeout nexttime = epollTimeoutAfter nexttime 0 := rfl

/-- Every wait is between 0 and 3000 milliseconds, and no longer than `nexttime`. -/
def Bounded (nexttime : Nat) : Prop :=
  ∀ retries, 0 ≤ epollTimeoutAfter nexttime retries ∧ epollTimeoutAfter nexttime retries ≤ 3000 ∧
    epollTimeoutAfter nexttime retries ≤ nexttime

/-! ## One round of the retry loop -/

theorem toInt_eq (n : Nat) :
    toInt n = if n % 2 ^ 32 < 2 ^ 31 then ((n % 2 ^ 32 : Nat) : Int)
      else ((n % 2 ^ 32 : Nat) : Int) - 2 ^ 32 := by
  unfold toInt Int.bmod
  dsimp only
  split <;> split <;> omega

theorem clamp_cases (n : Nat) :
    (clamp n = 3000 ∧ (n = noTimeout ∨ 3000 < toInt n)) ∨
      (clamp n = n ∧ n ≠ noTimeout ∧ toInt n ≤ 3000) := by
  unfold clamp
  by_cases hn : n = noTimeout
  · exact Or.inl ⟨if_neg (not_not_intro hn), Or.inl hn⟩
  · rw [if_pos hn]
    by_cases hlong : toInt n > 3000
    · exact Or.inl ⟨if_pos hlong, Or.inr hlong⟩
    · exact Or.inr ⟨if_neg hlong, hn, Int.not_lt.mp hlong⟩

/-- A second round finds nothing to cut. -/
theorem clamp_clamp (n : Nat) : clamp (clamp n) = clamp n := by
  rcases clamp_cases n with ⟨h, -⟩ | ⟨h, -, -⟩
  · rw [h]
    decide
  · rw [h, h]

theorem nexttimeAfter_eq (n retries : Nat) : nexttimeAfter n retries = clamp n := by
  induction retries with
  | zero => rfl
  | succ retries ih => rw [nexttimeAfter, ih, clamp_clamp]

/-! ## When the waits are bounded -/

theorem bounded_iff (n : Nat) : Bounded n ↔ n = noTimeout ∨ n % 2 ^ 32 < 2 ^ 31 := by
  unfold Bounded epollTimeoutAfter
  simp only [nexttimeAfter_eq, forall_const]
  have hn := toInt_eq n
  rcases clamp_cases n with ⟨hclamp, hlong⟩ | ⟨hclamp, hne, hshort⟩
  · have h3000 : toInt 3000 = 3000 := by decide
    rw [hclamp, h3000]
    rcases hlong with rfl | hlong
    · exact iff_of_true (by decide) (Or.inl rfl)
    · split at hn
      · rename_i hlow
        exact iff_of_true (by omega) (Or.inr hlow)
      · omega
  · rw [hclamp, or_iff_right hne]
    split at hn
    · rename_i hlow
      exact iff_of_true (by omega) hlow
    · rename_i hhigh
      exact iff_of_false (by omega) hhigh

/-- The first timer, if there is one, is due or its remaining time has a 0 in bit 31. -/
def Near (now : Nat) (m : TimerManager) : Prop :=
  ∀ t ∈ m.timers.head?, (m.heap t).next - now = noTimeout ∨
    ((m.heap t).next - now) % 2 ^ 32 < 2 ^ 31

/-- For every set of timers and every clock reading, all the waits after `getNextTime()`
are bounded exactly if the first deadline is near. -/
theorem timeout_bounded_iff (now : Nat) (m : TimerManager) :
    ∃ n m', m.getNextTime now = .ok n m' ∧ (Bounded n ↔ Near now m) := by
  unfold TimerManager.getNextTime Near
  cases hm : m.timers with
  | nil => exact ⟨_, _, rfl, (bounded_iff _).trans (iff_of_true (Or.inl rfl) (by simp))⟩
  | cons t rest =>
    refine ⟨_, _, rfl, (bounded_iff _).trans ?_⟩
    simp only [List.head?_cons, Option.mem_def, Option.some.injEq, forall_eq']
    split
    · rename_i hdue
      rw [Nat.sub_eq_zero_of_le hdue]
    · rfl

/-- One timer of 2^31 milliseconds, set at 0. -/
def farTimer : TimerManager where
  heap _ := .new 0 (2 ^ 31) 1 false
  timers := [0]
  previousTime := 0
  flag := true

/-- The wait for it has no end. -/
theorem far_deadline_waits_forever : ¬ ∀ (now : Nat) (m : TimerManager),
    ∃ n m', m.getNextTime now = .ok n m' ∧ Bounded n := by
  intro hall
  obtain ⟨n, m', hrun, hbounded⟩ := hall 0 farTimer
  cases hrun
  exact absurd (hbounded 0).1 (by decide)

end Tickle
end TwServer
