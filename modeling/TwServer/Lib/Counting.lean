import Mathlib.Algebra.BigOperators.Fin
import Mathlib.Algebra.Order.BigOperators.Group.Finset

/-! Counters over finitely many parties: how many of them satisfy a test, and how
that number follows when one party changes. -/

namespace Counting
variable {ι α : Type*} [Fintype ι] [DecidableEq ι]

/-- `--n` on a `size_t`. -/
def decrement (n : Nat) : Nat := if n = 0 then 2 ^ 64 - 1 else n - 1

theorem decrement_of_pos {n : Nat} (h : 0 < n) : decrement n + 1 = n := by
  rw [decrement, if_neg (by omega)]
  omega

/-- The number of parties whose value passes `p`. -/
def count (p : α → Bool) (f : ι → α) : Nat := ∑ i, (p (f i)).toNat

theorem count_update (p : α → Bool) (f : ι → α) (i : ι) (a : α) :
    count p (Function.update f i a) + (p (f i)).toNat = count p f + (p a).toNat := by
  have hrest : ∀ j ∈ Finset.univ.erase i, (p (Function.update f i a j)).toNat = (p (f j)).toNat := by
    intro j hj
    rw [Function.update_of_ne (Finset.ne_of_mem_erase hj)]
  unfold count
  rw [← Finset.add_sum_erase _ _ (Finset.mem_univ i), Finset.sum_congr rfl hrest,
    ← Finset.add_sum_erase _ (fun j => (p (f j)).toNat) (Finset.mem_univ i), Function.update_self]
  omega

omit [DecidableEq ι] in
theorem count_eq_zero {p : α → Bool} {f : ι → α} : count p f = 0 ↔ ∀ i, p (f i) = false := by
  unfold count
  rw [Finset.sum_eq_zero_iff]
  constructor
  · intro h i
    have := h i (Finset.mem_univ i)
    cases hp : p (f i) with
    | false => rfl
    | true =>
      rw [hp] at this
      cases this
  · intro h i _
    rw [h i]
    rfl

omit [DecidableEq ι] in
theorem count_pos {p : α → Bool} {f : ι → α} {i : ι} (h : p (f i) = true) : 0 < count p f := by
  rcases Nat.eq_zero_or_pos (count p f) with h0 | hpos
  · rw [count_eq_zero.mp h0 i] at h
    cases h
  · exact hpos

/-- A counter that a party raises when it starts to pass `p` and lowers when it
stops to is the number of parties that pass. -/
theorem counter_update {p : α → Bool} {f : ι → α} {i : ι} {a : α} {n m : Nat}
    (h : n = count p f) (hm : m + (p (f i)).toNat = n + (p a).toNat) :
    m = count p (Function.update f i a) := by
  have := count_update p f i a
  omega

end Counting
