import Mathlib.Data.UInt

/-! `memcmp` over any strict total order of the elements, and the lexicographic order of
lists where one is a prefix of the other. -/

namespace Memcmp
variable {α : Type*} [LT α] [DecidableLT α]

/-- The sign of the first difference among the first `n` elements. -/
def memcmp : List α → List α → Nat → Int
  | a :: l, b :: m, n + 1 => if a < b then -1 else if b < a then 1 else memcmp l m n
  | _, _, _ => 0

variable [Std.Irrefl (α := α) (· < ·)]

/-- There is no difference. -/
theorem memcmp_eq_zero_iff [Std.Trichotomous (α := α) (· < ·)] {l m : List α} {n : Nat}
    (hl : n ≤ l.length) (hm : n ≤ m.length) : memcmp l m n = 0 ↔ l.take n = m.take n := by
  induction n generalizing l m with
  | zero => simp [memcmp]
  | succ n ih =>
    cases l with
    | nil => cases hl
    | cons a l =>
      cases m with
      | nil => cases hm
      | cons b m =>
        rw [memcmp, List.take_succ_cons, List.take_succ_cons, List.cons.injEq]
        have hrest := ih (Nat.le_of_succ_le_succ hl) (Nat.le_of_succ_le_succ hm)
        by_cases hab : a < b
        · rw [if_pos hab]
          refine iff_of_false (by decide) fun h => ?_
          exact Std.Irrefl.irrefl a (h.1.symm ▸ hab)
        · by_cases hba : b < a
          · rw [if_neg hab, if_pos hba]
            refine iff_of_false (by decide) fun h => ?_
            exact Std.Irrefl.irrefl a (h.1.symm ▸ hba)
          · rw [if_neg hab, if_neg hba, hrest]
            exact (and_iff_right (Std.Trichotomous.trichotomous a b hab hba)).symm

omit [DecidableLT α]

/-- A list is in front of its proper continuations. -/
theorem lt_append_iff {l m : List α} : l < l ++ m ↔ m ≠ [] := by
  induction l with
  | nil =>
    cases m with
    | nil => simp
    | cons b m => simp
  | cons a l ih => rw [List.cons_append, List.cons_lt_cons_self, ih]

/-- And behind none of them. -/
theorem not_append_lt {l m : List α} : ¬ l ++ m < l := by
  induction l with
  | nil => exact List.not_lt_nil _
  | cons a l ih => rw [List.cons_append, List.cons_lt_cons_self]; exact ih

theorem lt_continuation_iff {l m : List α} (h : l <+: m) : l < m ↔ l ≠ m := by
  obtain ⟨t, rfl⟩ := h
  rw [lt_append_iff]
  simp

theorem continuation_not_lt {l m : List α} (h : l <+: m) : ¬ m < l := by
  obtain ⟨t, rfl⟩ := h
  exact not_append_lt

end Memcmp
