import Mathlib.Tactic.TypeStar

/-! Lists as storage: overwriting and reading back a segment, and how both
split over a concatenation. -/

namespace Blocks
variable {α : Type*}

/-- `l` with the elements from `pos` on replaced by those of `b`. -/
def overwrite (l : List α) (pos : Nat) (b : List α) : List α :=
  l.take pos ++ b ++ l.drop (pos + b.length)

/-- The `n` elements of `l` from `pos` on. -/
def slice (l : List α) (pos n : Nat) : List α := (l.drop pos).take n

@[simp] theorem overwrite_nil (l : List α) (pos : Nat) : overwrite l pos [] = l := by
  simp [overwrite]

@[simp] theorem slice_zero (l : List α) (pos : Nat) : slice l pos 0 = [] := by simp [slice]

theorem length_overwrite {l : List α} {pos : Nat} {b : List α} (h : pos + b.length ≤ l.length) :
    (overwrite l pos b).length = l.length := by
  simp only [overwrite, List.length_append, List.length_take, List.length_drop]
  omega

/-- Nothing of `l` is left. -/
theorem overwrite_all {l b : List α} (h : l.length ≤ b.length) : overwrite l 0 b = b := by
  rw [overwrite, List.take_zero, List.nil_append, List.drop_eq_nil_of_le (by omega),
    List.append_nil]

theorem length_slice {l : List α} {pos n : Nat} (h : pos + n ≤ l.length) :
    (slice l pos n).length = n := by
  simp only [slice, List.length_take, List.length_drop]
  omega

theorem getElem?_slice {l : List α} {pos n i : Nat} (h : i < n) :
    (slice l pos n)[i]? = l[pos + i]? := by
  unfold slice
  rw [List.getElem?_take_of_lt h, List.getElem?_drop]

theorem eq_slice_iff {l b : List α} {pos n : Nat} (hb : b.length = n)
    (h : pos + n ≤ l.length) : b = slice l pos n ↔ ∀ i < n, b[i]? = l[pos + i]? := by
  have hlen := length_slice h
  constructor
  · intro hsame i hi
    rw [hsame, getElem?_slice hi]
  · intro hall
    refine List.ext_getElem? fun i => ?_
    by_cases hi : i < n
    · rw [hall i hi, getElem?_slice hi]
    · rw [List.getElem?_eq_none (by omega), List.getElem?_eq_none (by omega)]

theorem overwrite_append_right {l m : List α} {pos : Nat} {b : List α} :
    overwrite (l ++ m) (l.length + pos) b = l ++ overwrite m pos b := by
  simp only [overwrite, List.take_append, List.drop_append, List.append_assoc]
  rw [List.take_of_length_le (by omega), List.drop_eq_nil_of_le (by omega)]
  simp [Nat.add_assoc]

theorem overwrite_append_left {l m : List α} {pos : Nat} {b : List α}
    (h : pos + b.length ≤ l.length) : overwrite (l ++ m) pos b = overwrite l pos b ++ m := by
  simp only [overwrite, List.append_assoc]
  rw [List.take_append_of_le_length (by omega), List.drop_append_of_le_length h]

/-- Overwriting may run past the first part. -/
theorem overwrite_append {l m : List α} {pos : Nat} {b : List α} (h : pos ≤ l.length) :
    overwrite (l ++ m) pos b = overwrite l pos b ++ m.drop (pos + b.length - l.length) := by
  simp only [overwrite, List.drop_append, List.append_assoc]
  rw [List.take_append_of_le_length h]

theorem le_length_overwrite {l : List α} {pos n : Nat} {b : List α} (h : pos ≤ l.length)
    (hn : n ≤ max l.length (pos + b.length)) : n ≤ (overwrite l pos b).length := by
  simp only [overwrite, List.length_append, List.length_take, List.length_drop]
  omega

/-- Two overwrites that follow each other are one. -/
theorem overwrite_overwrite {l : List α} {pos : Nat} {b c : List α}
    (h : pos + b.length + c.length ≤ l.length) :
    overwrite (overwrite l pos b) (pos + b.length) c = overwrite l pos (b ++ c) := by
  have hl : (l.take pos ++ b).length = pos + b.length := by
    simp only [List.length_append, List.length_take]; omega
  have hp : pos + b.length = (l.take pos ++ b).length + 0 := by omega
  conv => lhs; rw [overwrite.eq_def l pos b, hp, overwrite_append_right]
  simp only [overwrite, List.take_zero, List.nil_append, List.append_assoc, List.length_append,
    Nat.zero_add, List.drop_drop, List.length_take]
  rw [Nat.min_eq_left (by omega)]
  simp [Nat.add_assoc]

theorem slice_append_right {l m : List α} {pos n : Nat} :
    slice (l ++ m) (l.length + pos) n = slice m pos n := by
  simp only [slice, List.drop_append]
  rw [List.drop_eq_nil_of_le (by omega)]
  simp

theorem slice_append_left {l m : List α} {pos n : Nat} (h : pos + n ≤ l.length) :
    slice (l ++ m) pos n = slice l pos n := by
  unfold slice
  rw [List.drop_append_of_le_length (by omega),
    List.take_append_of_le_length (by rw [List.length_drop]; omega)]

theorem slice_add (l : List α) (pos m n : Nat) :
    slice l pos (m + n) = slice l pos m ++ slice l (pos + m) n := by
  simp [slice, List.take_add, List.drop_drop]

theorem slice_overwrite_self {l : List α} {pos : Nat} {b : List α}
    (h : pos + b.length ≤ l.length) : slice (overwrite l pos b) pos b.length = b := by
  have hl : (l.take pos).length = pos := by rw [List.length_take]; omega
  unfold slice overwrite
  rw [List.append_assoc, List.drop_append_of_le_length (by omega)]
  simp [List.drop_eq_nil_of_le, hl]

end Blocks
