import Mathlib.Algebra.Group.Int.Defs

/-! `strtol` of the C library, in the "C" locale, on memory that ends somewhere. -/

namespace Strtol

/-- `isspace`. -/
def isSpace (b : UInt8) : Bool := 9 ≤ b && b ≤ 13 || b = 32

/-- The value of a digit in a base up to sixteen. -/
def value (b : UInt8) : Nat :=
  if 48 ≤ b ∧ b ≤ 57 then b.toNat - 48
  else if 65 ≤ b ∧ b ≤ 70 then b.toNat - 55
  else if 97 ≤ b ∧ b ≤ 102 then b.toNat - 87
  else 16

def isDigit (base : Nat) (b : UInt8) : Bool := value b < base

/-- The number that the digits write. -/
def number (base : Nat) (text : List UInt8) : Nat :=
  text.foldl (fun n b => n * base + value b) 0

/-- The digits at the start; `none` where there is no byte behind them. -/
def magnitude (base : Nat) (m : List UInt8) : Option Nat :=
  let text := m.takeWhile (isDigit base)
  if text.length = m.length then none else some (number base text)

/-- A number in base 16 may start with `0x`. -/
def unprefixed (base : Nat) : List UInt8 → List UInt8
  | 48 :: x :: m => if base = 16 ∧ (x = 88 ∨ x = 120) then m else 48 :: x :: m
  | m => m

/-- The `long` at the start of `m`, 0 without digits and the nearest one where it does not fit;
`none` where the memory ends first. -/
def strtol (base : Nat) (m : List UInt8) : Option Int :=
  match m.dropWhile isSpace with
  | 45 :: m => (magnitude base (unprefixed base m)).map fun n => max (-2 ^ 63) (-n)
  | 43 :: m => (magnitude base (unprefixed base m)).map fun n => min (2 ^ 63 - 1) n
  | m => (magnitude base (unprefixed base m)).map fun n => min (2 ^ 63 - 1) n

section
variable {base : Nat} {text rest : List UInt8} {b : UInt8}

theorem magnitude_digits (htext : ∀ d ∈ text, isDigit base d = true) (hb : isDigit base b = false) :
    magnitude base (text ++ b :: rest) = some (number base text) := by
  have htake : (text ++ b :: rest).takeWhile (isDigit base) = text := by
    rw [List.takeWhile_append_of_pos htext, List.takeWhile_cons_of_neg (by simp [hb]),
      List.append_nil]
  rw [magnitude, htake, if_neg]
  simp

theorem isDigit_cases (hbase : base ≤ 16) (h : isDigit base b = true) :
    48 ≤ b ∧ b ≤ 57 ∨ 65 ≤ b ∧ b ≤ 70 ∨ 97 ≤ b ∧ b ≤ 102 := by
  unfold isDigit value at h
  split at h
  · exact .inl ‹_›
  · split at h
    · exact .inr (.inl ‹_›)
    · split at h
      · exact .inr (.inr ‹_›)
      · have hlt := of_decide_eq_true h
        omega

/-- Digits with something behind them that cannot go on with them. -/
theorem strtol_digits (hbase : base ≤ 16) (hne : text ≠ [])
    (htext : ∀ d ∈ text, isDigit base d = true) (hb : isDigit base b = false)
    (hx : b ≠ 88 ∧ b ≠ 120) :
    strtol base (text ++ b :: rest) = some (min (2 ^ 63 - 1) (number base text : Int)) := by
  obtain ⟨d, text, rfl⟩ := List.exists_cons_of_ne_nil hne
  have hd := isDigit_cases hbase (htext d List.mem_cons_self)
  have hspace : isSpace d = false := by
    unfold isSpace
    grind
  have hprefixed : unprefixed base (d :: text ++ b :: rest) = d :: text ++ b :: rest := by
    have hnext : ∀ x m, text ++ b :: rest = x :: m → ¬(x = 88 ∨ x = 120) := by
      intro x m h
      cases text with
      | nil =>
        cases h
        exact not_or.mpr hx
      | cons e text =>
        cases h
        have hdigit := isDigit_cases hbase (htext x (by simp))
        grind
    rw [List.cons_append]
    unfold unprefixed
    split
    · rename_i x m hcons
      injection hcons with hzero hcons
      rw [if_neg fun h => hnext x m hcons h.2, hzero, hcons]
    · rfl
  have hdrop : (d :: text ++ b :: rest).dropWhile isSpace = d :: text ++ b :: rest := by
    rw [List.cons_append, List.dropWhile_cons_of_neg (by simp [hspace])]
  unfold strtol
  rw [hdrop]
  split
  · rename_i m hcons
    injection hcons with hsign
    subst hsign
    exact absurd hd (by decide)
  · rename_i m hcons
    injection hcons with hsign
    subst hsign
    exact absurd hd (by decide)
  · rw [hprefixed, magnitude_digits htext hb]
    rfl

end
end Strtol
