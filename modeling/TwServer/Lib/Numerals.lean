import Mathlib.Data.Nat.Digits.Defs

/-! Numerals in a base up to sixteen, as `Nat.toDigits` writes them, read back. -/

namespace Numerals

/-- The value of a digit, also of a large letter. -/
def digitValue (c : Char) : Option Nat :=
  if '0' ≤ c ∧ c ≤ '9' then some (c.toNat - 48)
  else if 'a' ≤ c ∧ c ≤ 'f' then some (c.toNat - 87)
  else if 'A' ≤ c ∧ c ≤ 'F' then some (c.toNat - 55)
  else none

theorem digitValue_digitChar {d : Nat} (h : d < 16) : digitValue d.digitChar = some d := by
  have hall : ∀ d : Fin 16, digitValue d.val.digitChar = some d.val := by decide
  exact hall ⟨d, h⟩

/-- One more digit on the right. -/
def pushDigit (base : Nat) (n : Option Nat) (c : Char) : Option Nat := do
  let n ← n
  let d ← digitValue c
  if d < base then some (base * n + d) else none

theorem pushDigit_digitChar {base d : Nat} (n : Nat) (hbase : base ≤ 16) (h : d < base) :
    pushDigit base (some n) d.digitChar = some (base * n + d) := by
  simp [pushDigit, digitValue_digitChar (Nat.lt_of_lt_of_le h hbase), h]

/-- The number that the digits write. -/
def value (base : Nat) (text : List Char) : Option Nat :=
  text.foldl (pushDigit base) (some 0)

theorem value_toDigits {base : Nat} (hone : 1 < base) (hbase : base ≤ 16) (n : Nat) :
    value base (Nat.toDigits base n) = some n := by
  induction n using Nat.strongRecOn with
  | ind n ih =>
    rw [Nat.toDigits_eq_if hone]
    split
    · rename_i hlt
      exact (pushDigit_digitChar 0 hbase hlt).trans (by simp)
    · rename_i hle
      have hrest := ih (n / base) (Nat.div_lt_self (by omega) hone)
      rw [value] at hrest
      rw [value, List.foldl_append, hrest, List.foldl_cons, List.foldl_nil,
        pushDigit_digitChar _ hbase (Nat.mod_lt n (by omega)), Nat.div_add_mod]

/-- Digits and nothing else. -/
theorem digitValue_of_mem_toDigits {base : Nat} (hone : 1 < base) (hbase : base ≤ 16) {n : Nat} :
    ∀ c ∈ Nat.toDigits base n, (digitValue c).isSome := by
  induction n using Nat.strongRecOn with
  | ind n ih =>
    have hdigit {d : Nat} (h : d < base) : (digitValue d.digitChar).isSome := by
      rw [digitValue_digitChar (Nat.lt_of_lt_of_le h hbase)]
      rfl
    rw [Nat.toDigits_eq_if hone]
    split
    · rename_i hlt
      simpa using hdigit hlt
    · rename_i hle
      intro c hc
      rcases List.mem_append.mp hc with hc | hc
      · exact ih (n / base) (Nat.div_lt_self (by omega) hone) c hc
      · rw [List.mem_singleton.mp hc]
        exact hdigit (Nat.mod_lt n (by omega))

/-- A mark that is no digit is not in a numeral. -/
theorem not_mem_toDigits {base : Nat} (hone : 1 < base) (hbase : base ≤ 16) {mark : Char}
    (hmark : digitValue mark = none) (n : Nat) : mark ∉ Nat.toDigits base n := by
  intro hmem
  have hdigit := digitValue_of_mem_toDigits hone hbase mark hmem
  rw [hmark] at hdigit
  cases hdigit

end Numerals
