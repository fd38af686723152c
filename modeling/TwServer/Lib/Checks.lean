import Mathlib.Logic.Function.Basic

/-! Leaving after a list of checks that are not one step: every party looks at the resources `0`,
`1` and so on, one after the other, and leaves when it has found all of them empty. While a
resource is only filled under the eyes of a party that has yet to look at it, the last one to
leave leaves nothing behind. -/

namespace Checks
variable {W : Type*}

/-- `p w` is the number of resources that `w` has found empty. -/
def Guarded (R : Nat → Prop) (p : W → Nat) : Prop := ∀ k, R k → ∃ w, p w ≤ k

section
variable {R R' : Nat → Prop} {p : W → Nat}

/-- Resources are emptied by anyone, and filled while someone has to look at them. -/
theorem Guarded.fill (h : Guarded R p) (hR : ∀ k, R' k → R k ∨ ∃ w, p w ≤ k) : Guarded R' p := by
  intro k hk
  rcases hR k hk with hold | hnew
  · exact h k hold
  · exact hnew

theorem Guarded.drain (h : Guarded R p) (hR : ∀ k, R' k → R k) : Guarded R' p :=
  h.fill fun k hk => .inl (hR k hk)

/-- Nothing is left when all have looked. -/
theorem Guarded.empty (h : Guarded R p) {n : Nat} (hp : ∀ w, n ≤ p w) : ∀ k < n, ¬R k := by
  intro k hk hR
  obtain ⟨w, hw⟩ := h k hR
  have := hp w
  omega

variable [DecidableEq W]

/-- A party looks at its next resource, which is empty. -/
theorem Guarded.advance (h : Guarded R p) {w : W} (hw : ¬R (p w)) :
    Guarded R (Function.update p w (p w + 1)) := by
  intro k hk
  obtain ⟨v, hv⟩ := h k hk
  by_cases hvw : v = w
  · subst hvw
    have hne : p v ≠ k := fun heq => hw (heq ▸ hk)
    refine ⟨v, ?_⟩
    rw [Function.update_self]
    omega
  · exact ⟨v, by rwa [Function.update_of_ne hvw]⟩

/-- A party starts again. -/
theorem Guarded.restart (h : Guarded R p) (w : W) : Guarded R (Function.update p w 0) := by
  intro k hk
  obtain ⟨v, hv⟩ := h k hk
  by_cases hvw : v = w
  · exact ⟨w, by rw [Function.update_self]; exact Nat.zero_le k⟩
  · exact ⟨v, by rwa [Function.update_of_ne hvw]⟩

end
end Checks
