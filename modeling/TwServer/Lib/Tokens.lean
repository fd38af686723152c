import Mathlib.Tactic.TypeStar

/-! Tokens in places: a relation `At p x` says that a token of `x` lies at `p`.
While every `x` has at most one, moving, creating and consuming a token are the
same rule. -/

namespace Tokens
variable {P α : Type*}

/-- No `x` has tokens at two places. -/
def Unique (At : P → α → Prop) : Prop := ∀ p q x, At p x → At q x → p = q

/-- Afterwards `x` has a token at `q` at most, and the others have no new ones. -/
theorem Unique.put {At At' : P → α → Prop} (h : Unique At) {q : P} {x : α}
    (hx : ∀ p, At' p x → p = q) (hothers : ∀ p y, y ≠ x → At' p y → At p y) : Unique At' := by
  intro p p' y hp hp'
  by_cases hy : y = x
  · subst hy
    rw [hx p hp, hx p' hp']
  · exact h p p' y (hothers p y hy hp) (hothers p' y hy hp')

section
variable {At At' : P → α → Prop} {p₀ q : P} {x : α}

/-- A token of `x`, which had none, at `q`. -/
theorem Unique.create (h : Unique At) (hnone : ∀ p, ¬ At p x)
    (hat : ∀ p y, At' p y → p = q ∧ y = x ∨ At p y) : Unique At' := by
  refine h.put (q := q) (x := x) ?_ ?_
  · intro p hp
    rcases hat p x hp with ⟨rfl, -⟩ | hp
    · rfl
    · exact absurd hp (hnone p)
  · intro p y hy hp
    rcases hat p y hp with ⟨-, rfl⟩ | hp
    · exact absurd rfl hy
    · exact hp

/-- The token of `x` goes from `p₀` to `q`. -/
theorem Unique.move (h : Unique At) (hx : At p₀ x)
    (hat : ∀ p y, At' p y → p = q ∧ y = x ∨ p ≠ p₀ ∧ At p y) : Unique At' := by
  refine h.put (q := q) (x := x) ?_ ?_
  · intro p hp
    rcases hat p x hp with ⟨rfl, -⟩ | ⟨hne, hp⟩
    · rfl
    · exact absurd (h p p₀ x hp hx) hne
  · intro p y hy hp
    rcases hat p y hp with ⟨-, rfl⟩ | ⟨-, hp⟩
    · exact absurd rfl hy
    · exact hp

theorem had_of_move (hx : At p₀ x) (hat : ∀ p y, At' p y → p = q ∧ y = x ∨ p ≠ p₀ ∧ At p y)
    {p : P} {y : α} (hp : At' p y) : ∃ p', At p' y := by
  rcases hat p y hp with ⟨-, rfl⟩ | ⟨-, hp⟩
  · exact ⟨p₀, hx⟩
  · exact ⟨p, hp⟩

end

theorem Unique.mono {At At' : P → α → Prop} (h : Unique At) (hsub : ∀ p x, At' p x → At p x) :
    Unique At' :=
  fun p q x hp hq => h p q x (hsub p x hp) (hsub q x hq)

end Tokens
