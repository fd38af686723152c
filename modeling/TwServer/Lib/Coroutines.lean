import Mathlib.Logic.Function.Basic

/-! Coroutines that threads switch between: the context of each holds the point where it was
suspended, and a switch saves one and goes on with another. A point is known by how often its
coroutine was suspended before. -/

namespace Coroutines

/-- The code of `who` behind its `turn`-th suspension. -/
structure Point (R : Type*) where
  who : R
  turn : Nat

/-- `saved` counts the suspensions, for the statements only. -/
structure Memory (T R : Type*) where
  cpu : T → Point R
  context : R → Point R
  saved : R → Nat

section
variable {T R : Type*} [DecidableEq T] [DecidableEq R]

/-- The thread saves where it is in the context `a` and goes on where `b` says. -/
def Memory.swap (m : Memory T R) (w : T) (a b : R) : Memory T R :=
  let here := m.cpu w
  let context := Function.update m.context a ⟨here.who, here.turn + 1⟩
  { cpu := Function.update m.cpu w (context b)
    context := context
    saved := Function.update m.saved here.who (here.turn + 1) }

/-- A context that starts at the beginning of `r`. -/
def Memory.make (m : Memory T R) (r : R) : Memory T R :=
  { m with context := Function.update m.context r ⟨r, 0⟩ }

end

/-- Every thread runs a coroutine of its own from its last suspension on, and a coroutine that
none runs has that point in its context. -/
structure Proper {T R : Type*} (m : Memory T R) (runs : T → R) : Prop where
  alone : Function.Injective runs
  running : ∀ w, m.cpu w = ⟨runs w, m.saved (runs w)⟩
  waiting : ∀ r, (∀ w, runs w ≠ r) → m.context r = ⟨r, m.saved r⟩

section
variable {T R : Type*} [DecidableEq T] [DecidableEq R] {m : Memory T R} {runs : T → R}

theorem Proper.saved_swap (h : Proper m runs) (w : T) {a b r : R} (hr : r ≠ runs w) :
    (m.swap w a b).saved r = m.saved r := by
  simp only [Memory.swap, h.running w]
  exact Function.update_of_ne hr _ _

/-- A thread may switch from what it runs to what no thread runs. -/
theorem Proper.swap (h : Proper m runs) (w : T) {b : R} (hb : ∀ v, runs v ≠ b) :
    Proper (m.swap w (runs w) b) (Function.update runs w b) := by
  have hhere : m.cpu w = ⟨runs w, m.saved (runs w)⟩ := h.running w
  have hsaved : ∀ r, r ≠ runs w → (m.swap w (runs w) b).saved r = m.saved r :=
    fun r => h.saved_swap w
  have hcontext : ∀ r, r ≠ runs w → (m.swap w (runs w) b).context r = m.context r :=
    fun r hr => Function.update_of_ne hr _ _
  constructor
  · intro u v huv
    by_cases hu : u = w
    · by_cases hv : v = w
      · rw [hu, hv]
      · subst hu
        rw [Function.update_self, Function.update_of_ne hv] at huv
        exact absurd huv.symm (hb v)
    · by_cases hv : v = w
      · subst hv
        rw [Function.update_self, Function.update_of_ne hu] at huv
        exact absurd huv (hb u)
      · rw [Function.update_of_ne hu, Function.update_of_ne hv] at huv
        exact h.alone huv
  · intro v
    by_cases hv : v = w
    · subst hv
      have hbv : b ≠ runs v := fun heq => hb v heq.symm
      rw [Function.update_self, hsaved b hbv]
      have hcpu : (m.swap v (runs v) b).cpu v = (m.swap v (runs v) b).context b :=
        Function.update_self _ _ _
      rw [hcpu, hcontext b hbv, h.waiting b hb]
    · have hne : runs v ≠ runs w := fun heq => hv (h.alone heq)
      rw [Function.update_of_ne hv, hsaved _ hne]
      exact (Function.update_of_ne hv _ _).trans (h.running v)
  · intro r hr
    by_cases hrw : r = runs w
    · subst hrw
      have hctx : (m.swap w (runs w) b).context (runs w) = ⟨runs w, m.saved (runs w) + 1⟩ := by
        simp only [Memory.swap, hhere]
        exact Function.update_self _ _ _
      have hsave : (m.swap w (runs w) b).saved (runs w) = m.saved (runs w) + 1 := by
        simp only [Memory.swap, hhere]
        exact Function.update_self _ _ _
      rw [hctx, hsave]
    · rw [hcontext r hrw, hsaved r hrw]
      refine h.waiting r fun v hv => ?_
      by_cases hvw : v = w
      · exact hrw (hvw ▸ hv.symm)
      · exact hr v ((Function.update_of_ne hvw _ _).trans hv)

omit [DecidableEq T] in
/-- A coroutine that was never suspended may be made again. -/
theorem Proper.make (h : Proper m runs) {r : R} (hr : m.saved r = 0) : Proper (m.make r) runs := by
  refine ⟨h.alone, h.running, fun q hq => ?_⟩
  by_cases hqr : q = r
  · subst hqr
    show Function.update m.context q ⟨q, 0⟩ q = ⟨q, m.saved q⟩
    rw [Function.update_self, hr]
  · exact (Function.update_of_ne hqr _ _).trans (h.waiting q hq)

end
end Coroutines
