import Mathlib.Tactic.TypeStar

/-! Labelled transition systems: runs, reachable states, and the induction
rules for invariants of every reachable state and of every run. -/

namespace Runs

structure System (σ : Type*) (ℓ : Type*) where
  init : σ → Prop
  step : σ → ℓ → σ → Prop

variable {σ ℓ : Type*}

/-- `Run S s ls t`: the steps labelled `ls`, in order, lead from `s` to `t`. -/
inductive Run (S : System σ ℓ) : σ → List ℓ → σ → Prop
  | refl (s : σ) : Run S s [] s
  | next {s t u : σ} {l : ℓ} {ls : List ℓ} :
      S.step s l t → Run S t ls u → Run S s (l :: ls) u

inductive Reachable (S : System σ ℓ) : σ → Prop
  | init {s : σ} : S.init s → Reachable S s
  | step {s t : σ} {l : ℓ} : Reachable S s → S.step s l t → Reachable S t

namespace System
variable (S : System σ ℓ)

/-- The system whose steps all meet `C`. -/
def restrict (C : σ → ℓ → Prop) : System σ ℓ where
  init := S.init
  step s l t := S.step s l t ∧ C s l

/-- `I` holds at the start and is kept by every step. -/
structure Inductive (I : σ → Prop) : Prop where
  init : ∀ s, S.init s → I s
  step : ∀ s l t, I s → S.step s l t → I t

end System

variable {S : System σ ℓ}

theorem System.Inductive.reachable {I : σ → Prop} (hI : S.Inductive I) {s : σ}
    (h : Reachable S s) : I s := by
  induction h with
  | init hs => exact hI.init _ hs
  | step _ hst ih => exact hI.step _ _ _ ih hst

/-- An invariant that needs another one, already known of every reachable state. -/
theorem Reachable.invariant {I J : σ → Prop} (hI : ∀ s, Reachable S s → I s)
    (hinit : ∀ s, S.init s → J s)
    (hstep : ∀ s l t, I s → J s → S.step s l t → J t) {s : σ} (h : Reachable S s) : J s := by
  induction h with
  | init hs => exact hinit _ hs
  | step hr hst ih => exact hstep _ _ _ (hI _ hr) ih hst

theorem Run.append {s t u : σ} {ls ms : List ℓ} (h : Run S s ls t) (h' : Run S t ms u) :
    Run S s (ls ++ ms) u := by
  induction h with
  | refl _ => exact h'
  | next hstep _ ih => exact Run.next hstep (ih h')

theorem Reachable.of_restrict {C : σ → ℓ → Prop} {s : σ}
    (h : Reachable (S.restrict C) s) : Reachable S s := by
  induction h with
  | init hs => exact Reachable.init hs
  | step _ hst ih => exact ih.step hst.1

/-! ## Simulation -/

/-- Every step of `S` is answered by a step of `T` under the same label that
keeps the two states related. -/
structure Simulation {τ : Type*} (S : System σ ℓ) (T : System τ ℓ) (R : σ → τ → Prop) : Prop where
  init : ∀ s, S.init s → ∃ t, T.init t ∧ R s t
  step : ∀ s l s' t, R s t → S.step s l s' → ∃ t', T.step t l t' ∧ R s' t'

theorem Simulation.run {τ : Type*} {T : System τ ℓ} {R : σ → τ → Prop} (h : Simulation S T R)
    {s s' : σ} {ls : List ℓ} (hr : Run S s ls s') {t : τ} (hst : R s t) :
    ∃ t', Run T t ls t' ∧ R s' t' := by
  induction hr generalizing t with
  | refl _ => exact ⟨t, Run.refl t, hst⟩
  | next hstep _ ih =>
    obtain ⟨u, htu, hu⟩ := h.step _ _ _ _ hst hstep
    obtain ⟨t', hrun, ht'⟩ := ih hu
    exact ⟨t', Run.next htu hrun, ht'⟩

end Runs
