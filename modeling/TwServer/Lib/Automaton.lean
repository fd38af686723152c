import Mathlib.Tactic.ByContra
import Mathlib.Tactic.TypeStar

/-! Automata that read a list of inputs one by one and may stop before its end. An
input on which the automaton rejects stays unread. -/

namespace Automaton

inductive Move (σ : Type*) where
  | next (s : σ)
  | accept (s : σ)
  | reject (s : σ)

inductive Status where
  | running
  | accepted
  | rejected
  deriving DecidableEq, Repr

structure Result (σ : Type*) where
  state : σ
  consumed : Nat
  status : Status

variable {σ τ β : Type*}

namespace Move

def state : Move σ → σ
  | next s | accept s | reject s => s

def status : Move σ → Status
  | next _ => .running
  | accept _ => .accepted
  | reject _ => .rejected

def map (f : σ → τ) : Move σ → Move τ
  | next s => next (f s)
  | accept s => accept (f s)
  | reject s => reject (f s)

end Move

/-- One more input was read in front. -/
def Result.after (r : Result σ) : Result σ := { r with consumed := r.consumed + 1 }

def run (step : σ → β → Move σ) : σ → List β → Result σ
  | s, [] => ⟨s, 0, .running⟩
  | s, b :: bs =>
    match step s b with
    | .next s' => (run step s' bs).after
    | .accept s' => ⟨s', 1, .accepted⟩
    | .reject s' => ⟨s', 0, .rejected⟩

section
variable {step : σ → β → Move σ} {s s' : σ} {b : β} {xs ys : List β}

theorem run_next (h : step s b = .next s') : run step s (b :: xs) = (run step s' xs).after := by
  rw [run, h]

theorem run_accept (h : step s b = .accept s') : run step s (b :: xs) = ⟨s', 1, .accepted⟩ := by
  rw [run, h]

theorem run_reject (h : step s b = .reject s') : run step s (b :: xs) = ⟨s', 0, .rejected⟩ := by
  rw [run, h]

theorem consumed_of_running (h : (run step s xs).status = .running) :
    (run step s xs).consumed = xs.length := by
  induction xs generalizing s with
  | nil => rfl
  | cons b xs ih =>
    cases hb : step s b with
    | next s' =>
      rw [run_next hb] at h ⊢
      exact congrArg (· + 1) (ih h)
    | accept s' =>
      rw [run_accept hb] at h
      cases h
    | reject s' =>
      rw [run_reject hb] at h
      cases h

theorem consumed_le (step : σ → β → Move σ) (s : σ) (xs : List β) :
    (run step s xs).consumed ≤ xs.length := by
  induction xs generalizing s with
  | nil => exact Nat.le_refl 0
  | cons b xs ih =>
    cases hb : step s b with
    | next s' =>
      rw [run_next hb]
      exact Nat.succ_le_succ (ih s')
    | accept s' =>
      rw [run_accept hb]
      exact Nat.succ_le_succ (Nat.zero_le _)
    | reject s' =>
      rw [run_reject hb]
      exact Nat.zero_le _

/-- What has stopped does not look at what follows. -/
theorem run_append_stopped (h : (run step s xs).status ≠ .running) :
    run step s (xs ++ ys) = run step s xs := by
  induction xs generalizing s with
  | nil => exact absurd rfl h
  | cons b xs ih =>
    cases hb : step s b with
    | next s' =>
      rw [run_next hb] at h
      rw [List.cons_append, run_next hb, run_next hb, ih h]
    | accept s' => rw [List.cons_append, run_accept hb, run_accept hb]
    | reject s' => rw [List.cons_append, run_reject hb, run_reject hb]

/-- What has not goes on from the state it is in. -/
theorem run_append_running (h : (run step s xs).status = .running) :
    run step s (xs ++ ys) =
      { run step (run step s xs).state ys with
        consumed := xs.length + (run step (run step s xs).state ys).consumed } := by
  induction xs generalizing s with
  | nil =>
    show run step s ys = { run step s ys with consumed := 0 + (run step s ys).consumed }
    rw [Nat.zero_add]
  | cons b xs ih =>
    cases hb : step s b with
    | next s' =>
      rw [run_next hb] at h
      have hxs := ih h
      rw [List.cons_append, run_next hb, run_next hb, hxs]
      simp only [Result.after, List.length_cons, Result.mk.injEq, true_and, and_true]
      omega
    | accept s' =>
      rw [run_accept hb] at h
      cases h
    | reject s' =>
      rw [run_reject hb] at h
      cases h

/-- An automaton that reads a list to its end has read every part of it. -/
theorem running_of_append (h : (run step s (xs ++ ys)).consumed = (xs ++ ys).length)
    (hys : ys ≠ []) : (run step s xs).status = .running := by
  cases hst : (run step s xs).status with
  | running => rfl
  | accepted | rejected =>
    have hstop : (run step s xs).status ≠ .running := by
      rw [hst]
      exact Status.noConfusion
    rw [run_append_stopped hstop, List.length_append] at h
    have := consumed_le step s xs
    have := List.length_pos_iff.mpr hys
    omega

/-- A map between the states that commutes with the steps commutes with the runs. -/
theorem run_map {step' : τ → β → Move τ} (f : σ → τ) (hstep : ∀ s b, (step s b).map f = step' (f s) b)
    (s : σ) (xs : List β) :
    (⟨f (run step s xs).state, (run step s xs).consumed, (run step s xs).status⟩ : Result τ) =
      run step' (f s) xs := by
  induction xs generalizing s with
  | nil => rfl
  | cons b xs ih =>
    have hb' := hstep s b
    cases hb : step s b with
    | next s' =>
      rw [hb] at hb'
      rw [run_next hb, run_next hb'.symm, ← ih s']
      rfl
    | accept s' =>
      rw [hb] at hb'
      rw [run_accept hb, run_accept hb'.symm]
    | reject s' =>
      rw [hb] at hb'
      rw [run_reject hb, run_reject hb'.symm]

/-- A run ends as its last move does. -/
theorem run_ends {P : Status → σ → Prop} (hstep : ∀ s b, P (step s b).status (step s b).state)
    (h : P .running s) : P (run step s xs).status (run step s xs).state := by
  induction xs generalizing s with
  | nil => exact h
  | cons b xs ih =>
    have hb' := hstep s b
    cases hb : step s b with
    | next s' =>
      rw [hb] at hb'
      rw [run_next hb]
      exact ih hb'
    | accept s' =>
      rw [hb] at hb'
      rw [run_accept hb]
      exact hb'
    | reject s' =>
      rw [hb] at hb'
      rw [run_reject hb]
      exact hb'

/-- What every step keeps the run keeps. -/
theorem run_keeps {I : σ → Prop} (hstep : ∀ s b, I s → I (step s b).state) (h : I s) :
    I (run step s xs).state := by
  induction xs generalizing s with
  | nil => exact h
  | cons b xs ih =>
    have hb' := hstep s b h
    cases hb : step s b with
    | next s' =>
      rw [hb] at hb'
      rw [run_next hb]
      exact ih hb'
    | accept s' =>
      rw [hb] at hb'
      rw [run_accept hb]
      exact hb'
    | reject s' =>
      rw [hb] at hb'
      rw [run_reject hb]
      exact hb'

end

/-! ## Feeding -/

/-- The state behind a list that the automaton reads without stopping. -/
def feed (step : σ → β → Move σ) : σ → List β → Option σ
  | s, [] => some s
  | s, b :: bs =>
    match step s b with
    | .next s' => feed step s' bs
    | .accept _ | .reject _ => none

section
variable {step : σ → β → Move σ} {s s' t : σ} {b : β} {xs ys : List β}

theorem feed_next (h : step s b = .next s') : feed step s (b :: xs) = feed step s' xs := by
  rw [feed, h]

theorem feed_append (h : feed step s xs = some t) : feed step s (xs ++ ys) = feed step t ys := by
  induction xs generalizing s with
  | nil =>
    cases h
    rfl
  | cons b xs ih =>
    rw [feed] at h
    cases hb : step s b with
    | next s' =>
      rw [hb] at h
      rw [List.cons_append, feed_next hb]
      exact ih h
    | accept s' | reject s' =>
      rw [hb] at h
      cases h

theorem run_of_feed (h : feed step s xs = some t) : run step s (xs ++ ys) =
    { run step t ys with consumed := xs.length + (run step t ys).consumed } := by
  induction xs generalizing s with
  | nil =>
    cases h
    rw [List.nil_append, List.length_nil, Nat.zero_add]
  | cons b xs ih =>
    rw [feed] at h
    cases hb : step s b with
    | next s' =>
      rw [hb] at h
      rw [List.cons_append, run_next hb, ih h]
      simp only [Result.after, List.length_cons, Result.mk.injEq, true_and, and_true]
      omega
    | accept s' | reject s' =>
      rw [hb] at h
      cases h

end

/-! ## Every step of a run -/

/-- `P` holds of each state of the run and the input it reads there. -/
def Always (step : σ → β → Move σ) (P : σ → β → Prop) : σ → List β → Prop
  | _, [] => True
  | s, b :: bs => P s b ∧ ∀ s', step s b = .next s' → Always step P s' bs

section
variable {step : σ → β → Move σ} {P : σ → β → Prop} {s : σ} {xs : List β}

theorem always_of_forall (h : ∀ s, ∀ b ∈ xs, P s b) : Always step P s xs := by
  induction xs generalizing s with
  | nil => trivial
  | cons b xs ih =>
    refine ⟨h s b (by simp), fun s' _ => ih fun s b hb => h s b (List.mem_cons_of_mem _ hb)⟩

/-- Automata that move alike where `P` holds are within it together. -/
theorem Always.congr {step' : σ → β → Move σ} (hstep : ∀ s b, P s b → step' s b = step s b)
    (h : Always step P s xs) : Always step' P s xs := by
  induction xs generalizing s with
  | nil => trivial
  | cons b xs ih =>
    refine ⟨h.1, fun s' hs' => ih (h.2 s' ?_)⟩
    rw [← hstep s b h.1]
    exact hs'

/-- Where a step without `P` rejects, a run that is not always within `P` does. -/
theorem rejected_of_not_always (hreject : ∀ s b, ¬P s b → (step s b).status = .rejected)
    (h : ¬Always step P s xs) : (run step s xs).status = .rejected := by
  induction xs generalizing s with
  | nil => exact absurd trivial h
  | cons b xs ih =>
    by_cases hP : P s b
    · obtain ⟨s', hs', hrest⟩ : ∃ s', step s b = .next s' ∧ ¬Always step P s' xs := by
        by_contra hnone
        exact h ⟨hP, fun s' hs' => by_contra fun hrest => hnone ⟨s', hs', hrest⟩⟩
      rw [run_next hs']
      exact ih hrest
    · have hstatus := hreject s b hP
      cases hstep : step s b with
      | next s' | accept s' =>
        rw [hstep] at hstatus
        cases hstatus
      | reject s' =>
        rw [run_reject hstep]

end

/-! ## Two automata -/

/-- The same kind of move, to related states. -/
def Move.Related (R : Status → σ → τ → Prop) (m : Move σ) (m' : Move τ) : Prop :=
  m.status = m'.status ∧ R m.status m.state m'.state

section
variable {step : σ → β → Move σ} {step' : τ → β → Move τ} {R : Status → σ → τ → Prop}
  {P : τ → β → Prop} {s : σ} {s' : τ} {xs : List β}

/-- Automata that move alike where `P` holds run alike where it always does. -/
theorem run_related
    (hstep : ∀ s s' b, R .running s s' → P s' b → (step s b).Related R (step' s' b))
    (h : R .running s s') (hP : Always step' P s' xs) :
    (run step s xs).status = (run step' s' xs).status ∧
      (run step s xs).consumed = (run step' s' xs).consumed ∧
      R (run step s xs).status (run step s xs).state (run step' s' xs).state := by
  induction xs generalizing s s' with
  | nil => exact ⟨rfl, rfl, h⟩
  | cons b xs ih =>
    obtain ⟨hstatus, hR⟩ := hstep s s' b h hP.1
    cases hs : step s b with
    | next t =>
      rw [hs] at hstatus hR
      cases hs' : step' s' b with
      | next t' =>
        rw [hs'] at hR
        obtain ⟨hended, hconsumed, hstate⟩ := ih hR (hP.2 t' hs')
        rw [run_next hs, run_next hs']
        exact ⟨hended, congrArg (· + 1) hconsumed, hstate⟩
      | accept t' | reject t' =>
        rw [hs'] at hstatus
        cases hstatus
    | accept t =>
      rw [hs] at hstatus hR
      cases hs' : step' s' b with
      | accept t' =>
        rw [hs'] at hR
        rw [run_accept hs, run_accept hs']
        exact ⟨rfl, rfl, hR⟩
      | next t' | reject t' =>
        rw [hs'] at hstatus
        cases hstatus
    | reject t =>
      rw [hs] at hstatus hR
      cases hs' : step' s' b with
      | reject t' =>
        rw [hs'] at hR
        rw [run_reject hs, run_reject hs']
        exact ⟨rfl, rfl, hR⟩
      | next t' | accept t' =>
        rw [hs'] at hstatus
        cases hstatus

end
end Automaton
