import Mathlib.Tactic.TypeStar

/-! Programs over one mutable state. A program returns, throws with the state
as it stands, or stops at a fault that leaves no state behind. `Keeps` is the
invariant triple the developments below compose. -/

namespace Programs

/-- What ends a program for good. -/
inductive Fault where
  | nullPointer
  | divisionByZero
  | assertion (text : String)
  | outOfBounds
  | outOfStack
  deriving DecidableEq, Repr

inductive Outcome (σ : Type*) (α : Type*) where
  | ok (a : α) (s : σ)
  | throw (what : String) (s : σ)
  | fault (why : Fault)

namespace Outcome
variable {σ : Type*} {α : Type*}

/-- The state a finished program leaves, if it leaves one. -/
def state? : Outcome σ α → Option σ
  | ok _ s => some s
  | throw _ s => some s
  | fault _ => none

def value? : Outcome σ α → Option α
  | ok a _ => some a
  | throw _ _ => none
  | fault _ => none

/-- Every state left behind satisfies `I`. -/
def Leaves (I : σ → Prop) (o : Outcome σ α) : Prop := ∀ s ∈ o.state?, I s

def isFault : Outcome σ α → Bool
  | fault _ => true
  | _ => false

def map {τ β : Type*} (f : σ → τ) (g : α → β) : Outcome σ α → Outcome τ β
  | ok a s => ok (g a) (f s)
  | throw what s => throw what (f s)
  | fault why => fault why

/-- What a result stands for in the state it comes with. -/
def resolve {β : Type*} (f : σ → α → β) : Outcome σ α → Outcome σ β
  | ok a s => ok (f s a) s
  | throw what s => throw what s
  | fault why => fault why

/-- The same end, in two states that `R` relates. -/
def Agrees {τ : Type*} (R : σ → τ → Prop) : Outcome σ α → Outcome τ α → Prop
  | ok a s, ok b t => a = b ∧ R s t
  | throw what s, throw what' t => what = what' ∧ R s t
  | fault why, fault why' => why = why'
  | _, _ => False

theorem Agrees.resolve {τ β : Type*} {R : σ → τ → Prop} {o : Outcome σ α} {o' : Outcome τ α}
    (h : Agrees R o o') (f : α → β) :
    Agrees R (o.resolve fun _ => f) (o'.resolve fun _ => f) := by
  cases o <;> cases o' <;> try exact h.elim
  · exact ⟨congrArg f h.1, h.2⟩
  · exact h
  · exact h

@[simp] theorem state?_ok (a : α) (s : σ) : (ok a s).state? = some s := rfl
@[simp] theorem state?_throw (w : String) (s : σ) :
    (throw w s : Outcome σ α).state? = some s := rfl
@[simp] theorem state?_fault (w : Fault) : (fault w : Outcome σ α).state? = none := rfl

@[simp] theorem isFault_ok (a : α) (s : σ) : (ok a s).isFault = false := rfl
@[simp] theorem isFault_throw (w : String) (s : σ) :
    (throw w s : Outcome σ α).isFault = false := rfl
@[simp] theorem isFault_fault (w : Fault) : (fault w : Outcome σ α).isFault = true := rfl

theorem map_eq_fault {τ β : Type*} {f : σ → τ} {g : α → β} {o : Outcome σ α} {why : Fault} :
    o.map f g = .fault why ↔ o = .fault why := by
  cases o <;> simp [map]

theorem map_id_eq_throw {β : Type*} {g : α → β} {o : Outcome σ α} {what : String} {s : σ} :
    o.map id g = .throw what s ↔ o = .throw what s := by
  cases o <;> simp [map]

@[simp] theorem leaves_ok (I : σ → Prop) (a : α) (s : σ) : (ok a s).Leaves I ↔ I s := by
  simp [Leaves]
@[simp] theorem leaves_throw (I : σ → Prop) (w : String) (s : σ) :
    (throw w s : Outcome σ α).Leaves I ↔ I s := by simp [Leaves]
@[simp] theorem leaves_fault (I : σ → Prop) (w : Fault) :
    (fault w : Outcome σ α).Leaves I := by simp [Leaves]

end Outcome

def Program (σ : Type*) (α : Type*) := σ → Outcome σ α

namespace Program
variable {σ α β : Type}

def pure (a : α) : Program σ α := fun s => .ok a s

def bind (m : Program σ α) (f : α → Program σ β) : Program σ β := fun s =>
  match m s with
  | .ok a s' => f a s'
  | .throw what s' => .throw what s'
  | .fault why => .fault why

instance : Monad (Program σ) where
  pure := pure
  bind := bind

theorem bind_def (m : Program σ α) (f : α → Program σ β) (s : σ) :
    (m >>= f) s = bind m f s := rfl

theorem pure_apply (a : α) (s : σ) : (Pure.pure a : Program σ α) s = .ok a s := rfl

theorem bind_ok {m : Program σ α} {f : α → Program σ β} {a : α} {s s' : σ}
    (h : m s = .ok a s') : (m >>= f) s = f a s' := by
  rw [bind_def, bind, h]

theorem bind_throw {m : Program σ α} {f : α → Program σ β} {what : String} {s s' : σ}
    (h : m s = .throw what s') : (m >>= f) s = .throw what s' := by
  rw [bind_def, bind, h]

theorem bind_fault {m : Program σ α} {f : α → Program σ β} {why : Fault} {s : σ}
    (h : m s = .fault why) : (m >>= f) s = .fault why := by
  rw [bind_def, bind, h]

/-- What a program that returns did on the way. -/
theorem of_bind_ok {m : Program σ α} {f : α → Program σ β} {b : β} {s s'' : σ}
    (h : (m >>= f) s = .ok b s'') : ∃ a s', m s = .ok a s' ∧ f a s' = .ok b s'' := by
  rw [bind_def, bind] at h
  cases hm : m s with
  | ok a s' =>
    rw [hm] at h
    exact ⟨a, s', rfl, h⟩
  | throw what s' =>
    rw [hm] at h
    cases h
  | fault why =>
    rw [hm] at h
    cases h

/-- Running a program for its state only. -/
theorem state?_bind_unit (m : Program σ α) (s : σ) :
    ((do let _ ← m) s : Outcome σ Unit).state? = (m s).state? := by
  rw [bind_def, bind]
  cases m s with
  | ok a s' => rfl
  | throw what s' => rfl
  | fault why => rfl

theorem bind_unit (m : Program σ Unit) : (m >>= fun _ => Pure.pure ()) = m := by
  funext s
  rw [bind_def, bind]
  cases m s with
  | ok a s' => rfl
  | throw what s' => rfl
  | fault why => rfl

theorem bind_bind {γ : Type} (m : Program σ α) (f : α → Program σ β) (g : β → Program σ γ) :
    (m >>= f) >>= g = m >>= fun a => f a >>= g := by
  funext s
  simp only [bind_def, bind]
  cases m s with
  | ok a s' => rfl
  | throw what s' => rfl
  | fault why => rfl

theorem forM_cons {α : Type} (f : α → Program σ Unit) (a : α) (l : List α) :
    (a :: l).forM f = f a >>= fun _ => l.forM f := rfl

theorem forM_pair {α : Type} (f : α → Program σ Unit) (a b : α) :
    [a, b].forM f = f a >>= fun _ => f b := by
  show (f a >>= fun _ => f b >>= fun _ => Pure.pure ()) = _
  rw [bind_unit]

theorem forM_append {α : Type} (f : α → Program σ Unit) (l m : List α) :
    (l ++ m).forM f = l.forM f >>= fun _ => m.forM f := by
  induction l with
  | nil => rfl
  | cons a l ih =>
    rw [List.cons_append, forM_cons, forM_cons, bind_bind, ih]

theorem forM_append_ok {α : Type} {f : α → Program σ Unit} {l m : List α} {s t u : σ}
    (hl : l.forM f s = .ok () t) (hm : m.forM f t = .ok () u) :
    (l ++ m).forM f s = .ok () u := by
  rw [forM_append, bind_ok hl, hm]

def raise (what : String) : Program σ α := fun s => .throw what s
def crash (why : Fault) : Program σ α := fun _ => .fault why
def get : Program σ σ := fun s => .ok s s
def modify (f : σ → σ) : Program σ Unit := fun s => .ok () (f s)

/-- Run from a state that satisfies `I`, the program leaves one that does. -/
def Keeps (I : σ → Prop) (m : Program σ α) : Prop := ∀ s, I s → (m s).Leaves I

theorem keeps_pure (I : σ → Prop) (a : α) : Keeps I (Pure.pure a : Program σ α) :=
  fun s hs => (Outcome.leaves_ok I a s).mpr hs

theorem keeps_raise (I : σ → Prop) (what : String) : Keeps I (raise what : Program σ α) :=
  fun s hs => (Outcome.leaves_throw I what s).mpr hs

theorem keeps_crash (I : σ → Prop) (why : Fault) : Keeps I (crash why : Program σ α) :=
  fun _ _ => Outcome.leaves_fault I why

theorem keeps_bind {I : σ → Prop} {m : Program σ α} {f : α → Program σ β}
    (hm : Keeps I m) (hf : ∀ a, Keeps I (f a)) : Keeps I (m >>= f) := by
  intro s hs
  have h := hm s hs
  change (bind m f s).Leaves I
  unfold bind
  cases hms : m s with
  | ok a s' => rw [hms] at h; exact hf a s' ((Outcome.leaves_ok I a s').mp h)
  | throw w s' => rw [hms] at h; simpa using h
  | fault w => exact Outcome.leaves_fault I w

theorem keeps_ite {I : σ → Prop} {c : Prop} [Decidable c] {m n : Program σ α}
    (hm : Keeps I m) (hn : Keeps I n) : Keeps I (if c then m else n) := by
  split <;> assumption

theorem keeps_forM {I : σ → Prop} {f : α → Program σ Unit} (hf : ∀ a, Keeps I (f a)) :
    ∀ l : List α, Keeps I (l.forM f)
  | [] => keeps_pure I ()
  | a :: l => keeps_bind (hf a) (fun _ => keeps_forM hf l)

/-! ## What a program throws -/

def Throws (m : Program σ α) (what : String) : Prop := ∀ s w s', m s = .throw w s' → w = what

theorem throws_pure (a : α) (what : String) : Throws (Pure.pure a : Program σ α) what := by
  intro s w s' h
  cases h

theorem throws_raise (what : String) : Throws (raise what : Program σ α) what := by
  intro s w s' h
  cases h
  rfl

theorem throws_crash (why : Fault) (what : String) : Throws (crash why : Program σ α) what := by
  intro s w s' h
  cases h

theorem throws_modify (f : σ → σ) (what : String) : Throws (modify f) what := by
  intro s w s' h
  cases h

theorem throws_bind {m : Program σ α} {f : α → Program σ β} {what : String}
    (hm : Throws m what) (hf : ∀ a, Throws (f a) what) : Throws (m >>= f) what := by
  intro s w s'' h
  rw [bind_def, bind] at h
  cases hms : m s with
  | ok a s' =>
    rw [hms] at h
    exact hf a s' w s'' h
  | throw w' s' =>
    rw [hms] at h
    cases h
    exact hm s w s'' hms
  | fault why =>
    rw [hms] at h
    cases h

theorem throws_forM {f : α → Program σ Unit} {what : String} (hf : ∀ a, Throws (f a) what) :
    ∀ l : List α, Throws (l.forM f) what
  | [] => throws_pure () what
  | a :: l => throws_bind (hf a) (fun _ => throws_forM hf l)

/-! ## Parts of the state that a program does not use -/

/-- The program neither sees the change `f` of the state nor undoes it. -/
def Ignores (f : σ → σ) (m : Program σ α) : Prop := ∀ s, m (f s) = (m s).map f id

theorem ignores_pure (f : σ → σ) (a : α) : Ignores f (Pure.pure a : Program σ α) := fun _ => rfl

theorem ignores_raise (f : σ → σ) (what : String) : Ignores f (raise what : Program σ α) :=
  fun _ => rfl

theorem ignores_crash (f : σ → σ) (why : Fault) : Ignores f (crash why : Program σ α) :=
  fun _ => rfl

theorem ignores_bind {f : σ → σ} {m : Program σ α} {g : α → Program σ β} (hm : Ignores f m)
    (hg : ∀ a, Ignores f (g a)) : Ignores f (m >>= g) := by
  intro s
  have hms := hm s
  cases hrun : m s with
  | ok a s' =>
    rw [hrun] at hms
    rw [bind_ok hrun, bind_ok hms]
    exact hg a s'
  | throw what s' =>
    rw [hrun] at hms
    rw [bind_throw hrun, bind_throw hms]
    rfl
  | fault why =>
    rw [hrun] at hms
    rw [bind_fault hrun, bind_fault hms]
    rfl

theorem ignores_forM {f : σ → σ} {g : α → Program σ Unit} (hg : ∀ a, Ignores f (g a)) :
    ∀ l : List α, Ignores f (l.forM g)
  | [] => ignores_pure f ()
  | a :: l => ignores_bind (hg a) (fun _ => ignores_forM hg l)

/-! ## Programs that read a list -/

/-- What the program returns on a list it returns on every longer one. -/
def Stable {γ : Type} (f : List γ → Program σ α) : Prop :=
  ∀ ⦃l r s a s'⦄, f l s = .ok a s' → f (l ++ r) s = .ok a s'

section
variable {γ : Type}

theorem stable_const (m : Program σ α) : Stable fun _ : List γ => m :=
  fun _ _ _ _ _ h => h

theorem stable_bind {f : List γ → Program σ α} {g : List γ → α → Program σ β} (hf : Stable f)
    (hg : ∀ a, Stable fun l => g l a) : Stable fun l => f l >>= g l := by
  intro l r s b s'' h
  obtain ⟨a, s', hfa, hga⟩ := of_bind_ok h
  exact (bind_ok (hf hfa)).trans (hg a hga)

theorem stable_forM {f : List γ → β → Program σ Unit} (hf : ∀ b, Stable fun l => f l b) :
    ∀ bs : List β, Stable fun l => bs.forM (f l)
  | [] => stable_const (Pure.pure ())
  | b :: bs => stable_bind (hf b) (fun _ => stable_forM hf bs)

end

/-! ## Programs that answer one request after another -/

section
variable {ρ τ : Type} (step : ρ → Program σ α) (thrown : String → α)

/-- The answers to a list of requests, up to the first fault; a throw is an answer. -/
def replies : List ρ → Program σ (List α)
  | [], s => .ok [] s
  | r :: rs, s =>
    match step r s with
    | .ok a s => (replies rs s).map id (a :: ·)
    | .throw what s => (replies rs s).map id (thrown what :: ·)
    | .fault why => .fault why

variable {step thrown} {R : σ → τ → Prop}

theorem agrees_map {o : Outcome σ (List α)} {o' : Outcome τ (List α)} (h : o.Agrees R o') (a : α) :
    (o.map id (a :: ·)).Agrees R (o'.map id (a :: ·)) := by
  cases o <;> cases o' <;> try exact h.elim
  · exact ⟨by rw [h.1], h.2⟩
  · exact h
  · exact h

/-- Two levels that agree on every request agree on every list of them. -/
theorem agrees_replies {step' : ρ → Program τ α}
    (hstep : ∀ r s t, R s t → (step r s).Agrees R (step' r t)) (rs : List ρ) {s : σ} {t : τ}
    (h : R s t) : (replies step thrown rs s).Agrees R (replies step' thrown rs t) := by
  induction rs generalizing s t with
  | nil => exact ⟨rfl, h⟩
  | cons r rs ih =>
    have hone := hstep r s t h
    rw [replies, replies]
    revert hone
    cases step r s <;> cases step' r t <;> intro hone <;> try exact hone.elim
    · rw [hone.1]
      exact agrees_map (ih hone.2) _
    · rw [hone.1]
      exact agrees_map (ih hone.2) _
    · exact hone

/-- What holds of the fault of every request holds of the fault of a run. -/
theorem replies_fault {P : Fault → Prop} (hstep : ∀ r s why, step r s = .fault why → P why)
    (rs : List ρ) {s : σ} {why : Fault} (h : replies step thrown rs s = .fault why) : P why := by
  induction rs generalizing s with
  | nil => cases h
  | cons r rs ih =>
    rw [replies] at h
    cases hone : step r s with
    | ok a t =>
      rw [hone] at h
      exact ih (Outcome.map_eq_fault.mp h)
    | throw what t =>
      rw [hone] at h
      exact ih (Outcome.map_eq_fault.mp h)
    | fault why' =>
      rw [hone] at h
      obtain rfl := Outcome.fault.inj h
      exact hstep r s _ hone

/-- A run does not throw. -/
theorem replies_throw (rs : List ρ) {s t : σ} {what : String} :
    replies step thrown rs s ≠ .throw what t := by
  induction rs generalizing s with
  | nil =>
    intro h
    cases h
  | cons r rs ih =>
    rw [replies]
    intro h
    cases hone : step r s with
    | ok a u =>
      rw [hone] at h
      exact ih (Outcome.map_id_eq_throw.mp h)
    | throw what' u =>
      rw [hone] at h
      exact ih (Outcome.map_id_eq_throw.mp h)
    | fault why =>
      rw [hone] at h
      cases h

end

/-! ## Programs on a part of the state -/

section
variable {τ : Type} (part : σ → τ) (put : σ → τ → σ)

/-- Run `m` on a part of the state. -/
def zoom (m : Program τ α) : Program σ α := fun s =>
  match m (part s) with
  | .ok a t => .ok a (put s t)
  | .throw what t => .throw what (put s t)
  | .fault why => .fault why

variable {part put} {m : Program τ α} {s s' : σ} {a : α}

theorem zoom_bind (hpart : ∀ s t, part (put s t) = t) (hput : ∀ s t u, put (put s t) u = put s u)
    (m : Program τ α) (f : α → Program τ β) :
    zoom part put (m >>= f) = zoom part put m >>= fun a => zoom part put (f a) := by
  funext s
  simp only [zoom, bind_def, bind]
  cases m (part s) with
  | ok a t =>
    simp only [hpart]
    cases f a t with
    | ok b u => simp only [hput]
    | throw what u => simp only [hput]
    | fault why => rfl
  | throw what t => rfl
  | fault why => rfl

theorem zoom_ok {t : τ} (h : m (part s) = .ok a t) : zoom part put m s = .ok a (put s t) := by
  rw [zoom, h]

theorem of_zoom_ok (h : zoom part put m s = .ok a s') :
    ∃ t, m (part s) = .ok a t ∧ s' = put s t := by
  unfold zoom at h
  cases hm : m (part s) with
  | ok b t =>
    rw [hm] at h
    cases h
    exact ⟨t, rfl, rfl⟩
  | throw what t =>
    rw [hm] at h
    cases h
  | fault why =>
    rw [hm] at h
    cases h

end

end Program
end Programs
