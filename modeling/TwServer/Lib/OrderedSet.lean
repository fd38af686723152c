import Mathlib.Data.List.Basic
import Mathlib.Data.List.TakeWhile

/-! `std::set` as the list of its elements in order, for any comparison. Two
elements of which neither is before the other are equivalent, and the set keeps
one of them. -/

namespace OrderedSet
variable {α : Type*}

def insert (lt : α → α → Bool) (a : α) : List α → List α
  | [] => [a]
  | b :: l => if lt b a then b :: insert lt a l else if lt a b then a :: b :: l else b :: l

/-- `lower_bound`: the elements from the first that is not before `a`. -/
def lowerBound (lt : α → α → Bool) (a : α) (l : List α) : List α := l.dropWhile (lt · a)

def find (lt : α → α → Bool) (a : α) (l : List α) : Option α :=
  match lowerBound lt a l with
  | [] => none
  | b :: _ => if lt a b then none else some b

/-- What a `Compare` has to be, where only equal elements are equivalent. -/
structure Strict (lt : α → α → Bool) : Prop where
  irrefl : ∀ a, lt a a = false
  trans : ∀ a b c, lt a b = true → lt b c = true → lt a c = true
  total : ∀ a b, lt a b = false → lt b a = false → a = b

def Sorted (lt : α → α → Bool) (l : List α) : Prop := l.Pairwise fun a b => lt a b = true

section
variable {lt : α → α → Bool} {a x : α} {l : List α}

theorem mem_insert (h : Strict lt) : x ∈ insert lt a l ↔ x = a ∨ x ∈ l := by
  induction l with
  | nil => simp [insert]
  | cons b l ih =>
    rw [insert]
    cases hb : lt b a with
    | true =>
      simp only [if_true, List.mem_cons, ih]
      exact or_left_comm
    | false =>
      cases ha : lt a b with
      | true => simp
      | false =>
        obtain rfl := h.total a b ha hb
        simp

theorem Sorted.insert (h : Strict lt) (hl : Sorted lt l) : Sorted lt (insert lt a l) := by
  induction l with
  | nil => exact List.pairwise_singleton _ _
  | cons b l ih =>
    obtain ⟨hhead, htail⟩ := List.pairwise_cons.mp hl
    rw [OrderedSet.insert]
    cases hb : lt b a with
    | true =>
      apply List.pairwise_cons.mpr
      refine ⟨?_, ih htail⟩
      intro x hx
      rcases (mem_insert h).mp hx with rfl | hx
      · exact hb
      · exact hhead x hx
    | false =>
      cases ha : lt a b with
      | true =>
        apply List.pairwise_cons.mpr
        refine ⟨?_, hl⟩
        intro x hx
        rcases List.mem_cons.mp hx with rfl | hx
        · exact ha
        · exact h.trans a b x ha (hhead x hx)
      | false => exact hl

/-- `find` of an element succeeds. -/
theorem find_of_mem (h : Strict lt) (hl : Sorted lt l) (ha : a ∈ l) : find lt a l = some a := by
  induction l with
  | nil => cases ha
  | cons b l ih =>
    obtain ⟨hhead, htail⟩ := List.pairwise_cons.mp hl
    rcases List.mem_cons.mp ha with rfl | ha
    · simp [find, lowerBound, h.irrefl]
    · have hstep : find lt a (b :: l) = find lt a l := by
        simp [find, lowerBound, hhead a ha]
      exact hstep.trans (ih htail ha)

theorem Sorted.nodup (h : Strict lt) (hl : Sorted lt l) : l.Nodup := by
  refine List.Pairwise.imp ?_ hl
  rintro b _ hb rfl
  rw [h.irrefl b] at hb
  cases hb

theorem Sorted.erase [DecidableEq α] (hl : Sorted lt l) (a : α) : Sorted lt (l.erase a) :=
  List.Pairwise.sublist List.erase_sublist hl

/-- A condition that passes on to the elements before one selects a first part. -/
theorem Sorted.mem_takeWhile {p : α → Bool} (hl : Sorted lt l)
    (hp : ∀ a ∈ l, ∀ b ∈ l, lt a b = true → p b = true → p a = true) :
    x ∈ l.takeWhile p ↔ x ∈ l ∧ p x = true := by
  induction l with
  | nil => simp
  | cons b l ih =>
    obtain ⟨hhead, htail⟩ := List.pairwise_cons.mp hl
    have hrest := ih htail fun a ha c hc =>
      hp a (List.mem_cons_of_mem b ha) c (List.mem_cons_of_mem b hc)
    cases hb : p b with
    | true =>
      rw [List.takeWhile_cons_of_pos hb, List.mem_cons, List.mem_cons, hrest]
      constructor
      · rintro (rfl | ⟨hx, hpx⟩)
        · exact ⟨Or.inl rfl, hb⟩
        · exact ⟨Or.inr hx, hpx⟩
      · rintro ⟨rfl | hx, hpx⟩
        · exact Or.inl rfl
        · exact Or.inr ⟨hx, hpx⟩
    | false =>
      have hnot : p b ≠ true := Bool.eq_false_iff.mp hb
      rw [List.takeWhile_cons_of_neg hnot]
      refine iff_of_false List.not_mem_nil ?_
      rintro ⟨hx, hpx⟩
      rcases List.mem_cons.mp hx with rfl | hx
      · exact hnot hpx
      · exact hnot (hp b List.mem_cons_self x (List.mem_cons_of_mem b hx) (hhead x hx) hpx)

/-- And its failure the last one. -/
theorem Sorted.mem_dropWhile {p : α → Bool} (h : Strict lt) (hl : Sorted lt l)
    (hp : ∀ a ∈ l, ∀ b ∈ l, lt a b = true → p b = true → p a = true) :
    x ∈ l.dropWhile p ↔ x ∈ l ∧ p x = false := by
  have hsplit := List.takeWhile_append_dropWhile (p := p) (l := l)
  have hnodup := Sorted.nodup h hl
  rw [← hsplit] at hnodup
  have hapart := (List.nodup_append.mp hnodup).2.2
  constructor
  · intro hx
    have hmem : x ∈ l := (List.dropWhile_sublist p).subset hx
    refine ⟨hmem, Bool.eq_false_iff.mpr fun hpx => ?_⟩
    exact hapart x ((Sorted.mem_takeWhile hl hp).mpr ⟨hmem, hpx⟩) x hx rfl
  · rintro ⟨hmem, hpx⟩
    rw [← hsplit] at hmem
    rcases List.mem_append.mp hmem with hx | hx
    · rw [((Sorted.mem_takeWhile hl hp).mp hx).2] at hpx
      cases hpx
    · exact hx

/-- The order may change for elements that are not in the set. -/
theorem Sorted.congr {lt' : α → α → Bool} (hl : Sorted lt l)
    (heq : ∀ a ∈ l, ∀ b ∈ l, lt' a b = lt a b) : Sorted lt' l :=
  List.Pairwise.imp_of_mem (fun ha hb hab => (heq _ ha _ hb).trans hab) hl

end
end OrderedSet
