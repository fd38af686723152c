import Mathlib.Tactic.TypeStar

/-! Texts of lines: each line is followed by the two marks `cr` and `lf`, and an
empty line ends a block of them. Lines without the marks are found again in the text
of their block. -/

namespace Lines
variable {α : Type*} {cr lf : α}

/-- Neither mark is in the line. -/
def OneLine (cr lf : α) (l : List α) : Prop := cr ∉ l ∧ lf ∉ l

theorem oneLine_append {a b : List α} :
    OneLine cr lf (a ++ b) ↔ OneLine cr lf a ∧ OneLine cr lf b := by
  simp only [OneLine, List.mem_append, not_or]
  exact ⟨fun h => ⟨⟨h.1.1, h.2.1⟩, h.1.2, h.2.2⟩, fun h => ⟨⟨h.1.1, h.2.1⟩, h.1.2, h.2.2⟩⟩

def block (cr lf : α) : List (List α) → List α
  | [] => [cr, lf]
  | l :: ls => l ++ cr :: lf :: block cr lf ls

/-- What comes before the first mark. -/
theorem append_cons_inj {a b x y : List α} (ha : cr ∉ a) (hb : cr ∉ b)
    (h : a ++ cr :: x = b ++ cr :: y) : a = b ∧ x = y := by
  induction a generalizing b with
  | nil =>
    cases b with
    | nil => exact ⟨rfl, (List.cons.inj h).2⟩
    | cons c b =>
      have hc : cr = c := (List.cons.inj h).1
      exact absurd (hc ▸ List.mem_cons_self) hb
  | cons c a ih =>
    cases b with
    | nil =>
      have hc : c = cr := (List.cons.inj h).1
      exact absurd (hc ▸ List.mem_cons_self) ha
    | cons d b =>
      obtain ⟨hcd, htail⟩ := List.cons.inj h
      obtain ⟨hab, hxy⟩ := ih (fun hmem => ha (List.mem_cons_of_mem _ hmem))
        (fun hmem => hb (List.mem_cons_of_mem _ hmem)) htail
      exact ⟨by rw [hcd, hab], hxy⟩

/-- A block decides its lines, which are not empty, and where it ends. -/
theorem block_inj {ls ls' : List (List α)} {x y : List α} (hls : ∀ l ∈ ls, l ≠ [] ∧ cr ∉ l)
    (hls' : ∀ l ∈ ls', l ≠ [] ∧ cr ∉ l) (h : block cr lf ls ++ x = block cr lf ls' ++ y) :
    ls = ls' ∧ x = y := by
  induction ls generalizing ls' with
  | nil =>
    cases ls' with
    | nil => exact ⟨rfl, List.append_cancel_left h⟩
    | cons l' ls' =>
      obtain ⟨hne, hcr⟩ := hls' l' (by simp)
      have hline : [] ++ cr :: (lf :: x) = l' ++ cr :: (lf :: (block cr lf ls' ++ y)) := by
        simpa [block] using h
      exact absurd (append_cons_inj (by simp) hcr hline).1.symm hne
  | cons l ls ih =>
    obtain ⟨hne, hcr⟩ := hls l (by simp)
    cases ls' with
    | nil =>
      have hline : l ++ cr :: (lf :: (block cr lf ls ++ x)) = [] ++ cr :: (lf :: y) := by
        simpa [block] using h
      exact absurd (append_cons_inj hcr (by simp) hline).1 hne
    | cons l' ls' =>
      obtain ⟨-, hcr'⟩ := hls' l' (by simp)
      have hline : l ++ cr :: (lf :: (block cr lf ls ++ x)) =
          l' ++ cr :: (lf :: (block cr lf ls' ++ y)) := by
        simpa [block] using h
      obtain ⟨hl, hrest⟩ := append_cons_inj hcr hcr' hline
      obtain ⟨htail, hxy⟩ := ih (fun l hl => hls l (List.mem_cons_of_mem _ hl))
        (fun l hl => hls' l (List.mem_cons_of_mem _ hl)) (List.cons.inj hrest).2
      exact ⟨by rw [hl, htail], hxy⟩

end Lines
