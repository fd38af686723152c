import Mathlib.Data.List.Nodup
import Mathlib.Data.List.Perm.Subperm
import Mathlib.Logic.Function.Basic

/-! Singly linked lists in a memory of cells. No address is handed out twice, so an access to a
deleted cell never goes unnoticed. A chain owns its cells: every other cell is as it was. -/

namespace LinkedLists

abbrev Ptr := Nat

structure Cell (β : Type*) where
  val : β
  next : Option Ptr

/-- The live cells; nothing lives from `fresh` on. -/
structure Memory (α : Type*) where
  cells : Ptr → Option α
  fresh : Ptr
  unused : ∀ p, fresh ≤ p → cells p = none

namespace Memory
variable {α : Type*}

def empty : Memory α := ⟨fun _ => none, 0, fun _ _ => rfl⟩

/-- `new` at the address `m.fresh`. -/
def new (m : Memory α) (a : α) : Memory α where
  cells := Function.update m.cells m.fresh (some a)
  fresh := m.fresh + 1
  unused p hp := by
    rw [Function.update_of_ne (Nat.ne_of_gt hp)]
    exact m.unused p (Nat.le_of_succ_le hp)

def modify (m : Memory α) (p : Ptr) (f : α → α) : Memory α where
  cells := Function.update m.cells p ((m.cells p).map f)
  fresh := m.fresh
  unused q hq := by
    by_cases hqp : q = p
    · subst hqp
      rw [Function.update_self, m.unused q hq, Option.map_none]
    · rw [Function.update_of_ne hqp, m.unused q hq]

def delete (m : Memory α) (p : Ptr) : Memory α where
  cells := Function.update m.cells p none
  fresh := m.fresh
  unused q hq := by
    by_cases hqp : q = p
    · rw [hqp, Function.update_self]
    · rw [Function.update_of_ne hqp, m.unused q hq]

variable {m : Memory α} {p q : Ptr} {a : α} {f : α → α}

@[simp] theorem fresh_new : (m.new a).fresh = m.fresh + 1 := rfl
@[simp] theorem fresh_modify : (m.modify p f).fresh = m.fresh := rfl
@[simp] theorem fresh_delete : (m.delete p).fresh = m.fresh := rfl

@[simp] theorem cells_new_self : (m.new a).cells m.fresh = some a := Function.update_self ..
theorem cells_new_of_ne (h : q ≠ m.fresh) : (m.new a).cells q = m.cells q :=
  Function.update_of_ne h ..

@[simp] theorem cells_modify_self : (m.modify p f).cells p = (m.cells p).map f :=
  Function.update_self ..
theorem cells_modify_of_ne (h : q ≠ p) : (m.modify p f).cells q = m.cells q :=
  Function.update_of_ne h ..

@[simp] theorem cells_delete_self : (m.delete p).cells p = none := Function.update_self ..
theorem cells_delete_of_ne (h : q ≠ p) : (m.delete p).cells q = m.cells q :=
  Function.update_of_ne h ..

theorem lt_fresh (h : m.cells p = some a) : p < m.fresh := by
  by_contra hp
  rw [m.unused p (Nat.le_of_not_lt hp)] at h
  cases h

end Memory

variable {β : Type*}

/-! ## Walks along the links

A walk has no result where it leaves the live cells, or takes more rounds than it was given. -/

/-- The last cell of the list that starts at `p`. -/
def lastFrom (m : Memory (Cell β)) : Nat → Ptr → Option Ptr
  | 0, _ => none
  | rounds + 1, p =>
    match m.cells p with
    | none => none
    | some cell =>
      match cell.next with
      | none => some p
      | some next => lastFrom m rounds next

/-- Delete the cells of the list that starts at `p`, each after its link was read. -/
def freeFrom : Nat → Option Ptr → Memory (Cell β) → Option (Memory (Cell β))
  | 0, _, _ => none
  | _ + 1, none, m => some m
  | rounds + 1, some p, m =>
    match m.cells p with
    | none => none
    | some cell => freeFrom rounds cell.next (m.delete p)

/-! ## Chains -/

/-- The values `vals` lie at `addrs`, linked in this order, and the rest of the memory is
`others`. -/
structure Chain (others : Ptr → Option (Cell β)) (m : Memory (Cell β)) (addrs : List Ptr)
    (vals : List β) : Prop where
  length : addrs.length = vals.length
  nodup : addrs.Nodup
  apart : ∀ p ∈ addrs, others p = none
  cell : ∀ i p, addrs[i]? = some p → ∃ v, vals[i]? = some v ∧ m.cells p = some ⟨v, addrs[i + 1]?⟩
  elsewhere : ∀ p, p ∉ addrs → m.cells p = others p

namespace Chain
variable {others : Ptr → Option (Cell β)} {m : Memory (Cell β)} {addrs : List Ptr}
  {vals : List β} {i j k : Nat} {p q : Ptr} {v : β}

theorem index_eq (h : addrs.Nodup) (hi : addrs[i]? = some p) (hj : addrs[j]? = some p) : i = j := by
  obtain ⟨hlt, -⟩ := List.getElem?_eq_some_iff.mp hi
  exact (List.getElem?_inj hlt h).mp (hi.trans hj.symm)

theorem lt_fresh (h : Chain others m addrs vals) (hp : p ∈ addrs) : p < m.fresh := by
  obtain ⟨i, hi⟩ := List.getElem?_of_mem hp
  obtain ⟨v, -, hcell⟩ := h.cell i p hi
  exact Memory.lt_fresh hcell

theorem fresh_notMem (h : Chain others m addrs vals) : m.fresh ∉ addrs :=
  fun hp => Nat.lt_irrefl _ (h.lt_fresh hp)

/-- A list has no more cells than were ever allocated. -/
theorem length_le (h : Chain others m addrs vals) : addrs.length ≤ m.fresh := by
  have hsub : addrs ⊆ List.range m.fresh := fun p hp => List.mem_range.mpr (h.lt_fresh hp)
  simpa using (List.subperm_of_subset h.nodup hsub).length_le

theorem nil (m : Memory (Cell β)) : Chain m.cells m [] [] :=
  ⟨rfl, List.nodup_nil, by simp, by simp, fun _ _ => rfl⟩

/-- The first cell of a list. -/
theorem single (m : Memory (Cell β)) (v : β) :
    Chain m.cells (m.new ⟨v, none⟩) [m.fresh] [v] where
  length := rfl
  nodup := List.nodup_singleton _
  apart p hp := by
    rw [List.mem_singleton.mp hp]
    exact m.unused _ (Nat.le_refl _)
  cell i p hi := by
    cases i with
    | zero =>
      obtain rfl := Option.some.inj hi
      exact ⟨v, rfl, Memory.cells_new_self⟩
    | succ i => cases hi
  elsewhere p hp := Memory.cells_new_of_ne fun hpf => hp (List.mem_singleton.mpr hpf)

/-- Overwrite the value of one cell. -/
theorem modify (h : Chain others m addrs vals) (hi : addrs[i]? = some p) (f : β → β) :
    Chain others (m.modify p fun c => { c with val := f c.val }) addrs (vals.modify i f) where
  length := by rw [List.length_modify, h.length]
  nodup := h.nodup
  apart := h.apart
  cell j q hj := by
    obtain ⟨v, hv, hcell⟩ := h.cell j q hj
    by_cases hqp : q = p
    · subst hqp
      obtain rfl := index_eq h.nodup hi hj
      exact ⟨f v, by simp [hv], by rw [Memory.cells_modify_self, hcell]; rfl⟩
    · have hij : i ≠ j := by
        rintro rfl
        exact hqp (Option.some.inj (hj.symm.trans hi))
      exact ⟨v, by simp [hv, hij], by
        rw [Memory.cells_modify_of_ne hqp, hcell]⟩
  elsewhere q hq := by
    rw [Memory.cells_modify_of_ne, h.elsewhere q hq]
    rintro rfl
    exact hq (List.mem_of_getElem? hi)

/-- Hang a new cell behind the last one. -/
theorem push (h : Chain others m addrs vals) (hk : addrs.length = k + 1) (hp : addrs[k]? = some p)
    (v : β) :
    Chain others ((m.new ⟨v, none⟩).modify p fun c => { c with next := some m.fresh })
      (addrs ++ [m.fresh]) (vals ++ [v]) where
  length := by simp [h.length]
  nodup := List.nodup_append.mpr ⟨h.nodup, List.nodup_singleton _, by
    rintro q hq r hr rfl
    exact h.fresh_notMem (List.mem_singleton.mp hr ▸ hq)⟩
  apart q hq := by
    rcases List.mem_append.mp hq with hq | hq
    · exact h.apart q hq
    · rw [List.mem_singleton.mp hq, ← h.elsewhere _ h.fresh_notMem]
      exact m.unused _ (Nat.le_refl _)
  cell j q hj := by
    have hpf : p ≠ m.fresh := fun he => h.fresh_notMem (he ▸ List.mem_of_getElem? hp)
    rw [List.getElem?_append] at hj
    split at hj
    · rename_i hlt
      obtain ⟨w, hw, hcell⟩ := h.cell j q hj
      have hqf : q ≠ m.fresh := fun he => h.fresh_notMem (he ▸ List.mem_of_getElem? hj)
      have hval : (vals ++ [v])[j]? = some w := by
        rw [List.getElem?_append_left (h.length ▸ hlt), hw]
      by_cases hqp : q = p
      · subst hqp
        obtain rfl := index_eq h.nodup hp hj
        exact ⟨w, hval, by
          rw [Memory.cells_modify_self, Memory.cells_new_of_ne hqf, hcell, ← hk]; simp⟩
      · have hjk : j ≠ k := by
          rintro rfl
          exact hqp (Option.some.inj (hj.symm.trans hp))
        exact ⟨w, hval, by
          rw [Memory.cells_modify_of_ne hqp, Memory.cells_new_of_ne hqf, hcell,
            List.getElem?_append_left (by omega)]⟩
    · obtain ⟨hzero, rfl⟩ : j - addrs.length = 0 ∧ m.fresh = q := by
        rcases hd : j - addrs.length with - | d
        · rw [hd] at hj
          exact ⟨rfl, Option.some.inj hj⟩
        · rw [hd] at hj
          cases hj
      obtain rfl : j = addrs.length := by omega
      exact ⟨v, by rw [h.length]; simp, by
        rw [Memory.cells_modify_of_ne hpf.symm, Memory.cells_new_self]; simp⟩
  elsewhere q hq := by
    rw [List.mem_append, List.mem_singleton, not_or] at hq
    rw [Memory.cells_modify_of_ne, Memory.cells_new_of_ne hq.2, h.elsewhere q hq.1]
    rintro rfl
    exact hq.1 (List.mem_of_getElem? hp)

/-- The walk from any cell of a list ends at its last one. -/
theorem lastFrom (rounds : Nat) (h : Chain others m addrs vals) (hi : addrs[i]? = some p)
    (hlast : addrs[k]? = some q) (hk : addrs.length = k + 1) (hr : k < rounds + i) :
    LinkedLists.lastFrom m rounds p = some q := by
  induction rounds generalizing i p with
  | zero =>
    obtain ⟨hlt, -⟩ := List.getElem?_eq_some_iff.mp hi
    omega
  | succ rounds ih =>
    obtain ⟨v, -, hcell⟩ := h.cell i p hi
    rw [LinkedLists.lastFrom, hcell]
    cases hnext : addrs[i + 1]? with
    | none =>
      obtain ⟨hlt, -⟩ := List.getElem?_eq_some_iff.mp hi
      have hge := List.getElem?_eq_none_iff.mp hnext
      obtain rfl : i = k := by omega
      exact hi.symm.trans hlast
    | some next => exact ih hnext (by omega)

/-- What is left when the cells from the `k`-th on were deleted one by one. -/
theorem freeFrom (rounds : Nat) (hnodup : addrs.Nodup)
    (hcell : ∀ i p, k ≤ i → addrs[i]? = some p → ∃ v, m.cells p = some ⟨v, addrs[i + 1]?⟩)
    (hk : k ≤ addrs.length) (hr : addrs.length < rounds + k) :
    ∃ m', LinkedLists.freeFrom rounds addrs[k]? m = some m' ∧ m'.fresh = m.fresh ∧
      (∀ p ∈ addrs.drop k, m'.cells p = none) ∧ ∀ p, p ∉ addrs.drop k → m'.cells p = m.cells p := by
  induction rounds generalizing k m with
  | zero => omega
  | succ rounds ih =>
    cases hp : addrs[k]? with
    | none =>
      have hge := List.getElem?_eq_none_iff.mp hp
      refine ⟨m, rfl, rfl, ?_, fun _ _ => rfl⟩
      simp [List.drop_eq_nil_of_le hge]
    | some p =>
      obtain ⟨v, hv⟩ := hcell k p (Nat.le_refl k) hp
      obtain ⟨hlt, hget⟩ := List.getElem?_eq_some_iff.mp hp
      have hdrop : addrs.drop k = p :: addrs.drop (k + 1) := by
        rw [List.drop_eq_getElem_cons hlt, hget]
      have hrest : ∀ i q, k + 1 ≤ i → addrs[i]? = some q →
          ∃ v, (m.delete p).cells q = some ⟨v, addrs[i + 1]?⟩ := by
        intro i q hi hq
        obtain ⟨w, hw⟩ := hcell i q (by omega) hq
        refine ⟨w, ?_⟩
        rw [Memory.cells_delete_of_ne, hw]
        rintro rfl
        have := index_eq hnodup hp hq
        omega
      obtain ⟨m', hrun, hfresh, hgone, hkept⟩ := ih hrest hlt (by omega)
      have hnotin : p ∉ addrs.drop (k + 1) := by
        have := hnodup.sublist (List.drop_sublist k addrs)
        rw [hdrop] at this
        exact (List.nodup_cons.mp this).1
      refine ⟨m', ?_, hfresh, ?_, ?_⟩
      · rw [LinkedLists.freeFrom, hv]
        exact hrun
      · intro q hq
        rw [hdrop] at hq
        rcases List.mem_cons.mp hq with rfl | hq
        · rw [hkept q hnotin, Memory.cells_delete_self]
        · exact hgone q hq
      · intro q hq
        rw [hdrop, List.mem_cons, not_or] at hq
        rw [hkept q hq.2, Memory.cells_delete_of_ne hq.1]

/-- Deleting a whole list leaves the other cells. -/
theorem free (h : Chain others m addrs vals) {rounds : Nat} (hr : addrs.length < rounds) :
    ∃ m', LinkedLists.freeFrom rounds addrs[0]? m = some m' ∧ m'.cells = others := by
  obtain ⟨m', hrun, -, hgone, hkept⟩ := freeFrom (k := 0) (m := m) rounds h.nodup
    (fun i p _ hi => (h.cell i p hi).imp fun _ hv => hv.2) (Nat.zero_le _) (by omega)
  rw [List.drop_zero] at hgone hkept
  refine ⟨m', hrun, funext fun p => ?_⟩
  by_cases hp : p ∈ addrs
  · rw [hgone p hp, h.apart p hp]
  · rw [hkept p hp, h.elsewhere p hp]

/-- Deleting what hangs behind the first cell, and cutting its link. -/
theorem cut (h : Chain others m addrs vals) (hp : addrs[0]? = some p) {rounds : Nat}
    (hr : addrs.length ≤ rounds) :
    ∃ m', LinkedLists.freeFrom rounds addrs[1]? m = some m' ∧
      Chain others (m'.modify p fun c => { c with next := none }) [p] (vals.take 1) := by
  obtain ⟨hlt, -⟩ := List.getElem?_eq_some_iff.mp hp
  obtain ⟨m', hrun, -, hgone, hkept⟩ := freeFrom (k := 1) (m := m) rounds h.nodup
    (fun i p _ hi => (h.cell i p hi).imp fun _ hv => hv.2) hlt (by omega)
  have hsplit : addrs = p :: addrs.drop 1 := by
    cases addrs with
    | nil => cases hp
    | cons a addrs => rw [Option.some.inj hp]; rfl
  have hnotin : p ∉ addrs.drop 1 := by
    have := h.nodup
    rw [hsplit] at this
    exact (List.nodup_cons.mp this).1
  obtain ⟨v, hv, hcell⟩ := h.cell 0 p hp
  refine ⟨m', hrun, ?_, List.nodup_singleton _, ?_, ?_, ?_⟩
  · have := h.length
    rw [List.length_take]
    simp only [List.length_singleton]
    omega
  · intro q hq
    rw [List.mem_singleton.mp hq]
    exact h.apart p (List.mem_of_getElem? hp)
  · intro i q hi
    cases i with
    | zero =>
      obtain rfl := Option.some.inj hi
      refine ⟨v, by rw [List.getElem?_take_of_lt Nat.one_pos, hv], ?_⟩
      rw [Memory.cells_modify_self, hkept p hnotin, hcell]
      rfl
    | succ i => cases hi
  · intro q hq
    have hqp : q ≠ p := fun he => hq (List.mem_singleton.mpr he)
    rw [Memory.cells_modify_of_ne hqp]
    by_cases hmem : q ∈ addrs.drop 1
    · rw [hgone q hmem, h.apart q (List.mem_of_mem_drop hmem)]
    · rw [hkept q hmem, h.elsewhere q]
      rw [hsplit]
      simp only [List.mem_cons, not_or]
      exact ⟨hqp, hmem⟩

end Chain
end LinkedLists
