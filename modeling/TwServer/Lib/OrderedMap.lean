import TwServer.Lib.OrderedSet

/-! `std::map` as the list of its entries in the order of the keys. The comparison
sees only a `view` of a key: keys with the same view are the same key, and the map
has the one that came first. -/

namespace OrderedMap
open OrderedSet (Strict)

variable {κ ν α : Type*}

/-- `m[key] = val`. -/
def put (lt : α → α → Bool) (view : κ → α) (key : κ) (val : ν) : List (κ × ν) → List (κ × ν)
  | [] => [(key, val)]
  | (k, v) :: m =>
    if lt (view k) (view key) then (k, v) :: put lt view key val m
    else if lt (view key) (view k) then (key, val) :: (k, v) :: m
    else (k, val) :: m

/-- The value of the key that is seen as `x`. -/
def get? [DecidableEq α] (view : κ → α) (x : α) (m : List (κ × ν)) : Option ν :=
  (m.find? fun a => view a.1 = x).map Prod.snd

def Sorted (lt : α → α → Bool) (view : κ → α) (m : List (κ × ν)) : Prop :=
  m.Pairwise fun a b => lt (view a.1) (view b.1) = true

/-- Every view of the first map is before every view of the second. -/
def Before (lt : α → α → Bool) (view : κ → α) (m m' : List (κ × ν)) : Prop :=
  ∀ a ∈ m, ∀ b ∈ m', lt (view a.1) (view b.1) = true

section
variable {lt : α → α → Bool} {view : κ → α} {key : κ} {val : ν} {m m' : List (κ × ν)}

theorem view_of_mem_put {a : κ × ν} (h : Strict lt) (ha : a ∈ put lt view key val m) :
    view a.1 = view key ∨ a ∈ m := by
  induction m with
  | nil =>
    rw [List.mem_singleton.mp ha]
    exact .inl rfl
  | cons b m ih =>
    obtain ⟨k, v⟩ := b
    rw [put] at ha
    cases hk : lt (view k) (view key) with
    | true =>
      rw [if_pos hk] at ha
      rcases List.mem_cons.mp ha with rfl | ha
      · exact .inr (by simp)
      · exact (ih ha).imp id fun hmem => List.mem_cons_of_mem _ hmem
    | false =>
      cases hkey : lt (view key) (view k) with
      | true =>
        simp only [hk, hkey, if_true, if_false, Bool.false_eq_true] at ha
        rcases List.mem_cons.mp ha with rfl | ha
        · exact .inl rfl
        · exact .inr ha
      | false =>
        simp only [hk, hkey, if_false, Bool.false_eq_true] at ha
        rcases List.mem_cons.mp ha with rfl | ha
        · exact .inl (h.total _ _ hk hkey)
        · exact .inr (List.mem_cons_of_mem _ ha)

theorem Sorted.put (h : Strict lt) (hm : Sorted lt view m) : Sorted lt view (put lt view key val m) := by
  induction m with
  | nil => exact List.pairwise_singleton _ _
  | cons b m ih =>
    obtain ⟨k, v⟩ := b
    obtain ⟨hhead, htail⟩ := List.pairwise_cons.mp hm
    rw [OrderedMap.put]
    cases hk : lt (view k) (view key) with
    | true =>
      rw [if_pos rfl]
      refine List.pairwise_cons.mpr ⟨?_, ih htail⟩
      intro a ha
      rcases view_of_mem_put h ha with hview | ha
      · rw [hview]
        exact hk
      · exact hhead a ha
    | false =>
      cases hkey : lt (view key) (view k) with
      | true =>
        simp only [if_true, if_false, Bool.false_eq_true]
        refine List.pairwise_cons.mpr ⟨?_, hm⟩
        intro a ha
        rcases List.mem_cons.mp ha with rfl | ha
        · exact hkey
        · exact h.trans _ _ _ hkey (hhead a ha)
      | false =>
        simp only [if_false, Bool.false_eq_true]
        exact List.pairwise_cons.mpr ⟨hhead, htail⟩

/-- A key behind all others is added at the end. -/
theorem put_last (hm : ∀ a ∈ m, lt (view a.1) (view key) = true) :
    put lt view key val m = m ++ [(key, val)] := by
  induction m with
  | nil => rfl
  | cons b m ih =>
    rw [put, if_pos (hm b (by simp)), ih fun a ha => hm a (List.mem_cons_of_mem _ ha)]
    rfl

theorem put_first (h : Strict lt) (hm : ∀ a ∈ m, lt (view key) (view a.1) = true) :
    put lt view key val m = (key, val) :: m := by
  cases m with
  | nil => rfl
  | cons b m =>
    have hb := hm b (by simp)
    have hnot : ¬lt (view b.1) (view key) = true := by
      intro hlt
      have hirrefl := h.irrefl (view key)
      rw [h.trans _ _ _ hb hlt] at hirrefl
      cases hirrefl
    rw [put, if_neg hnot, if_pos hb]

theorem get?_put [DecidableEq α] (h : Strict lt) :
    get? view (view key) (put lt view key val m) = some val := by
  unfold get?
  induction m with
  | nil => simp [put]
  | cons b m ih =>
    obtain ⟨k, v⟩ := b
    rw [put]
    cases hk : lt (view k) (view key) with
    | true =>
      have hne : view k ≠ view key := by
        intro hview
        rw [hview, h.irrefl] at hk
        cases hk
      rw [if_pos rfl, List.find?_cons_of_neg (by simpa using hne), ih]
    | false =>
      cases hkey : lt (view key) (view k) with
      | true => simp
      | false => simp [h.total _ _ hk hkey]

/-! ## Filling a map -/

def putAll (lt : α → α → Bool) (view : κ → α) (m l : List (κ × ν)) : List (κ × ν) :=
  l.foldl (fun m a => put lt view a.1 a.2 m) m

/-- The entries of a map, put one by one. -/
theorem putAll_sorted {l : List (κ × ν)} (hl : Sorted lt view l)
    (hbefore : Before lt view m l) : putAll lt view m l = m ++ l := by
  induction l generalizing m with
  | nil => rw [putAll, List.foldl_nil, List.append_nil]
  | cons a l ih =>
    obtain ⟨hhead, htail⟩ := List.pairwise_cons.mp hl
    have hput : put lt view a.1 a.2 m = m ++ [(a.1, a.2)] :=
      put_last fun b hb => hbefore b hb a (by simp)
    rw [putAll, List.foldl_cons, hput, ← putAll, ih htail, List.append_assoc]
    · rfl
    · intro b hb c hc
      rcases List.mem_append.mp hb with hb | hb
      · exact hbefore b hb c (List.mem_cons_of_mem _ hc)
      · rw [List.mem_singleton.mp hb]
        exact hhead c hc

/-! ## Keys left out -/

section
variable (p : α → Bool)

def keep (view : κ → α) (m : List (κ × ν)) : List (κ × ν) := m.filter fun a => p (view a.1)

theorem Sorted.keep (hm : Sorted lt view m) : Sorted lt view (keep p view m) :=
  List.Pairwise.filter _ hm

/-- What is left out does not decide what becomes of the rest. -/
theorem keep_put (h : Strict lt) (hm : Sorted lt view m) :
    keep p view (put lt view key val m) =
      if p (view key) then put lt view key val (keep p view m) else keep p view m := by
  induction m with
  | nil =>
    rw [put, keep, keep, List.filter_cons]
    rfl
  | cons b m ih =>
    obtain ⟨k, v⟩ := b
    obtain ⟨hhead, htail⟩ := List.pairwise_cons.mp hm
    have hih := ih htail
    unfold keep at hih ⊢
    rw [put]
    cases hk : lt (view k) (view key) with
    | true =>
      rw [if_pos rfl, List.filter_cons, List.filter_cons, hih]
      by_cases hpk : p (view k)
      · by_cases hpkey : p (view key)
        · simp only [hpk, hpkey, if_true, put, hk]
        · simp only [hpk, hpkey, if_true, if_false, Bool.false_eq_true]
      · simp only [hpk, if_false, Bool.false_eq_true]
    | false =>
      cases hkey : lt (view key) (view k) with
      | true =>
        have hfirst : ∀ a ∈ ((k, v) :: m).filter fun a => p (view a.1),
            lt (view key) (view a.1) = true := by
          intro a ha
          rcases List.mem_cons.mp (List.mem_of_mem_filter ha) with rfl | ha
          · exact hkey
          · exact h.trans _ _ _ hkey (hhead a ha)
        rw [put_first h hfirst, if_neg Bool.false_ne_true, if_pos rfl, List.filter_cons]
      | false =>
        have hview : view k = view key := h.total _ _ hk hkey
        rw [if_neg Bool.false_ne_true, if_neg Bool.false_ne_true, List.filter_cons,
          List.filter_cons, hview]
        by_cases hpkey : p (view key)
        · simp only [hpkey, if_true, put, hview, h.irrefl, if_false, Bool.false_eq_true]
        · simp only [hpkey, if_false, Bool.false_eq_true]

theorem keep_keep {q : α → Bool} (h : ∀ x, q x = true → p x = true) :
    keep q view (keep p view m) = keep q view m := by
  unfold keep
  rw [List.filter_filter]
  refine List.filter_congr fun a _ => ?_
  cases hq : q (view a.1) with
  | false => rfl
  | true => rw [h _ hq, Bool.and_true]

theorem get?_keep [DecidableEq α] {x : α} (hx : p x = true) :
    get? view x (keep p view m) = get? view x m := by
  unfold get? keep
  induction m with
  | nil => rfl
  | cons b m ih =>
    by_cases hb : view b.1 = x
    · have hp : p (view b.1) = true := by rw [hb, hx]
      rw [List.filter_cons, if_pos hp]
      simp [hb]
    · rw [List.filter_cons, List.find?_cons_of_neg (by simpa using hb)]
      split
      · rw [List.find?_cons_of_neg (by simpa using hb), ih]
      · exact ih

theorem keep_putAll (h : Strict lt) (hm : Sorted lt view m) (l : List (κ × ν)) :
    keep p view (putAll lt view m l) = putAll lt view (keep p view m) (keep p view l) := by
  induction l generalizing m with
  | nil => rfl
  | cons a l ih =>
    rw [putAll, List.foldl_cons, ← putAll, ih (hm.put h), keep_put p h hm]
    unfold keep
    rw [List.filter_cons]
    by_cases ha : p (view a.1)
    · rw [if_pos ha, if_pos ha]
      rfl
    · rw [if_neg ha, if_neg ha]

end

end
end OrderedMap
