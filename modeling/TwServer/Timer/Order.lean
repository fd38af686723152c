import TwServer.Timer.Model
import Mathlib.Data.List.TakeWhile

/-! `m_timers` holds exactly the timers whose `m_cb` is set, in the order of
their current keys. So the iterator `cancel` erases is never `end()`. -/

namespace TwServer
open Programs OrderedSet

theorem Timer.before_iff {a b : Nat × Nat} :
    Timer.before a b = true ↔ a.1 < b.1 ∨ a.1 = b.1 ∧ a.2 < b.2 := by
  unfold Timer.before
  split
  · simp [*]
  · split
    · simp only [Bool.false_eq_true, false_iff]
      omega
    · simp only [decide_eq_true_eq]
      omega

namespace TimerManager

theorem before_iff {m : TimerManager} {t u : Nat} : m.before t u = true ↔
    (m.heap t).next < (m.heap u).next ∨ (m.heap t).next = (m.heap u).next ∧ t < u :=
  Timer.before_iff

theorem before_strict (m : TimerManager) : Strict m.before where
  irrefl t := by
    cases h : m.before t t with
    | false => rfl
    | true =>
      have := before_iff.mp h
      omega
  trans t u v htu huv := by
    have h1 := before_iff.mp htu
    have h2 := before_iff.mp huv
    apply before_iff.mpr
    omega
  total t u htu hut := by
    have h1 := mt before_iff.mpr (Bool.eq_false_iff.mp htu)
    have h2 := mt before_iff.mpr (Bool.eq_false_iff.mp hut)
    exact Nat.le_antisymm (by omega) (by omega)

/-- The invariant, with the timers `out` taken out of the set by `listExpiredCb`. -/
structure OrderedBut (out : List TimerId) (m : TimerManager) : Prop where
  sorted : Sorted m.before m.timers
  pending : ∀ t, (m.heap t).cb.isSome = true ↔ t ∈ m.timers ∨ t ∈ out
  apart : ∀ t ∈ out, t ∉ m.timers
  nodup : out.Nodup

def Ordered (m : TimerManager) : Prop := OrderedBut [] m

section
variable {m : TimerManager} {t u : TimerId} {out : List TimerId}

theorem Ordered.pending (h : Ordered m) : (m.heap t).cb.isSome = true ↔ t ∈ m.timers := by
  rw [OrderedBut.pending h t]
  simp

theorem Ordered.nodup (h : Ordered m) : m.timers.Nodup := OrderedSet.Sorted.nodup (before_strict m) h.sorted

/-! ## The set -/

theorem setTimer_heap_self (x : Timer) : (m.setTimer t x).heap t = x := Function.update_self _ _ _

theorem setTimer_heap_of_ne (x : Timer) (h : u ≠ t) : (m.setTimer t x).heap u = m.heap u :=
  Function.update_of_ne h _ _

theorem before_setTimer {x : Timer} {v : TimerId} (hu : u ≠ t) (hv : v ≠ t) :
    (m.setTimer t x).before u v = m.before u v := by
  unfold before key
  rw [setTimer_heap_of_ne x hu, setTimer_heap_of_ne x hv]

theorem sorted_setTimer (h : Sorted m.before m.timers) (ht : t ∉ m.timers) (x : Timer) :
    Sorted (m.setTimer t x).before m.timers := by
  refine h.congr ?_
  intro u hu v hv
  refine before_setTimer ?_ ?_
  · rintro rfl
    exact ht hu
  · rintro rfl
    exact ht hv

theorem mem_insert : u ∈ (m.insert t).timers ↔ u = t ∨ u ∈ m.timers :=
  OrderedSet.mem_insert (before_strict m)

theorem sorted_insert (h : Sorted m.before m.timers) :
    Sorted (m.insert t).before (m.insert t).timers := OrderedSet.Sorted.insert (before_strict m) h

theorem find_eq (h : Sorted m.before m.timers) (ht : t ∈ m.timers) : m.find t = some t :=
  find_of_mem (before_strict m) h ht

/-- The invariant but for `t`, which is not in the set. -/
structure Without (t : TimerId) (out : List TimerId) (m : TimerManager) : Prop where
  sorted : Sorted m.before m.timers
  pending : ∀ u, u ≠ t → ((m.heap u).cb.isSome = true ↔ u ∈ m.timers ∨ u ∈ out)
  apart : ∀ u ∈ out, u ∉ m.timers
  nodup : out.Nodup
  outside : t ∉ m.timers ∧ t ∉ out

theorem OrderedBut.without (h : OrderedBut (t :: out) m) : Without t out m where
  sorted := h.sorted
  pending u hu := by
    rw [h.pending u, List.mem_cons]
    simp [hu]
  apart u hu := h.apart u (List.mem_cons_of_mem t hu)
  nodup := (List.nodup_cons.mp h.nodup).2
  outside := ⟨h.apart t List.mem_cons_self, (List.nodup_cons.mp h.nodup).1⟩

theorem Ordered.without (h : Ordered m) (ht : t ∉ m.timers) : Without t [] m where
  sorted := h.sorted
  pending u _ := OrderedBut.pending h u
  apart := OrderedBut.apart h
  nodup := OrderedBut.nodup h
  outside := ⟨ht, List.not_mem_nil⟩

theorem Without.setTimer (h : Without t out m) (x : Timer) : Without t out (m.setTimer t x) where
  sorted := sorted_setTimer h.sorted h.outside.1 x
  pending u hu := by
    rw [setTimer_heap_of_ne x hu]
    exact h.pending u hu
  apart := h.apart
  nodup := h.nodup
  outside := h.outside

/-- With its callback set the timer goes back into the set. -/
theorem Without.insert (h : Without t out m) (hcb : (m.heap t).cb.isSome = true) :
    OrderedBut out (m.insert t) := by
  refine ⟨sorted_insert h.sorted, ?_, ?_, h.nodup⟩
  · intro u
    rw [mem_insert]
    rcases Decidable.em (u = t) with rfl | hu
    · exact iff_of_true hcb (Or.inl (Or.inl rfl))
    · have := h.pending u hu
      simp only [hu, false_or]
      exact this
  · intro u hu hmem
    rcases mem_insert.mp hmem with rfl | hmem
    · exact h.outside.2 hu
    · exact h.apart u hu hmem

/-- Without a callback it stays outside. -/
theorem Without.stay (h : Without t out m) (hcb : (m.heap t).cb.isSome = false) :
    OrderedBut out m := by
  refine ⟨h.sorted, ?_, h.apart, h.nodup⟩
  intro u
  rcases Decidable.em (u = t) with rfl | hu
  · rw [hcb]
    exact iff_of_false Bool.false_ne_true (fun hor => hor.elim h.outside.1 h.outside.2)
  · exact h.pending u hu

theorem Ordered.erase (h : Ordered m) (ht : t ∈ m.timers) : OrderedBut [t] (m.erase t) := by
  refine ⟨h.sorted.erase t, ?_, ?_, List.pairwise_singleton _ _⟩
  · intro u
    show (m.heap u).cb.isSome = true ↔ u ∈ m.timers.erase t ∨ u ∈ [t]
    rw [h.pending, h.nodup.mem_erase_iff, List.mem_singleton]
    constructor
    · intro hu
      rcases Decidable.em (u = t) with hut | hut
      · exact Or.inr hut
      · exact Or.inl ⟨hut, hu⟩
    · rintro (⟨-, hu⟩ | rfl)
      · exact hu
      · exact ht
  · intro u hu hmem
    obtain rfl := List.mem_singleton.mp hu
    exact (h.nodup.mem_erase_iff.mp hmem).1 rfl

/-! ## The operations -/

/-- `addTimer` of a timer that is outside the set. -/
theorem Without.addTimer (h : Without t out m) (hcb : (m.heap t).cb.isSome = true) {b : Bool}
    {m' : TimerManager} (hrun : addTimer t m = .ok b m') : OrderedBut out m' := by
  cases hrun
  have hm := h.insert hcb
  exact ⟨hm.sorted, hm.pending, hm.apart, hm.nodup⟩

theorem Ordered.addNewTimer (h : Ordered m) (ht : t ∉ m.timers) {now ms : Nat} {cb : Callback}
    {recurring b : Bool} {m' : TimerManager}
    (hrun : addNewTimer t now ms cb recurring m = .ok b m') : Ordered m' := by
  refine ((h.without ht).setTimer (.new now ms cb recurring)).addTimer ?_ hrun
  rw [setTimer_heap_self]
  rfl

theorem before_setTimer_next {x : Timer} (hx : x.next = (m.heap t).next) :
    (m.setTimer t x).before = m.before := by
  have hnext : ∀ u, ((m.setTimer t x).heap u).next = (m.heap u).next := by
    intro u
    rcases Decidable.em (u = t) with rfl | hu
    · rw [setTimer_heap_self, hx]
    · rw [setTimer_heap_of_ne x hu]
  funext u v
  unfold before key
  rw [hnext, hnext]

/-- `cancel` never erases `end()`, and succeeds on the timers that are pending. -/
theorem Ordered.cancel (h : Ordered m) (t : TimerId) : ∃ m',
    cancel t m = .ok (m.heap t).cb.isSome m' ∧ Ordered m' ∧
      m'.heap = Function.update m.heap t { m.heap t with cb := none } := by
  unfold TimerManager.cancel
  cases hcb : (m.heap t).cb.isSome with
  | false =>
    refine ⟨m, rfl, h, ?_⟩
    rw [Option.isSome_eq_false_iff, Option.isNone_iff_eq_none] at hcb
    rw [← hcb, Function.update_eq_self]
  | true =>
    have ht : t ∈ m.timers := h.pending.mp hcb
    let x : Timer := { m.heap t with cb := none }
    have hbefore : (m.setTimer t x).before = m.before := before_setTimer_next rfl
    have hfind : (m.setTimer t { m.heap t with cb := none }).find t = some t :=
      find_eq (hbefore ▸ h.sorted) ht
    refine ⟨(m.erase t).setTimer t x, ?_, ?_, rfl⟩
    · simp only [↓reduceIte, hfind]
      rfl
    · refine ((h.erase ht).without.setTimer x).stay ?_
      rw [setTimer_heap_self]
      rfl

theorem Ordered.refresh (h : Ordered m) (t : TimerId) (now : Nat) : ∃ m',
    refresh t now m = .ok (m.heap t).cb.isSome m' ∧ Ordered m' ∧
      m'.heap = if (m.heap t).cb.isSome then
        Function.update m.heap t { m.heap t with next := addMs now (m.heap t).ms } else m.heap := by
  unfold TimerManager.refresh
  cases hcb : (m.heap t).cb with
  | none => exact ⟨m, rfl, h, rfl⟩
  | some c =>
    have hsome : (m.heap t).cb.isSome = true := by rw [hcb]; rfl
    have ht : t ∈ m.timers := h.pending.mp hsome
    let x : Timer := { m.heap t with next := addMs now (m.heap t).ms }
    refine ⟨((m.erase t).setTimer t x).insert t, ?_, ?_, rfl⟩
    · rw [find_eq h.sorted ht]
      rfl
    · refine ((h.erase ht).without.setTimer x).insert ?_
      rw [setTimer_heap_self]
      exact hsome

theorem Ordered.reset (h : Ordered m) (t : TimerId) (now ms : Nat) (fromNow : Bool) : ∃ front m' next,
    reset t now ms fromNow m = .ok ((m.heap t).cb.isSome, front) m' ∧ Ordered m' ∧
      m'.heap = if (m.heap t).cb.isSome then
        Function.update m.heap t { m.heap t with ms := ms, next := next } else m.heap := by
  unfold TimerManager.reset
  cases hcb : (m.heap t).cb with
  | none => exact ⟨false, m, 0, rfl, h, rfl⟩
  | some c =>
    have hsome : (m.heap t).cb.isSome = true := by rw [hcb]; rfl
    have ht : t ∈ m.timers := h.pending.mp hsome
    rw [find_eq h.sorted ht]
    refine ⟨_, _, _, rfl, ?_, rfl⟩
    refine ((h.erase ht).without.setTimer _).addTimer ?_ rfl
    rw [setTimer_heap_self]
    exact hsome

theorem Ordered.getNextTime (h : Ordered m) (now : Nat) : ∃ n m',
    getNextTime now m = .ok n m' ∧ Ordered m' ∧ m'.heap = m.heap := by
  have hm : OrderedBut [] m := h
  have hord : Ordered { m with flag := false } := ⟨hm.sorted, hm.pending, hm.apart, hm.nodup⟩
  unfold TimerManager.getNextTime
  dsimp only
  split
  · exact ⟨_, _, rfl, hord, rfl⟩
  · exact ⟨_, _, rfl, hord, rfl⟩

/-! ## Expiry -/

/-- A timer after its callback was handed out. -/
def afterExpiry (now : Nat) (x : Timer) : Timer :=
  if x.recurring then { x with next := addMs now x.ms } else { x with cb := none }

/-- A sorted set that the timers `out` were taken out of. -/
structure Drained (out : List TimerId) (m : TimerManager) : Prop where
  sorted : Sorted m.before m.timers
  apart : ∀ t ∈ out, t ∉ m.timers
  nodup : out.Nodup

theorem Drained.rearm (h : Drained (t :: out) m) (now : Nat) :
    Drained out (m.rearm now t) ∧
      (m.rearm now t).heap = Function.update m.heap t (afterExpiry now (m.heap t)) ∧
      ∀ u, u ∈ (m.rearm now t).timers ↔ u ∈ m.timers ∨ u = t ∧ (m.heap t).recurring = true := by
  have hout : t ∉ m.timers := h.apart t List.mem_cons_self
  obtain ⟨hfresh, hnodup⟩ := List.nodup_cons.mp h.nodup
  have hapart : ∀ u ∈ out, u ∉ m.timers := fun u hu => h.apart u (List.mem_cons_of_mem t hu)
  cases hrec : (m.heap t).recurring with
  | true =>
    have hrearm : m.rearm now t =
        (m.setTimer t { m.heap t with next := addMs now (m.heap t).ms }).insert t := if_pos hrec
    have hafter : afterExpiry now (m.heap t) =
        { m.heap t with next := addMs now (m.heap t).ms } := if_pos hrec
    rw [hrearm, hafter]
    refine ⟨⟨sorted_insert (sorted_setTimer h.sorted hout _), ?_, hnodup⟩, rfl, fun u => ?_⟩
    · intro u hu hmem
      rcases mem_insert.mp hmem with rfl | hmem
      · exact hfresh hu
      · exact hapart u hu hmem
    · rw [mem_insert, and_iff_left rfl, or_comm]
      exact Iff.rfl
  | false =>
    have hnot : ¬ (m.heap t).recurring = true := by
      rw [hrec]
      exact Bool.false_ne_true
    have hrearm : m.rearm now t = m.setTimer t { m.heap t with cb := none } := if_neg hnot
    have hafter : afterExpiry now (m.heap t) = { m.heap t with cb := none } := if_neg hnot
    rw [hrearm, hafter]
    refine ⟨⟨sorted_setTimer h.sorted hout _, hapart, hnodup⟩, rfl, fun u => ?_⟩
    exact (or_iff_left fun hu => absurd hu.2 Bool.false_ne_true).symm

theorem Drained.expire {ts : List TimerId} (h : Drained ts m) (now : Nat) :
    (expire now ts m).1 = ts.map (fun t => (m.heap t).cb) ∧
      Sorted (expire now ts m).2.before (expire now ts m).2.timers ∧
      (∀ t, (expire now ts m).2.heap t =
        if t ∈ ts then afterExpiry now (m.heap t) else m.heap t) ∧
      ∀ u, u ∈ (expire now ts m).2.timers ↔
        u ∈ m.timers ∨ u ∈ ts ∧ (m.heap u).recurring = true := by
  induction ts generalizing m with
  | nil => exact ⟨rfl, h.sorted, fun _ => rfl, fun u => by simp [TimerManager.expire]⟩
  | cons t ts ih =>
    have ht : t ∉ ts := (List.nodup_cons.mp h.nodup).1
    obtain ⟨hm', hheap, htimers⟩ := h.rearm now
    obtain ⟨hcbs, hsorted, hafter, hmem⟩ := ih hm'
    have hother : ∀ u, u ≠ t → (m.rearm now t).heap u = m.heap u := by
      intro u hu
      rw [hheap, Function.update_of_ne hu]
    have hne : ∀ u ∈ ts, u ≠ t := by
      rintro u hu rfl
      exact ht hu
    refine ⟨?_, hsorted, ?_, ?_⟩
    · show (m.heap t).cb :: (TimerManager.expire now ts (m.rearm now t)).1 = _
      rw [List.map_cons, hcbs]
      refine congrArg (_ :: ·) (List.map_congr_left ?_)
      intro u hu
      rw [hother u (hne u hu)]
    · intro u
      show (TimerManager.expire now ts (m.rearm now t)).2.heap u = _
      rw [hafter u]
      rcases Decidable.em (u = t) with rfl | hu
      · rw [if_neg ht, if_pos List.mem_cons_self, hheap, Function.update_self]
      · rw [hother u hu]
        simp [hu]
    · intro u
      show u ∈ (TimerManager.expire now ts (m.rearm now t)).2.timers ↔ _
      rw [hmem u, htimers u]
      rcases Decidable.em (u = t) with rfl | hu
      · simp [ht]
      · rw [hother u hu]
        simp [hu]

/-- The vector `expired` of `listExpiredCb`. -/
def expired (now : Nat) (probe : TimerId) (m : TimerManager) : List TimerId :=
  let isBefore := fun t => Timer.before (m.key t) (now, probe)
  m.timers.takeWhile isBefore ++
    (m.timers.dropWhile isBefore).takeWhile fun t => (m.heap t).next == now

theorem expired_sublist (m : TimerManager) (now : Nat) (probe : TimerId) :
    List.Sublist (m.expired now probe) m.timers := by
  let isBefore : TimerId → Bool := fun t => Timer.before (m.key t) (now, probe)
  let isDue : TimerId → Bool := fun t => (m.heap t).next == now
  have hdue : List.Sublist ((m.timers.dropWhile isBefore).takeWhile isDue)
      (m.timers.dropWhile isBefore) := List.takeWhile_sublist _
  have happend := hdue.append_left (m.timers.takeWhile isBefore)
  rwa [List.takeWhile_append_dropWhile] at happend

/-- The timers of a sorted set that are taken out are those whose deadline has come,
wherever the probe lies. -/
theorem mem_expired (h : Sorted m.before m.timers) (now : Nat) (probe : TimerId) :
    t ∈ m.expired now probe ↔ t ∈ m.timers ∧ (m.heap t).next ≤ now := by
  let isBefore : TimerId → Bool := fun t => Timer.before (m.key t) (now, probe)
  let isDue : TimerId → Bool := fun t => (m.heap t).next == now
  have hiff : ∀ u : Nat, isBefore u = true ↔
      (m.heap u).next < now ∨ (m.heap u).next = now ∧ u < probe := fun u => Timer.before_iff
  have hbefore : ∀ a ∈ m.timers, ∀ b ∈ m.timers, m.before a b = true →
      isBefore b = true → isBefore a = true := by
    intro a _ b _ hab hb
    have h1 := before_iff.mp hab
    have h2 := (hiff b).mp hb
    apply (hiff a).mpr
    omega
  have hrest : ∀ u, u ∈ m.timers.dropWhile isBefore ↔ u ∈ m.timers ∧ isBefore u = false :=
    fun u => h.mem_dropWhile (before_strict m) hbefore
  have hdue : ∀ a ∈ m.timers.dropWhile isBefore, ∀ b ∈ m.timers.dropWhile isBefore,
      m.before a b = true → isDue b = true → isDue a = true := by
    intro a ha b _ hab hb
    have h1 := before_iff.mp hab
    have h2 : (m.heap b).next = now := beq_iff_eq.mp hb
    have h3 := mt (hiff a).mpr (Bool.eq_false_iff.mp ((hrest a).mp ha).2)
    have hnow : (m.heap a).next = now := by omega
    exact beq_iff_eq.mpr hnow
  have hsorted : Sorted m.before (m.timers.dropWhile isBefore) :=
    List.Pairwise.sublist (List.dropWhile_sublist _) h
  show t ∈ m.timers.takeWhile isBefore ++ (m.timers.dropWhile isBefore).takeWhile isDue ↔ _
  rw [List.mem_append, h.mem_takeWhile hbefore, hsorted.mem_takeWhile hdue, hrest t]
  constructor
  · rintro (⟨hmem, hb⟩ | ⟨⟨hmem, -⟩, hd⟩)
    · have := (hiff t).mp hb
      exact ⟨hmem, by omega⟩
    · exact ⟨hmem, Nat.le_of_eq (beq_iff_eq.mp hd)⟩
  · rintro ⟨hmem, hle⟩
    cases hb : isBefore t with
    | true => exact Or.inl ⟨hmem, rfl⟩
    | false =>
      have := mt (hiff t).mpr (Bool.eq_false_iff.mp hb)
      exact Or.inr ⟨⟨hmem, rfl⟩, beq_iff_eq.mpr (by omega)⟩

theorem Ordered.expired (h : Ordered m) (now : Nat) (probe : TimerId) :
    (m.expired now probe).Nodup ∧
      ∀ t ∈ m.expired now probe, t ∈ m.timers ∧ (m.heap t).next ≤ now :=
  ⟨h.nodup.sublist (expired_sublist m now probe), fun _ => (mem_expired h.sorted now probe).mp⟩

/-- What `listExpiredCb` does to a sorted set. -/
theorem listExpiredCb_sorted (h : Sorted m.before m.timers) (now : Nat) (probe : TimerId) : ∃ m',
    listExpiredCb now probe m = .ok ((m.expired now probe).map fun t => (m.heap t).cb) m' ∧
      Sorted m'.before m'.timers ∧
      (∀ t, m'.heap t =
        if t ∈ m.expired now probe then afterExpiry now (m.heap t) else m.heap t) ∧
      ∀ t, t ∈ m'.timers ↔ (t ∈ m.timers ∧ t ∉ m.expired now probe) ∨
        t ∈ m.expired now probe ∧ (m.heap t).recurring = true := by
  unfold TimerManager.listExpiredCb
  cases hempty : m.timers.isEmpty with
  | true =>
    have hnil : m.expired now probe = [] := by
      unfold TimerManager.expired
      rw [List.isEmpty_iff.mp hempty]
      rfl
    rw [hnil]
    exact ⟨m, rfl, h, fun _ => rfl, fun t => by simp⟩
  | false =>
    let isBefore : TimerId → Bool := fun t => Timer.before (m.key t) (now, probe)
    let isDue : TimerId → Bool := fun t => (m.heap t).next == now
    let rest := m.timers.dropWhile isBefore
    have hsplit : m.expired now probe ++ rest.dropWhile isDue = m.timers := by
      show (m.timers.takeWhile isBefore ++ rest.takeWhile isDue) ++ rest.dropWhile isDue = _
      rw [List.append_assoc, List.takeWhile_append_dropWhile, List.takeWhile_append_dropWhile]
    have hnodup : (m.expired now probe ++ rest.dropWhile isDue).Nodup :=
      hsplit ▸ OrderedSet.Sorted.nodup (before_strict m) h
    have hapart := (List.nodup_append.mp hnodup).2.2
    have hmem : ∀ t, t ∈ rest.dropWhile isDue ↔ t ∈ m.timers ∧ t ∉ m.expired now probe := by
      intro t
      rw [← hsplit, List.mem_append]
      constructor
      · intro ht
        exact ⟨Or.inr ht, fun hout => hapart t hout t ht rfl⟩
      · rintro ⟨ht | ht, hout⟩
        · exact absurd ht hout
        · exact ht
    have hdrained : Drained (m.expired now probe)
        { m with timers := rest.dropWhile isDue, previousTime := now } := by
      refine ⟨?_, fun t hout ht => hapart t hout t ht rfl, (List.nodup_append.mp hnodup).1⟩
      refine List.Pairwise.sublist ?_ h
      exact (List.dropWhile_sublist _).trans (List.dropWhile_sublist _)
    obtain ⟨hcbs, hsorted, hheap, htimers⟩ := hdrained.expire now
    refine ⟨_, ?_, hsorted, hheap, fun t => ?_⟩
    · rw [if_neg Bool.false_ne_true]
      exact congrArg (Outcome.ok · _) hcbs
    · rw [← hmem t]
      exact htimers t

theorem Ordered.listExpiredCb (h : Ordered m) (now : Nat) (probe : TimerId) : ∃ m',
    listExpiredCb now probe m = .ok ((m.expired now probe).map fun t => (m.heap t).cb) m' ∧
      Ordered m' ∧
      ∀ t, m'.heap t =
        if t ∈ m.expired now probe then afterExpiry now (m.heap t) else m.heap t := by
  obtain ⟨m', hrun, hsorted, hheap, htimers⟩ := listExpiredCb_sorted h.sorted now probe
  refine ⟨m', hrun, ⟨hsorted, fun t => ?_, fun t ht => absurd ht List.not_mem_nil,
    List.nodup_nil⟩, hheap⟩
  rw [hheap t, htimers t, or_iff_left List.not_mem_nil]
  rcases Decidable.em (t ∈ m.expired now probe) with hout | hout
  · have hcb : (m.heap t).cb.isSome = true := h.pending.mpr ((h.expired now probe).2 t hout).1
    rw [if_pos hout, afterExpiry]
    cases hrec : (m.heap t).recurring with
    | true => simp [hout, hcb]
    | false => simp [hout]
  · rw [if_neg hout, h.pending]
    simp [hout]

end
end TimerManager
end TwServer
