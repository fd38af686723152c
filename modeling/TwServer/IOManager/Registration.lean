import TwServer.Lib.Runs
import TwServer.IOManager.Model

/-! What `addEvent`, `delEvent` and `cancelEvent` do to the registrations. The
invariant ties the mask, the slots and the counter together. `cancelEvent` and
`addEvent` keep it; `delEvent` of a registered event never does, since
`resetContext` reaches through the slot's fiber and then leaves it there. -/

namespace TwServer
open Programs Program Counting Runs

namespace EventContext

/-- A scheduler and exactly one of fiber and callback. -/
def Full (ctx : EventContext) : Prop :=
  ctx.scheduler.isSome = true ∧ ctx.fiber.isSome ≠ ctx.cb.isSome

instance (ctx : EventContext) : Decidable ctx.Full := by unfold Full; infer_instance

/-- The waiter and the scheduler it goes to. -/
def entry (ctx : EventContext) : Option (SchedulerId × Task) :=
  match ctx.scheduler, ctx.fiber, ctx.cb with
  | some sc, some f, _ => some (sc, .fiber f)
  | some sc, none, some c => some (sc, .cb c)
  | _, _, _ => none

theorem not_full_empty : ¬ empty.Full := by decide

theorem Full.cases {ctx : EventContext} (h : ctx.Full) :
    (∃ sc f, ctx = ⟨some sc, some f, none⟩) ∨ ∃ sc c, ctx = ⟨some sc, none, some c⟩ := by
  obtain ⟨hs, hw⟩ := h
  rcases ctx with ⟨_ | sc, _ | f, _ | c⟩
  · cases hs
  · cases hs
  · cases hs
  · cases hs
  · exact absurd rfl hw
  · exact Or.inr ⟨sc, c, rfl⟩
  · exact Or.inl ⟨sc, f, rfl⟩
  · exact absurd rfl hw

end EventContext

namespace Events

@[simp] theorem has_insert_self (m : Events) (ev : Event) : (m.insert ev).has ev = true := by
  cases ev <;> rfl

@[simp] theorem has_erase_self (m : Events) (ev : Event) : (m.erase ev).has ev = false := by
  cases ev <;> rfl

theorem has_insert_of_ne {m : Events} {ev ev' : Event} (h : ev' ≠ ev) :
    (m.insert ev).has ev' = m.has ev' := by
  cases ev <;> cases ev' <;> first | rfl | exact absurd rfl h

theorem has_erase_of_ne {m : Events} {ev ev' : Event} (h : ev' ≠ ev) :
    (m.erase ev).has ev' = m.has ev' := by
  cases ev <;> cases ev' <;> first | rfl | exact absurd rfl h

theorem count_insert {m : Events} {ev : Event} (h : m.has ev = false) :
    (m.insert ev).count = m.count + 1 := by
  rcases m with ⟨_ | _, _ | _⟩ <;> cases ev <;> first | rfl | cases h

theorem count_erase {m : Events} {ev : Event} (h : m.has ev = true) :
    (m.erase ev).count + 1 = m.count := by
  rcases m with ⟨_ | _, _ | _⟩ <;> cases ev <;> first | rfl | cases h

end Events

namespace FdContext

@[simp] theorem setContext_fd (c : FdContext) (ctx : EventContext) (ev : Event) :
    (c.setContext ctx ev).fd = c.fd := by cases ev <;> rfl

@[simp] theorem setContext_events (c : FdContext) (ctx : EventContext) (ev : Event) :
    (c.setContext ctx ev).events = c.events := by cases ev <;> rfl

@[simp] theorem getContext_setContext (c : FdContext) (ctx : EventContext) (ev : Event) :
    (c.setContext ctx ev).getContext ev = ctx := by cases ev <;> rfl

theorem getContext_setContext_of_ne {c : FdContext} {ctx : EventContext} {ev ev' : Event}
    (h : ev' ≠ ev) : (c.setContext ctx ev).getContext ev' = c.getContext ev' := by
  cases ev <;> cases ev' <;> first | rfl | exact absurd rfl h

@[simp] theorem getContext_events (c : FdContext) (m : Events) (ev : Event) :
    ({ c with events := m } : FdContext).getContext ev = c.getContext ev := by cases ev <;> rfl

/-- The bit of `ev` is set exactly when its slot holds a waiter; otherwise the slot is empty. -/
def SlotOk (c : FdContext) (ev : Event) : Prop :=
  (c.events.has ev = true ↔ (c.getContext ev).Full) ∧
    (c.events.has ev = false → c.getContext ev = .empty)

theorem SlotOk.of_empty {c : FdContext} {ev : Event} (hb : c.events.has ev = false)
    (hc : c.getContext ev = .empty) : c.SlotOk ev := by
  refine ⟨iff_of_false ?_ ?_, fun _ => hc⟩
  · rw [hb]
    exact Bool.false_ne_true
  · rw [hc]
    exact EventContext.not_full_empty

end FdContext

namespace IOManager

/-- The set bits over all descriptors. -/
def bits (s : IOManager) : Nat := (s.fdContexts.map (·.events.count)).sum

structure Consistent (s : IOManager) : Prop where
  numbered : ∀ (fd : Nat) (c : FdContext), s.fdContexts[fd]? = some c → c.fd = fd
  slots : ∀ c ∈ s.fdContexts, ∀ ev, c.SlotOk ev
  pending : s.pendingEventCount = s.bits

/-! ## The table -/

theorem sum_set {α : Type} (f : α → Nat) {l : List α} {i : Nat} {a b : α} (h : l[i]? = some a) :
    ((l.set i b).map f).sum + f a = (l.map f).sum + f b := by
  induction l generalizing i with
  | nil => cases h
  | cons x l ih =>
    cases i with
    | zero =>
      obtain rfl : x = a := Option.some.inj h
      simp only [List.set_cons_zero, List.map_cons, List.sum_cons]
      omega
    | succ i =>
      have := ih (i := i) h
      simp only [List.set_cons_succ, List.map_cons, List.sum_cons]
      omega

/-- Every context stands at the place of its descriptor. -/
def Numbered (s : IOManager) : Prop :=
  ∀ (fd : Nat) (c : FdContext), s.fdContexts[fd]? = some c → c.fd = fd

theorem Consistent.toNumbered {s : IOManager} (h : Consistent s) : Numbered s := h.numbered

theorem Numbered.set {s s' : IOManager} (h : Numbered s) {fd : Nat} {c c' : FdContext}
    (hc : s.fdContexts[fd]? = some c) (hfd : c'.fd = c.fd)
    (hs' : s'.fdContexts = s.fdContexts.set fd c') : Numbered s' := by
  intro i d hd
  rw [hs', List.getElem?_set] at hd
  by_cases hi : fd = i
  · subst hi
    rw [if_pos rfl] at hd
    split at hd
    · obtain rfl := Option.some.inj hd
      rw [hfd]
      exact h _ _ hc
    · cases hd
  · rw [if_neg hi] at hd
    exact h _ _ hd

theorem Numbered.resize {s : IOManager} (h : Numbered s) (size : Nat) :
    Numbered (s.fdContextResize size) := by
  unfold fdContextResize
  split
  · exact h
  · intro fd c hc
    rw [List.getElem?_append] at hc
    split at hc
    · exact h _ _ hc
    · obtain ⟨hi, rfl⟩ := List.getElem?_eq_some_iff.mp hc
      rw [List.getElem_map, List.getElem_range']
      show s.fdContexts.length + 1 * (fd - s.fdContexts.length) = fd
      omega

/-- Replacing one context keeps the invariant if its slots and the counter follow. -/
theorem Consistent.set {s s' : IOManager} (h : Consistent s) {fd : Nat} {c c' : FdContext}
    (hc : s.fdContexts[fd]? = some c) (hfd : c'.fd = c.fd) (hslots : ∀ ev, c'.SlotOk ev)
    (hs' : s'.fdContexts = s.fdContexts.set fd c')
    (hpending : s'.pendingEventCount + c.events.count = s.pendingEventCount + c'.events.count) :
    Consistent s' where
  numbered := h.toNumbered.set hc hfd hs'
  slots := by
    intro d hd
    rw [hs'] at hd
    rcases List.mem_or_eq_of_mem_set hd with hd | rfl
    · exact h.slots d hd
    · exact hslots
  pending := by
    have hsum := sum_set (fun c => c.events.count) (b := c') hc
    have := h.pending
    unfold bits at *
    rw [hs']
    omega

theorem length_resize (s : IOManager) (size : Nat) :
    (s.fdContextResize size).fdContexts.length = max s.fdContexts.length size := by
  unfold fdContextResize
  split
  · omega
  · simp only [List.length_append, List.length_map, List.length_range']
    omega

/-- The contexts that are added are empty. -/
theorem mem_resize {s : IOManager} {size : Nat} {c : FdContext}
    (h : c ∈ (s.fdContextResize size).fdContexts) :
    c ∈ s.fdContexts ∨ ∃ fd, c = FdContext.new fd := by
  unfold fdContextResize at h
  split at h
  · exact Or.inl h
  · rcases List.mem_append.mp h with h | h
    · exact Or.inl h
    · obtain ⟨fd, -, rfl⟩ := List.mem_map.mp h
      exact Or.inr ⟨fd, rfl⟩

theorem bits_resize (s : IOManager) (size : Nat) : (s.fdContextResize size).bits = s.bits := by
  unfold fdContextResize
  split
  · rfl
  · have hnew : ((List.range' s.fdContexts.length (size - s.fdContexts.length)).map
        FdContext.new).map (·.events.count) =
          List.replicate (size - s.fdContexts.length) 0 := by
      rw [List.map_map]
      refine List.eq_replicate_iff.mpr ⟨by simp, ?_⟩
      intro b hb
      obtain ⟨fd, -, rfl⟩ := List.mem_map.mp hb
      rfl
    rw [bits, List.map_append, List.sum_append, hnew, List.sum_replicate_nat, Nat.mul_zero]
    rfl

theorem resize_pending (s : IOManager) (size : Nat) :
    (s.fdContextResize size).pendingEventCount = s.pendingEventCount := by
  unfold fdContextResize
  split <;> rfl

theorem resize_consistent {s : IOManager} (h : Consistent s) (size : Nat) :
    Consistent (s.fdContextResize size) where
  numbered := h.toNumbered.resize size
  slots := by
    intro c hc ev
    rcases mem_resize hc with hc | ⟨fd, rfl⟩
    · exact h.slots c hc ev
    · exact FdContext.SlotOk.of_empty (by cases ev <;> rfl) (by cases ev <;> rfl)
  pending := by
    rw [resize_pending, bits_resize]
    exact h.pending

theorem new_consistent (fibers : FiberId → Fiber) : Consistent (new fibers) := by
  refine resize_consistent ⟨?_, ?_, rfl⟩ 32
  · intro fd c hc
    cases hc
  · intro c hc
    cases hc

/-! ## One removal -/

theorem registered_eq_true {s : IOManager} {fd : Nat} {ev : Event} :
    s.registered fd ev = true ↔ ∃ c, s.fdContexts[fd]? = some c ∧ c.events.has ev = true := by
  unfold registered
  cases s.fdContexts[fd]? with
  | none => simp
  | some c => simp

theorem delEvent_unregistered {s : IOManager} {fd : Nat} {ev : Event} {ctl : Bool}
    (h : s.registered fd ev = false) : delEvent ctl fd ev s = .ok false s := by
  unfold registered at h
  unfold delEvent
  cases hc : s.fdContexts[fd]? with
  | none => rfl
  | some c =>
    rw [hc] at h
    simp only at h
    simp only [h, Bool.not_false, ↓reduceIte]

theorem cancelEvent_unregistered {s : IOManager} {fd : Nat} {ev : Event} {ctl : Bool}
    (h : s.registered fd ev = false) : cancelEvent ctl fd ev s = .ok false s := by
  unfold registered at h
  unfold cancelEvent
  cases hc : s.fdContexts[fd]? with
  | none => rfl
  | some c =>
    rw [hc] at h
    simp only at h
    simp only [h, Bool.not_false, ↓reduceIte]

/-- What `delEvent` leaves when it gets past `resetContext`: the bit is gone,
nothing is scheduled and the slot still holds its fiber. -/
structure Dropped (s : IOManager) (fd : Nat) (ev : Event) (c : FdContext) (s' : IOManager) :
    Prop where
  scheduled : s'.scheduled = s.scheduled
  fdContexts : ∃ c', s'.fdContexts = s.fdContexts.set fd c' ∧ c'.fd = c.fd ∧
    c'.events = c.events.erase ev ∧ (c'.getContext ev).fiber = (c.getContext ev).fiber ∧
    ∀ ev', ev' ≠ ev → c'.getContext ev' = c.getContext ev'
  fiber : (c.getContext ev).fiber.isSome = true

theorem delEvent_registered {s : IOManager} {fd : Nat} {ev : Event} {c : FdContext}
    (hc : s.fdContexts[fd]? = some c) (hb : c.events.has ev = true) :
    (∃ why, delEvent true fd ev s = .fault why) ∨
      ∃ s', delEvent true fd ev s = .ok true s' ∧ Dropped s fd ev c s' := by
  unfold delEvent
  simp only [hc, hb, Bool.not_true, Bool.false_eq_true, ↓reduceIte, resetContext,
    FdContext.getContext_events]
  cases hf : (c.getContext ev).fiber with
  | none => exact Or.inl ⟨_, rfl⟩
  | some f =>
    simp only
    cases hr : ((s.setFdContext fd { c with events := c.events.erase ev }).fibers f).reset none with
    | error text => exact Or.inl ⟨_, rfl⟩
    | ok fiber =>
      refine Or.inr ⟨_, rfl, rfl, ⟨_, List.set_set .., ?_, ?_, ?_, ?_⟩, by rw [hf]; rfl⟩
      · exact FdContext.setContext_fd _ _ _
      · exact FdContext.setContext_events _ _ _
      · rw [FdContext.getContext_setContext, hf]
      · intro ev' he
        rw [FdContext.getContext_setContext_of_ne he, FdContext.getContext_events]

/-- What `cancelEvent` does to a registered event: its waiter is scheduled, its slot emptied. -/
structure Cancelled (s : IOManager) (fd : Nat) (ev : Event) (c : FdContext) (s' : IOManager) :
    Prop where
  entry : ∃ e, (c.getContext ev).entry = some e ∧ s'.scheduled = s.scheduled ++ [e]
  fdContexts : s'.fdContexts = s.fdContexts.set fd
    ({ c with events := c.events.erase ev }.setContext .empty ev)
  pending : s'.pendingEventCount = decrement s.pendingEventCount
  fibers : s'.fibers = s.fibers

theorem cancelEvent_registered {s : IOManager} {fd : Nat} {ev : Event} {c : FdContext}
    (hc : s.fdContexts[fd]? = some c) (hb : c.events.has ev = true)
    (hfull : (c.getContext ev).Full) :
    ∃ s', cancelEvent true fd ev s = .ok true s' ∧ Cancelled s fd ev c s' := by
  unfold cancelEvent
  simp only [hc, hb, Bool.not_true, Bool.false_eq_true, ↓reduceIte, triggerEvent]
  rcases hfull.cases with ⟨sc, f, hctx⟩ | ⟨sc, cb, hctx⟩
  · simp only [hctx, swapTask, schedule]
    exact ⟨_, rfl, ⟨_, by rw [hctx]; rfl, rfl⟩, rfl, rfl, rfl⟩
  · simp only [hctx, swapTask, schedule, Option.map_some]
    exact ⟨_, rfl, ⟨_, by rw [hctx]; rfl, rfl⟩, rfl, rfl, rfl⟩

theorem Cancelled.consistent {s s' : IOManager} {fd : Nat} {ev : Event} {c : FdContext}
    (h : Consistent s) (hc : s.fdContexts[fd]? = some c) (hb : c.events.has ev = true)
    (hd : Cancelled s fd ev c s') : Consistent s' := by
  have hcount := Events.count_erase hb
  refine h.set hc ?_ ?_ hd.fdContexts ?_
  · exact FdContext.setContext_fd _ _ _
  · intro ev'
    by_cases he : ev' = ev
    · subst he
      exact FdContext.SlotOk.of_empty (by simp) (by simp)
    · have hslot := h.slots c (List.mem_of_getElem? hc) ev'
      unfold FdContext.SlotOk at *
      rw [FdContext.getContext_setContext_of_ne he, FdContext.setContext_events,
        Events.has_erase_of_ne he, FdContext.getContext_events]
      exact hslot
  · -- the bit was counted, so the counter does not wrap
    have hsum := sum_set (fun c => c.events.count) (b := { c with events := c.events.erase ev }) hc
    have := h.pending
    have hpos : s.pendingEventCount ≠ 0 := by
      unfold bits at this
      simp only at hsum
      omega
    rw [hd.pending, decrement, if_neg hpos, FdContext.setContext_events]
    show s.pendingEventCount - 1 + c.events.count = s.pendingEventCount + (c.events.erase ev).count
    omega

/-- A stale fiber: the slot holds one although its bit is clear. -/
def Stale (s : IOManager) (fd : Nat) (ev : Event) : Prop :=
  ∃ c, s.fdContexts[fd]? = some c ∧ c.events.has ev = false ∧ (c.getContext ev).fiber.isSome = true

theorem Consistent.not_stale {s : IOManager} (h : Consistent s) {fd : Nat} {ev : Event} :
    ¬ Stale s fd ev := by
  rintro ⟨c, hc, hbit, hfiber⟩
  rw [(h.slots c (List.mem_of_getElem? hc) ev).2 hbit] at hfiber
  cases hfiber

theorem Dropped.stale {s s' : IOManager} {fd : Nat} {ev : Event} {c : FdContext}
    (hc : s.fdContexts[fd]? = some c) (hd : Dropped s fd ev c s') : Stale s' fd ev := by
  obtain ⟨c', hset, -, hev, hf, -⟩ := hd.fdContexts
  have hlt : fd < s.fdContexts.length := (List.getElem?_eq_some_iff.mp hc).1
  refine ⟨c', ?_, ?_, ?_⟩
  · rw [hset, List.getElem?_set_self hlt]
  · rw [hev, Events.has_erase_self]
  · rw [hf]
    exact hd.fiber

/-- Removing one event leaves the other one's bit and slot. -/
theorem Dropped.other {s s' : IOManager} {fd : Nat} {ev ev' : Event} {c : FdContext}
    (hc : s.fdContexts[fd]? = some c) (hd : Dropped s fd ev c s') (he : ev' ≠ ev) :
    s'.registered fd ev' = s.registered fd ev' ∧ (Stale s fd ev' → Stale s' fd ev') := by
  obtain ⟨c', hset, -, hev, -, hother⟩ := hd.fdContexts
  have hlt : fd < s.fdContexts.length := (List.getElem?_eq_some_iff.mp hc).1
  have hc' : s'.fdContexts[fd]? = some c' := by rw [hset, List.getElem?_set_self hlt]
  constructor
  · simp only [registered, hc, hc', hev, Events.has_erase_of_ne he]
  · rintro ⟨d, hd, hbit, hfiber⟩
    obtain rfl : c = d := Option.some.inj (hc.symm.trans hd)
    refine ⟨c', hc', ?_, ?_⟩
    · rw [hev, Events.has_erase_of_ne he]
      exact hbit
    · rw [hother ev' he]
      exact hfiber

theorem Stale.unregistered {s : IOManager} {fd : Nat} {ev : Event} (h : Stale s fd ev) :
    s.registered fd ev = false := by
  obtain ⟨c, hc, hbit, -⟩ := h
  simp only [registered, hc, hbit]

/-! ## One registration -/

/-- The context of `fd` once `ctx` waits there for `ev`. -/
def withWaiter (s : IOManager) (fd : Nat) (c : FdContext) (ev : Event) (ctx : EventContext) :
    IOManager :=
  { s with pendingEventCount := s.pendingEventCount + 1 }.setFdContext fd
    ({ c with events := c.events.insert ev }.setContext ctx ev)

/-- The table as `addEvent(fd)` finds it. -/
def grown (fd : Nat) (s : IOManager) : IOManager :=
  if s.fdContexts.length > fd then s else s.fdContextResize (fd * 3 / 2)

/-- The slot that `addEvent` fills. -/
def filledSlot (here : Caller) (cb : Option Callback) (ctx : EventContext) : EventContext :=
  match cb with
  | some f => { ctx with scheduler := here.scheduler, cb := some f }
  | none => { ctx with scheduler := here.scheduler, fiber := some here.fiber }

/-- An `addEvent` that comes back has found the bit clear. It returns -1 if
`epoll_ctl` fails, and otherwise the caller waits. -/
theorem addEvent_cases {s s' : IOManager} {here : Caller} {ctl : Bool} {fd : Nat} {ev : Event}
    {cb : Option Callback} (h : (addEvent here ctl fd ev cb s).state? = some s') :
    ∃ c, (s.grown fd).fdContexts[fd]? = some c ∧ c.events.has ev = false ∧
      ((ctl = false ∧ s' = s.grown fd) ∨
        (ctl = true ∧ s' = (s.grown fd).withWaiter fd c ev (filledSlot here cb (c.getContext ev)))) := by
  simp only [addEvent] at h
  unfold grown
  generalize (if s.fdContexts.length > fd then s else s.fdContextResize (fd * 3 / 2)) = t at h ⊢
  cases hc : t.fdContexts[fd]? with
  | none =>
    rw [hc] at h
    cases h
  | some c =>
    rw [hc] at h
    cases hb : c.events.has ev with
    | true =>
      simp only [hb, ↓reduceIte] at h
      cases h
    | false =>
      refine ⟨c, rfl, hb, ?_⟩
      cases ctl with
      | false =>
        simp only [hb, Bool.false_eq_true, ↓reduceIte, Bool.not_false] at h
        exact Or.inl ⟨rfl, (Option.some.inj h).symm⟩
      | true =>
        simp only [hb, Bool.false_eq_true, ↓reduceIte, Bool.not_true] at h
        refine Or.inr ⟨rfl, ?_⟩
        cases cb with
        | some f => exact (Option.some.inj h).symm
        | none =>
          by_cases hexec : (t.fibers here.fiber).state = .exec
          · simp only [hexec, ↓reduceIte] at h
            exact (Option.some.inj h).symm
          · simp only [hexec, ↓reduceIte] at h
            cases h

theorem withWaiter_consistent {s : IOManager} (h : Consistent s) {fd : Nat} {c : FdContext}
    {ev : Event} (hc : s.fdContexts[fd]? = some c) (hb : c.events.has ev = false)
    (ctx : EventContext) (hw : ctx.fiber.isSome ≠ ctx.cb.isSome) :
    Consistent (s.withWaiter fd c ev ctx) ↔ ctx.scheduler.isSome = true := by
  have hcount := Events.count_insert hb
  constructor
  · intro h'
    have hlt : fd < s.fdContexts.length := (List.getElem?_eq_some_iff.mp hc).1
    have hslot := (h'.slots _ (List.mem_of_getElem? (List.getElem?_set_self hlt)) ev).1
    rw [FdContext.setContext_events, FdContext.getContext_setContext] at hslot
    exact (hslot.mp (Events.has_insert_self _ _)).1
  · intro hs
    refine h.set hc ?_ ?_ rfl ?_
    · exact FdContext.setContext_fd _ _ _
    · intro ev'
      by_cases he : ev' = ev
      · subst he
        rw [FdContext.SlotOk, FdContext.setContext_events, FdContext.getContext_setContext,
          Events.has_insert_self]
        exact ⟨iff_of_true rfl ⟨hs, hw⟩, fun h => absurd h (by simp)⟩
      · have hslot := h.slots c (List.mem_of_getElem? hc) ev'
        unfold FdContext.SlotOk at *
        rw [FdContext.getContext_setContext_of_ne he, FdContext.setContext_events,
          Events.has_insert_of_ne he, FdContext.getContext_events]
        exact hslot
    · rw [FdContext.setContext_events]
      show s.pendingEventCount + 1 + c.events.count =
        s.pendingEventCount + (c.events.insert ev).count
      omega

end IOManager
end TwServer
