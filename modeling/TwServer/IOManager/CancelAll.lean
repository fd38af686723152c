import TwServer.IOManager.Pending

/-! `cancelAll` of a descriptor in any of its registration states. It stops at the
first `cancelEvent` that returns false, also where that only means that nobody
waits for the event: a descriptor that is registered for WRITE alone stays so. -/

namespace TwServer
open Programs Program Counting Runs

namespace IOManager

/-- The events registered for `fd`, in the order of their bits. -/
def registeredEvents (s : IOManager) (fd : Nat) : List Event :=
  [.read, .write].filter (s.registered fd)

/-- From `s` to `s'` every registration of `fd` was cancelled: its context is as
good as new, each waiter was enqueued once, and every other descriptor is as before. -/
structure AllCancelled (s : IOManager) (fd : Nat) (s' : IOManager) : Prop where
  empty : s'.context fd = .new fd
  enqueued : ∃ tasks, s'.scheduled = s.scheduled ++ tasks ∧
    tasks.map some = (s.registeredEvents fd).map (s.waiter? fd)
  pending : s'.pendingEventCount + (s.registeredEvents fd).length = s.pendingEventCount
  others : ∀ fd', fd' ≠ fd → s'.context fd' = s.context fd'

/-- `cancelAll(fd)`, with `epoll_ctl` succeeding, cancels every registration. -/
def CancelsAll (s : IOManager) (fd : Nat) : Prop :=
  ∃ rt s', cancelAll true true fd s = .ok rt s' ∧ AllCancelled s fd s'

/-! ## One event -/

/-- The slot after `triggerEvent`. -/
def swapped (ctx : EventContext) : EventContext := { (swapTask ctx).2 with scheduler := none }

/-- With a scheduler the slot was proper if its waiter is handed over and nothing stays. -/
theorem full_iff {ctx : EventContext} {sc : SchedulerId} (hs : ctx.scheduler = some sc) :
    ctx.Full ↔ ctx.entry.isSome = true ∧ swapped ctx = .empty := by
  rcases ctx with ⟨_ | sc', _ | f, _ | cb⟩ <;> cases hs <;>
    simp [EventContext.Full, EventContext.entry, swapped, swapTask, EventContext.empty]

theorem waiter?_eq {s : IOManager} {fd : Nat} {ev : Event} (hr : s.registered fd ev = true) :
    s.waiter? fd ev = ((s.context fd).getContext ev).entry := by
  obtain ⟨c, hc, hb⟩ := registered_eq_true.mp hr
  simp only [waiter?, context, hc, hb, ↓reduceIte, Option.getD_some]

/-- What a `cancelEvent` of a registered event that succeeds has done. -/
structure OneCancelled (s : IOManager) (fd : Nat) (ev : Event) (s' : IOManager) : Prop where
  full : ((s.context fd).getContext ev).Full ↔
    (s.waiter? fd ev).isSome = true ∧ (s'.context fd).getContext ev = .empty
  scheduled : s'.scheduled = s.scheduled ++ (s.waiter? fd ev).toList
  number : (s'.context fd).fd = (s.context fd).fd
  events : (s'.context fd).events = (s.context fd).events.erase ev
  slot : ∀ ev', ev' ≠ ev → (s'.context fd).getContext ev' = (s.context fd).getContext ev'
  others : ∀ fd', fd' ≠ fd → s'.context fd' = s.context fd'
  pending : s'.pendingEventCount + 1 = s.pendingEventCount
  bits_le : s'.bits ≤ s'.pendingEventCount

theorem context_set {s s' : IOManager} {fd : Nat} {c c' : FdContext}
    (hc : s.fdContexts[fd]? = some c) (hset : s'.fdContexts = s.fdContexts.set fd c') :
    s'.context fd = c' ∧ ∀ fd', fd' ≠ fd → s'.context fd' = s.context fd' := by
  have hlt : fd < s.fdContexts.length := (List.getElem?_eq_some_iff.mp hc).1
  unfold context
  rw [hset]
  refine ⟨by rw [List.getElem?_set_self hlt]; rfl, fun fd' hne => ?_⟩
  rw [List.getElem?_set_ne hne.symm]

theorem cancelEvent_one {s : IOManager} (hle : s.bits ≤ s.pendingEventCount) {fd : Nat}
    {ev : Event} (hr : s.registered fd ev = true) :
    (¬ ((s.context fd).getContext ev).Full ∧ ∃ why, cancelEvent true fd ev s = .fault why) ∨
      ∃ s', cancelEvent true fd ev s = .ok true s' ∧ OneCancelled s fd ev s' := by
  obtain ⟨c, hc, hb⟩ := registered_eq_true.mp hr
  have hctx : s.context fd = c := by rw [context, hc, Option.getD_some]
  rw [hctx]
  cases hs : (c.getContext ev).scheduler with
  | none =>
    refine Or.inl ⟨?_, .nullPointer, cancelEvent_null hc hb hs⟩
    rintro ⟨hsome, -⟩
    rw [hs] at hsome
    cases hsome
  | some sc =>
    have hrun : ∃ s', cancelEvent true fd ev s = .ok true s' ∧
        s'.scheduled = (s.schedule sc (swapTask (c.getContext ev)).1).scheduled ∧
        s'.fdContexts = s.fdContexts.set fd ({ c with events := c.events.erase ev }.setContext
          (swapped (c.getContext ev)) ev) :=
      ⟨_, cancelEvent_hands hc hb hs, rfl, rfl⟩
    obtain ⟨s', hrun, hsch, hset⟩ := hrun
    have hstate : (Removal.cancel.run true fd ev s).state? = some s' := by
      rw [Removal.run, hrun]
      rfl
    have hbits := (cancelEvent_removed hr hstate).bits
    have hpending := Removal.run_pending .cancel hle hstate
    rw [Removal.loses, Bool.toNat_false] at hpending
    obtain ⟨hself, hother⟩ := context_set hc hset
    have hwaiter : s.waiter? fd ev = (c.getContext ev).entry := by rw [waiter?_eq hr, hctx]
    refine Or.inr ⟨s', hrun, ?_⟩
    constructor
    case full =>
      rw [hctx, hself, hwaiter, FdContext.getContext_setContext]
      exact full_iff hs
    case scheduled => rw [hsch, schedule_appends, swapTask_entry hs, hwaiter]
    case number => rw [hself, hctx, FdContext.setContext_fd]
    case events => rw [hself, hctx, FdContext.setContext_events]
    case slot =>
      intro ev' hne
      rw [hself, hctx, FdContext.getContext_setContext_of_ne hne, FdContext.getContext_events]
    case others => exact hother
    case pending => omega
    case bits_le => omega

/-! ## Both events -/

/-- The context of `fd` in order: a waiter for each bit, nothing in the other slots. -/
def Clean (s : IOManager) (fd : Nat) : Prop := ∀ ev, (s.context fd).SlotOk ev

theorem slotOk_of_registered {s : IOManager} {fd : Nat} {ev : Event}
    (hr : s.registered fd ev = true) :
    (s.context fd).SlotOk ev ↔ ((s.context fd).getContext ev).Full := by
  rw [registered_eq_context] at hr
  unfold FdContext.SlotOk
  rw [hr]
  simp

theorem slotOk_of_unregistered {s : IOManager} {fd : Nat} {ev : Event}
    (hr : s.registered fd ev = false) :
    (s.context fd).SlotOk ev ↔ (s.context fd).getContext ev = .empty := by
  rw [registered_eq_context] at hr
  exact ⟨fun h => h.2 hr, FdContext.SlotOk.of_empty hr⟩

theorem context_eq_new_iff {s : IOManager} {fd : Nat} (hnumber : (s.context fd).fd = fd)
    (hnone : ∀ ev, s.registered fd ev = false) :
    s.context fd = .new fd ↔ ∀ ev, (s.context fd).getContext ev = .empty := by
  simp only [registered_eq_context] at hnone
  generalize s.context fd = c at hnumber hnone ⊢
  constructor
  · rintro rfl ev
    cases ev <;> rfl
  · intro hslots
    have hr := hnone .read
    have hw := hnone .write
    have hread := hslots .read
    have hwrite := hslots .write
    rcases c with ⟨_, _, _, ⟨_, _⟩⟩
    cases hnumber
    cases hr
    cases hw
    cases hread
    cases hwrite
    rfl

/-- Where both bits are gone and each registered slot was swapped out once, the
context was in order exactly if nothing is left in it. -/
theorem allCancelled_iff {s s' : IOManager} {fd : Nat} (hnumber : (s'.context fd).fd = fd)
    (hnone : ∀ ev, s'.registered fd ev = false)
    (hslot : ∀ ev, (s.context fd).SlotOk ev ↔ (s.registered fd ev = true →
      (s.waiter? fd ev).isSome = true) ∧ (s'.context fd).getContext ev = .empty)
    (hscheduled : s'.scheduled =
      s.scheduled ++ [.read, .write].flatMap fun ev => (s.waiter? fd ev).toList)
    (hpending : s'.pendingEventCount + (s.registeredEvents fd).length = s.pendingEventCount)
    (hothers : ∀ fd', fd' ≠ fd → s'.context fd' = s.context fd') :
    AllCancelled s fd s' ↔ Clean s fd := by
  constructor
  · intro h ev
    obtain ⟨tasks, -, hmap⟩ := h.enqueued
    refine (hslot ev).mpr ⟨fun hr => ?_, (context_eq_new_iff hnumber hnone).mp h.empty ev⟩
    have hmem : ev ∈ s.registeredEvents fd :=
      List.mem_filter.mpr ⟨by cases ev <;> decide, hr⟩
    have hwaiter : s.waiter? fd ev ∈ tasks.map some := by
      rw [hmap]
      exact List.mem_map_of_mem hmem
    obtain ⟨e, -, he⟩ := List.mem_map.mp hwaiter
    rw [← he]
    rfl
  · intro h
    refine ⟨(context_eq_new_iff hnumber hnone).mpr fun ev => ((hslot ev).mp (h ev)).2,
      ⟨_, hscheduled, map_waiter? fun ev => ((hslot ev).mp (h ev)).1⟩, hpending, hothers⟩

theorem cancelAll_read_unregistered {s : IOManager} {fd : Nat} (hr : s.registered fd .read = false) :
    cancelAll true true fd s = .ok false s :=
  bind_ok (cancelEvent_unregistered hr)

theorem cancelsAll_of_run {s s' : IOManager} {fd : Nat} {rt : Bool}
    (hrun : cancelAll true true fd s = .ok rt s') : CancelsAll s fd ↔ AllCancelled s fd s' := by
  constructor
  · rintro ⟨_, _, hrun', h⟩
    rw [hrun] at hrun'
    cases hrun'
    exact h
  · exact fun h => ⟨rt, s', hrun, h⟩

theorem not_cancelsAll_of_fault {s : IOManager} {fd : Nat} {why : Fault}
    (hrun : cancelAll true true fd s = .fault why) : ¬ CancelsAll s fd := by
  rintro ⟨_, _, hrun', -⟩
  rw [hrun] at hrun'
  cases hrun'

/-- Doing nothing cancels everything where there is nothing to cancel. -/
theorem allCancelled_self_iff {s : IOManager} {fd : Nat} (hnumber : (s.context fd).fd = fd) :
    AllCancelled s fd s ↔ Clean s fd ∧ ∀ ev, s.registered fd ev = false := by
  constructor
  · intro h
    have hnone : ∀ ev, s.registered fd ev = false := by
      intro ev
      rw [registered_eq_context, h.empty]
      cases ev <;> rfl
    refine ⟨fun ev => (slotOk_of_unregistered (hnone ev)).mpr ?_, hnone⟩
    exact (context_eq_new_iff hnumber hnone).mp h.empty ev
  · rintro ⟨hclean, hnone⟩
    refine (allCancelled_iff hnumber hnone (fun ev => ?_) ?_ ?_ (fun _ _ => rfl)).mpr hclean
    · rw [slotOk_of_unregistered (hnone ev), and_iff_right]
      intro hr
      exact absurd ((hnone ev).symm.trans hr) Bool.false_ne_true
    · simp [waiter?_of_unregistered (hnone _)]
    · simp [registeredEvents, hnone]

/-! ## What one `cancelEvent` leaves of the other event -/

namespace OneCancelled
variable {s s' : IOManager} {fd : Nat} {ev ev' : Event}

theorem registered_self (h : OneCancelled s fd ev s') : s'.registered fd ev = false := by
  rw [registered_eq_context, h.events, Events.has_erase_self]

theorem registered_other (h : OneCancelled s fd ev s') (hne : ev' ≠ ev) :
    s'.registered fd ev' = s.registered fd ev' := by
  rw [registered_eq_context, h.events, Events.has_erase_of_ne hne, ← registered_eq_context]

theorem waiter_other (h : OneCancelled s fd ev s') (hne : ev' ≠ ev)
    (hr : s.registered fd ev' = true) : s'.waiter? fd ev' = s.waiter? fd ev' := by
  rw [waiter?_eq ((h.registered_other hne).trans hr), waiter?_eq hr, h.slot ev' hne]

theorem slotOk_iff (h : OneCancelled s fd ev s') (hr : s.registered fd ev = true) :
    (s.context fd).SlotOk ev ↔ (s.registered fd ev = true → (s.waiter? fd ev).isSome = true) ∧
      (s'.context fd).getContext ev = .empty := by
  rw [slotOk_of_registered hr, h.full, hr]
  simp

end OneCancelled

section
variable {s t u : IOManager} {fd : Nat} (hnumber : (s.context fd).fd = fd)
  (hread : s.registered fd .read = true) (hone : OneCancelled s fd .read t)
include hnumber hread hone

/-- Only READ was registered. -/
theorem allCancelled_read (hwrite : s.registered fd .write = false) :
    AllCancelled s fd t ↔ Clean s fd := by
  have hkept := (hone.registered_other (by decide)).trans hwrite
  refine allCancelled_iff (hone.number.trans hnumber) ?_ ?_ ?_ ?_ hone.others
  · intro ev
    cases ev with
    | read => exact hone.registered_self
    | write => exact hkept
  · intro ev
    cases ev with
    | read => exact hone.slotOk_iff hread
    | write =>
      rw [slotOk_of_unregistered hwrite, hone.slot .write (by decide), hwrite]
      simp
  · rw [hone.scheduled]
    simp [waiter?_of_unregistered hwrite]
  · have := hone.pending
    simp [registeredEvents, hread, hwrite, this]

/-- Both were registered, and WRITE is cancelled next. -/
theorem allCancelled_both (hwrite : s.registered fd .write = true)
    (hone' : OneCancelled t fd .write u) : AllCancelled s fd u ↔ Clean s fd := by
  have hwaiter := hone.waiter_other (by decide) hwrite
  refine allCancelled_iff ((hone'.number.trans hone.number).trans hnumber) ?_ ?_ ?_ ?_ ?_
  · intro ev
    cases ev with
    | read => exact (hone'.registered_other (by decide)).trans hone.registered_self
    | write => exact hone'.registered_self
  · intro ev
    cases ev with
    | read =>
      rw [hone.slotOk_iff hread, hone'.slot .read (by decide)]
    | write =>
      have hfull := hone'.full
      rw [hone.slot .write (by decide), hwaiter] at hfull
      rw [slotOk_of_registered hwrite, hfull, hwrite]
      simp
  · rw [hone'.scheduled, hone.scheduled, hwaiter]
    simp
  · have h₁ := hone.pending
    have h₂ := hone'.pending
    simp only [registeredEvents, hread, hwrite, List.filter_cons_of_pos, List.filter_nil,
      List.length_cons, List.length_nil]
    omega
  · intro fd' hne
    rw [hone'.others fd' hne, hone.others fd' hne]

end

/-- With READ registered both events are cancelled, as far as their slots are proper. -/
theorem cancelsAll_of_read {s : IOManager} (hle : s.bits ≤ s.pendingEventCount) {fd : Nat}
    (hnumber : (s.context fd).fd = fd) (hread : s.registered fd .read = true) :
    CancelsAll s fd ↔ Clean s fd := by
  rcases cancelEvent_one hle hread with ⟨hfull, why, hfault⟩ | ⟨t, hrun, hone⟩
  · refine iff_of_false (not_cancelsAll_of_fault (bind_fault hfault)) fun hclean => ?_
    exact hfull ((slotOk_of_registered hread).mp (hclean .read))
  · have hkept : t.registered fd .write = s.registered fd .write :=
      hone.registered_other (by decide)
    have hrest : cancelAll true true fd s =
        (do if !(← cancelEvent true fd .write) then return false
            return true) t := bind_ok hrun
    cases hwrite : s.registered fd .write with
    | false =>
      rw [hwrite] at hkept
      rw [cancelsAll_of_run (hrest.trans (bind_ok (cancelEvent_unregistered hkept)))]
      exact allCancelled_read hnumber hread hone hwrite
    | true =>
      rw [hwrite] at hkept
      rcases cancelEvent_one hone.bits_le hkept with ⟨hfull, why, hfault⟩ | ⟨u, hrun', hone'⟩
      · refine iff_of_false (not_cancelsAll_of_fault (hrest.trans (bind_fault hfault))) ?_
        intro hclean
        rw [hone.slot .write (by decide)] at hfull
        exact hfull ((slotOk_of_registered hwrite).mp (hclean .write))
      · rw [cancelsAll_of_run (hrest.trans (bind_ok hrun'))]
        exact allCancelled_both hnumber hread hone hwrite hone'

/-- `cancelAll` gets past its first early return exactly where READ is registered, and
needs not get past it where nothing is. -/
theorem cancelsAll_iff {s : IOManager} (hle : s.bits ≤ s.pendingEventCount) {fd : Nat}
    (hnumber : (s.context fd).fd = fd) :
    CancelsAll s fd ↔ Clean s fd ∧
      (s.registered fd .read = true ∨ s.registered fd .write = false) := by
  cases hread : s.registered fd .read with
  | false =>
    rw [cancelsAll_of_run (cancelAll_read_unregistered hread), allCancelled_self_iff hnumber]
    refine and_congr_right fun _ => ⟨fun hnone => Or.inr (hnone .write), fun hwrite ev => ?_⟩
    cases ev with
    | read => exact hread
    | write => exact hwrite.resolve_left Bool.false_ne_true
  | true =>
    rw [and_iff_left (Or.inl rfl)]
    exact cancelsAll_of_read hle hnumber hread

end IOManager
end TwServer
