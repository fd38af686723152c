import TwServer.IOManager.Handling

/-! `a_pendingEventCount` against the bits of all contexts when `epoll_ctl` may
fail at any call. `addEvent` and `cancelEvent` ask the kernel before they change
anything. `delEvent` clears the bit first and returns without counting down. -/

namespace TwServer
open Programs Program Counting Runs

namespace IOManager

/-- The context of `fd`, an empty one where the table does not reach. -/
def context (s : IOManager) (fd : Nat) : FdContext := s.fdContexts[fd]?.getD (.new fd)

/-- The same mask and slots for every descriptor, the same counter and queue. -/
structure SameRegistrations (s s' : IOManager) : Prop where
  contexts : ∀ fd, s'.context fd = s.context fd
  pending : s'.pendingEventCount = s.pendingEventCount
  scheduled : s'.scheduled = s.scheduled

theorem SameRegistrations.refl (s : IOManager) : SameRegistrations s s := ⟨fun _ => rfl, rfl, rfl⟩

/-- The call reports `failure` and has changed nothing. -/
def FailsCleanly {α : Type} (m : Program IOManager α) (failure : α) (s : IOManager) : Prop :=
  ∃ s', m s = .ok failure s' ∧ SameRegistrations s s'

/-! ## One call -/

theorem context_resize {s : IOManager} (size fd : Nat) :
    (s.fdContextResize size).context fd = s.context fd := by
  unfold fdContextResize
  split
  · rfl
  · unfold context
    rw [List.getElem?_append]
    split
    · rfl
    · rename_i hout
      rw [List.getElem?_eq_none (Nat.le_of_not_lt hout), Option.getD_none]
      cases hnew : ((List.range' s.fdContexts.length (size - s.fdContexts.length)).map
          FdContext.new)[fd - s.fdContexts.length]? with
      | none => rfl
      | some c =>
        obtain ⟨hi, rfl⟩ := List.getElem?_eq_some_iff.mp hnew
        rw [Option.getD_some, List.getElem_map, List.getElem_range']
        congr 1
        omega

theorem resize_same (s : IOManager) (size : Nat) :
    SameRegistrations s (s.fdContextResize size) := by
  refine ⟨context_resize size, resize_pending s size, ?_⟩
  unfold fdContextResize
  split <;> rfl

theorem grown_same (s : IOManager) (fd : Nat) : SameRegistrations s (s.grown fd) := by
  unfold grown
  split
  · exact SameRegistrations.refl s
  · exact resize_same s _

theorem registered_eq_context (s : IOManager) (fd : Nat) (ev : Event) :
    s.registered fd ev = (s.context fd).events.has ev := by
  unfold registered context
  cases s.fdContexts[fd]? with
  | none => cases ev <;> rfl
  | some c => rfl

/-- From 32 contexts on `fd * 1.5` is past `fd`. -/
theorem grown_reaches {s : IOManager} (hlen : 32 ≤ s.fdContexts.length) (fd : Nat) :
    fd < (s.grown fd).fdContexts.length := by
  unfold grown
  split
  · assumption
  · rw [length_resize]
    omega

theorem addEvent_failsCleanly {s : IOManager} (hlen : 32 ≤ s.fdContexts.length) {fd : Nat}
    {ev : Event} (hr : s.registered fd ev = false) (here : Caller) (cb : Option Callback) :
    FailsCleanly (addEvent here false fd ev cb) (-1) s := by
  refine ⟨s.grown fd, ?_, grown_same s fd⟩
  obtain ⟨c, hc⟩ : ∃ c, (s.grown fd).fdContexts[fd]? = some c :=
    ⟨_, List.getElem?_eq_getElem (grown_reaches hlen fd)⟩
  have hb : c.events.has ev = false := by
    rw [registered_eq_context, ← (grown_same s fd).contexts, context, hc] at hr
    exact hr
  unfold addEvent
  unfold grown at hc ⊢
  simp only [hc, hb, Bool.false_eq_true, Bool.not_false, ↓reduceIte]

theorem cancelEvent_failsCleanly (s : IOManager) (fd : Nat) (ev : Event) :
    FailsCleanly (cancelEvent false fd ev) false s := by
  refine ⟨s, ?_, SameRegistrations.refl s⟩
  cases hr : s.registered fd ev with
  | false => exact cancelEvent_unregistered hr
  | true =>
    obtain ⟨c, hc, hb⟩ := registered_eq_true.mp hr
    simp only [cancelEvent, hc, hb, Bool.not_true, Bool.false_eq_true, Bool.not_false, ↓reduceIte]

/-- The bit is gone, the count and the slot stay. -/
theorem delEvent_failsCleanly_iff {s : IOManager} {fd : Nat} {ev : Event} :
    FailsCleanly (delEvent false fd ev) false s ↔ s.registered fd ev = false := by
  constructor
  · rintro ⟨s', hrun, hsame⟩
    cases hr : s.registered fd ev with
    | false => rfl
    | true =>
      have hstate : (delEvent false fd ev s).state? = some s' := by
        rw [hrun]
        rfl
      have hgone := (delEvent_removed hr hstate).unregistered
      rw [registered_eq_context, hsame.contexts, ← registered_eq_context, hr] at hgone
      exact hgone
  · exact fun hr => ⟨s, delEvent_unregistered hr, SameRegistrations.refl s⟩

/-! ## The counter and the bits -/

theorem bits_set {s s' : IOManager} {fd : Nat} {c c' : FdContext}
    (hc : s.fdContexts[fd]? = some c) (hset : s'.fdContexts = s.fdContexts.set fd c') :
    s'.bits + c.events.count = s.bits + c'.events.count := by
  unfold bits
  rw [hset]
  exact sum_set (fun c => c.events.count) hc

theorem Removed.bits {s s' : IOManager} {fd : Nat} {ev : Event} (h : Removed s fd ev s') :
    s'.bits + 1 = s.bits := by
  obtain ⟨c, c', hc, hb, hset, -, hev, -⟩ := h.fdContexts
  have hcount := Events.count_erase hb
  have hsum := bits_set hc hset
  rw [hev] at hsum
  omega

/-- `resetContext` touches the slot and one fiber. -/
theorem resetContext_cases (ctx : EventContext) (s : IOManager) :
    (∃ why, resetContext ctx s = .fault why) ∨
      ∃ ctx' fibers, resetContext ctx s = .ok ctx' { s with fibers := fibers } := by
  unfold resetContext
  cases ctx.fiber with
  | none => exact Or.inl ⟨_, rfl⟩
  | some f =>
    dsimp only
    cases (s.fibers f).reset none with
    | error text => exact Or.inl ⟨_, rfl⟩
    | ok fiber => exact Or.inr ⟨_, _, rfl⟩

theorem delEvent_pending {s s' : IOManager} {ctl : Bool} {fd : Nat} {ev : Event}
    (hr : s.registered fd ev = true) (h : (delEvent ctl fd ev s).state? = some s') :
    s'.pendingEventCount =
      if ctl then decrement s.pendingEventCount else s.pendingEventCount := by
  obtain ⟨c, hc, hb⟩ := registered_eq_true.mp hr
  simp only [delEvent, hc, hb, Bool.not_true, Bool.false_eq_true, ↓reduceIte] at h
  cases ctl with
  | false =>
    obtain rfl : _ = s' := Option.some.inj h
    rfl
  | true =>
    simp only [Bool.not_true, Bool.false_eq_true, ↓reduceIte] at h
    rcases resetContext_cases (FdContext.getContext _ ev) _ with ⟨why, hreset⟩ | ⟨ctx, fibers, hreset⟩
    · rw [hreset] at h
      cases h
    · rw [hreset] at h
      obtain rfl : _ = s' := Option.some.inj h
      rfl

theorem cancelEvent_pending {s s' : IOManager} {fd : Nat} {ev : Event}
    (hr : s.registered fd ev = true) (h : (cancelEvent true fd ev s).state? = some s') :
    s'.pendingEventCount = decrement s.pendingEventCount := by
  obtain ⟨c, hc, hb⟩ := registered_eq_true.mp hr
  cases hs : (c.getContext ev).scheduler with
  | none =>
    rw [cancelEvent_null hc hb hs] at h
    cases h
  | some sc =>
    rw [cancelEvent_hands hc hb hs] at h
    obtain rfl : _ = s' := Option.some.inj h
    rfl

/-! ## One step -/

/-- A `delEvent` whose `epoll_ctl` fails for a registered event: its bit vanishes. -/
def Removal.loses (epollCtl : Bool) (fd : Nat) (ev : Event) (s : IOManager) : Removal → Bool
  | .drop => !epollCtl && s.registered fd ev
  | .cancel => false

def Call.loses (s : IOManager) : Call → Bool
  | .delEvent ctl fd ev => Removal.drop.loses ctl fd ev s
  | .addEvent .. | .cancelEvent .. | .schedule .. | .others .. => false

theorem Removal.run_pending (removal : Removal) {ctl : Bool} {fd : Nat} {ev : Event}
    {s s' : IOManager} (hle : s.bits ≤ s.pendingEventCount)
    (h : (removal.run ctl fd ev s).state? = some s') :
    s'.pendingEventCount + s.bits =
      s.pendingEventCount + s'.bits + (removal.loses ctl fd ev s).toNat := by
  rcases Removal.run_cases h with ⟨rfl, hnot⟩ | ⟨⟨hreg, hctl⟩, hrem⟩
  · cases removal with
    | drop =>
      have hr : s'.registered fd ev = false :=
        Bool.eq_false_iff.mpr fun hr => hnot ⟨hr, fun hd => nomatch hd⟩
      rw [Removal.loses, hr, Bool.and_false, Bool.toNat_false, Nat.add_zero]
    | cancel => rfl
  · have hbits := hrem.bits
    have hcount : 0 < s.pendingEventCount := by omega
    have hdown := decrement_of_pos hcount
    cases removal with
    | drop =>
      have hpending := delEvent_pending hreg h
      rw [Removal.loses, hreg, Bool.and_true]
      cases ctl with
      | false =>
        simp only [Bool.false_eq_true, ↓reduceIte] at hpending
        simp only [Bool.not_false, Bool.toNat_true]
        omega
      | true =>
        simp only [↓reduceIte] at hpending
        simp only [Bool.not_true, Bool.toNat_false]
        omega
    | cancel =>
      obtain rfl := hctl rfl
      have hpending := cancelEvent_pending hreg h
      simp only [Removal.loses, Bool.toNat_false]
      omega

theorem grown_bits (s : IOManager) (fd : Nat) : (s.grown fd).bits = s.bits := by
  unfold grown
  split
  · rfl
  · exact bits_resize s _

/-- `addEvent` counts the bit that it sets. -/
theorem addEvent_pending {s s' : IOManager} {here : Caller} {ctl : Bool} {fd : Nat} {ev : Event}
    {cb : Option Callback} (h : (addEvent here ctl fd ev cb s).state? = some s') :
    s'.pendingEventCount + s.bits = s.pendingEventCount + s'.bits := by
  have hpending := (grown_same s fd).pending
  have hbits := grown_bits s fd
  obtain ⟨c, hc, hb, ⟨-, rfl⟩ | ⟨-, rfl⟩⟩ := addEvent_cases h
  · omega
  · have hcount := Events.count_insert hb
    have hset : ∀ ctx, ((s.grown fd).withWaiter fd c ev ctx).bits + c.events.count =
        (s.grown fd).bits + (c.events.insert ev).count := by
      intro ctx
      have hbits := bits_set hc (rfl : ((s.grown fd).withWaiter fd c ev ctx).fdContexts = _)
      rw [FdContext.setContext_events] at hbits
      exact hbits
    have hafter := hset (filledSlot here cb (c.getContext ev))
    show (s.grown fd).pendingEventCount + 1 + s.bits = _
    omega

theorem Call.run_pending {s s' : IOManager} (hle : s.bits ≤ s.pendingEventCount) {c : Call}
    (h : (c.run s).state? = some s') :
    s'.pendingEventCount + s.bits = s.pendingEventCount + s'.bits + (c.loses s).toNat := by
  cases c with
  | addEvent here ctl fd ev cb => exact addEvent_pending ((state?_bind_unit _ s).symm.trans h)
  | delEvent ctl fd ev =>
    exact Removal.run_pending .drop hle ((state?_bind_unit _ s).symm.trans h)
  | cancelEvent ctl fd ev =>
    exact Removal.run_pending .cancel hle ((state?_bind_unit _ s).symm.trans h)
  | schedule sc task =>
    obtain rfl : _ = s' := Option.some.inj h
    rfl
  | others fibers =>
    obtain rfl : _ = s' := Option.some.inj h
    rfl

/-! ## The table never shrinks -/

theorem Removed.length {s s' : IOManager} {fd : Nat} {ev : Event} (h : Removed s fd ev s') :
    s'.fdContexts.length = s.fdContexts.length := by
  obtain ⟨c, c', -, -, hset, -⟩ := h.fdContexts
  rw [hset, List.length_set]

theorem Removal.run_length (removal : Removal) {ctl : Bool} {fd : Nat} {ev : Event}
    {s s' : IOManager} (h : (removal.run ctl fd ev s).state? = some s') :
    s'.fdContexts.length = s.fdContexts.length := by
  rcases Removal.run_cases h with ⟨rfl, -⟩ | ⟨-, hrem⟩
  · rfl
  · exact hrem.length

theorem grown_length (s : IOManager) (fd : Nat) :
    s.fdContexts.length ≤ (s.grown fd).fdContexts.length := by
  unfold grown
  split
  · exact Nat.le_refl _
  · rw [length_resize]
    exact Nat.le_max_left _ _

theorem Call.run_length {s s' : IOManager} {c : Call} (h : (c.run s).state? = some s') :
    s.fdContexts.length ≤ s'.fdContexts.length := by
  cases c with
  | addEvent here ctl fd ev cb =>
    obtain ⟨c, -, -, ⟨-, rfl⟩ | ⟨-, rfl⟩⟩ :=
      addEvent_cases ((state?_bind_unit _ s).symm.trans h)
    · exact grown_length s fd
    · refine Nat.le_trans (grown_length s fd) (Nat.le_of_eq ?_)
      exact List.length_set.symm
  | delEvent ctl fd ev =>
    exact Nat.le_of_eq (Removal.run_length .drop
      ((state?_bind_unit _ s).symm.trans h)).symm
  | cancelEvent ctl fd ev =>
    exact Nat.le_of_eq (Removal.run_length .cancel
      ((state?_bind_unit _ s).symm.trans h)).symm
  | schedule sc task =>
    obtain rfl : _ = s' := Option.some.inj h
    exact Nat.le_refl _
  | others fibers =>
    obtain rfl : _ = s' := Option.some.inj h
    exact Nat.le_refl _

/-! ## Runs -/

namespace Idle
variable {W : Type} [DecidableEq W]

/-- The step is a `delEvent`, called or on the way through a report, that loses a bit. -/
def loses (s : Idle W) : Label W → Bool
  | .call c => c.loses s.io
  | .idle w ctl =>
    match s.pc w with
    | .remove r round _ _ => round.removal.loses ctl r.ctx round.ev s.io
    | .waiting | .next _ | .test .. => false

/-- The counter covers the bits, and the table its first 32 descriptors. -/
structure Counted (s : Idle W) : Prop where
  numbered : Numbered s.io
  bits_le : s.io.bits ≤ s.io.pendingEventCount
  length : 32 ≤ s.io.fdContexts.length

theorem step_pending {s s' : Idle W} {l : Label W} (h : Counted s) (hstep : Step s l s') :
    s'.io.pendingEventCount + s.io.bits =
      s.io.pendingEventCount + s'.io.bits + (s.loses l).toNat := by
  cases hstep with
  | call c run => exact Call.run_pending h.bits_le run
  | epollWait _ batch pc | report _ pc | done _ pc | test _ pc | handled _ pc =>
    simp only [loses, pc, setPc_io, Bool.toNat_false, Nat.add_zero]
  | @remove w ctl r round rounds batch c io pc ctx run =>
    rw [h.numbered _ _ ctx] at run
    simp only [loses, pc]
    exact round.removal.run_pending h.bits_le run

theorem step_length {s s' : Idle W} {l : Label W} (hstep : Step s l s') :
    s.io.fdContexts.length ≤ s'.io.fdContexts.length := by
  cases hstep with
  | call c run => exact Call.run_length run
  | remove _ pc ctx run => exact Nat.le_of_eq (Removal.run_length _ run).symm
  | _ => exact Nat.le_refl _

theorem step_counted {s s' : Idle W} {l : Label W} (h : Inv s ∧ Counted s) (hstep : Step s l s') :
    Inv s' ∧ Counted s' := by
  have hinv := step_inv h.1 hstep
  have hpending := step_pending h.2 hstep
  have hle := h.2.bits_le
  exact ⟨hinv, hinv.numbered, by omega, Nat.le_trans h.2.length (step_length hstep)⟩

theorem inductive_counted : (machine (W := W)).Inductive fun s => Inv s ∧ Counted s where
  init := by
    intro s hs
    have hinv := inductive_inv.init s hs
    obtain ⟨⟨fibers, hio⟩, -⟩ := hs
    refine ⟨hinv, hinv.numbered, ?_, ?_⟩
    · rw [hio, ← (new_consistent fibers).pending]
    · rw [hio, new, length_resize]
      exact Nat.le_refl 32
  step _ _ _ h hstep := step_counted h hstep

theorem counted (s : Idle W) (h : Reachable machine s) : Counted s :=
  (inductive_counted.reachable h).2

/-- As long as no step loses a bit the counter is their number. -/
theorem restrict_pending {s : Idle W}
    (h : Reachable (machine.restrict fun s l => s.loses l = false) s) :
    s.io.pendingEventCount = s.io.bits := by
  refine Reachable.invariant (I := Counted)
    (J := fun s => s.io.pendingEventCount = s.io.bits) (fun s hs => counted s hs.of_restrict) ?_ ?_ h
  · rintro s ⟨⟨fibers, hio⟩, -⟩
    rw [hio]
    exact (new_consistent fibers).pending
  · intro s l s' hs heq hstep
    have hpending := step_pending hs hstep.1
    rw [hstep.2, Bool.toNat_false] at hpending
    omega

/-- With nothing registered, `stopping()` holds as soon as no timer is left and the
scheduler has stopped. -/
def Unblocked (s : IOManager) : Prop :=
  (∀ fd ev, s.registered fd ev = false) →
    ∀ timeout schedulerStopping,
      s.stopping timeout schedulerStopping = (timeout == noTimeout && schedulerStopping)

theorem bits_eq_zero {s : IOManager} (h : ∀ fd ev, s.registered fd ev = false) : s.bits = 0 := by
  refine List.sum_eq_zero ?_
  intro n hn
  obtain ⟨c, hc, rfl⟩ := List.mem_map.mp hn
  obtain ⟨fd, hfd⟩ := List.mem_iff_getElem?.mp hc
  have hnone : ∀ ev, c.events.has ev = false := by
    intro ev
    have := h fd ev
    rw [registered, hfd] at this
    exact this
  have hread : c.events.read = false := hnone .read
  have hwrite : c.events.write = false := hnone .write
  rw [Events.count, hread, hwrite]
  rfl

theorem unblocked_of_pending {s : IOManager} (h : s.pendingEventCount = s.bits) : Unblocked s := by
  intro hnone timeout schedulerStopping
  rw [stopping, h, bits_eq_zero hnone]
  simp

/-- In every reachable state a failing `epoll_ctl` leaves `addEvent` and `cancelEvent`
without an effect, and `delEvent` exactly where the event was not registered. In every
run without a failed `delEvent` of a registered event the counter is the number of
registered events, and the next step keeps it so exactly if it is not one either. -/
theorem failed_epollCtl_iff {s : Idle W} (h : Reachable machine s) :
    (∀ fd ev,
      (s.io.registered fd ev = false → ∀ here cb,
        FailsCleanly (addEvent here false fd ev cb) (-1) s.io) ∧
      FailsCleanly (cancelEvent false fd ev) false s.io ∧
      (FailsCleanly (delEvent false fd ev) false s.io ↔ s.io.registered fd ev = false)) ∧
    (Reachable (machine.restrict fun s l => s.loses l = false) s →
      s.io.pendingEventCount = s.io.bits ∧ Unblocked s.io ∧
        ∀ l s', machine.step s l s' →
          (s'.io.pendingEventCount = s'.io.bits ↔ s.loses l = false)) := by
  have hcounted := counted s h
  refine ⟨fun fd ev => ⟨fun hr here cb => addEvent_failsCleanly hcounted.length hr here cb,
    cancelEvent_failsCleanly s.io fd ev, delEvent_failsCleanly_iff⟩, fun hrun => ?_⟩
  have heq := restrict_pending hrun
  refine ⟨heq, unblocked_of_pending heq, fun l s' hstep => ?_⟩
  have hpending := step_pending hcounted hstep
  cases hl : s.loses l with
  | false =>
    rw [hl, Bool.toNat_false] at hpending
    exact iff_of_true (by omega) rfl
  | true =>
    rw [hl, Bool.toNat_true] at hpending
    exact iff_of_false (by omega) Bool.noConfusion

/-! ## Fiber 7 waits to read descriptor 5 -/

/-- The fresh manager, all of whose fibers run. -/
def fresh : Idle Unit := ⟨new fun _ => ⟨true, .exec, none⟩, fun _ => .waiting⟩

theorem fresh_init : (machine (W := Unit)).init fresh := ⟨⟨_, rfl⟩, fun _ => rfl⟩

/-- `addEvent` to read descriptor 5 in fiber 7. -/
def addRead : Call := .addEvent ⟨some 0, 7⟩ true 5 .read none

def reading : Idle Unit := { fresh with io := (addRead.run fresh.io).state?.getD fresh.io }

theorem step_reading : Step fresh (.call addRead) reading := Step.call addRead rfl

theorem reachable_reading : Reachable machine reading :=
  (Reachable.init fresh_init).step step_reading

/-- A failing `epoll_ctl` refuses one more event and keeps the one it has, `delEvent`
loses it; up to here the counter is the one registered event. -/
theorem failed_epollCtl_iff_reading :
    FailsCleanly (addEvent ⟨some 0, 8⟩ false 5 .write none) (-1) reading.io ∧
      FailsCleanly (cancelEvent false 5 .read) false reading.io ∧
      ¬ FailsCleanly (delEvent false 5 .read) false reading.io ∧
      reading.io.bits = 1 ∧ reading.io.pendingEventCount = reading.io.bits := by
  have hstep : (machine.restrict fun s l => s.loses l = false).step fresh (.call addRead) reading :=
    ⟨step_reading, rfl⟩
  have hrun := (Reachable.init (S := machine.restrict fun s l => s.loses l = false)
    fresh_init).step hstep
  obtain ⟨hcalls, hpending⟩ := failed_epollCtl_iff reachable_reading
  refine ⟨(hcalls 5 .write).1 (by decide) _ _, (hcalls 5 .read).2.1, fun hdel => ?_, by decide,
    (hpending hrun).1⟩
  exact absurd ((hcalls 5 .read).2.2.mp hdel) (by decide)

/-- A failing `delEvent` of the event it waits for leaves nothing registered and the
counter at one. -/
theorem delEvent_drifts : ¬ ∀ s : Idle Unit, Reachable machine s →
    (∀ fd ev, FailsCleanly (delEvent false fd ev) false s.io) ∧
      s.io.pendingEventCount = s.io.bits ∧ Unblocked s.io := by
  intro hall
  have hdel := reachable_reading.step (Step.call (.delEvent false 5 .read) rfl)
  have heq := (hall _ hdel).2.1
  exact absurd heq (by decide)

end Idle
end IOManager
end TwServer
