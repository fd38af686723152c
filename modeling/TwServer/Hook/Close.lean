import TwServer.Hook.FdManager
import TwServer.IOManager.CancelAll

/-! The hooked `close`. It hands the descriptor to `cancelAll` if the hook is on,
the descriptor has an `FdCtx` and the calling thread belongs to the manager; in
each other case it closes what may still be registered. -/

namespace TwServer
open Programs Program Runs IOManager

namespace Close

/-- `close(fd)`, with `epoll_ctl` succeeding. `onManager` says whether `IOManager::GetThis()`
is the manager `io`, and `rt` is what `close_f` returns. -/
def close (hookEnable onManager : Bool) (rt : Int) (fd : Nat) (io : IOManager) (fds : FdManager) :
    Outcome (IOManager × FdManager) Int :=
  if !hookEnable then .ok rt (io, fds)
  else
    match FdManager.look fd false fds with
    | .ok (some (some _)) fds =>
      match if onManager then cancelAll true true fd io else .ok false io with
      | .ok _ io =>
        match FdManager.del fd fds with
        | .ok () fds => .ok rt (io, fds)
        | .throw what fds => .throw what (io, fds)
        | .fault why => .fault why
      | .throw what io => .throw what (io, fds)
      | .fault why => .fault why
    | .ok _ fds => .ok rt (io, fds)
    | .throw what fds => .throw what (io, fds)
    | .fault why => .fault why

/-- `close(fd)` leaves no registration of the descriptor behind. -/
def ClosesClean (hookEnable onManager : Bool) (rt : Int) (fd : Nat) (io : IOManager)
    (fds : FdManager) : Prop :=
  ∃ io' fds', close hookEnable onManager rt fd io fds = .ok rt (io', fds') ∧
    AllCancelled io fd io'

/-- The call goes through `cancelAll`. -/
def Reaches (hookEnable onManager : Bool) (fd : Nat) (fds : FdManager) : Prop :=
  hookEnable = true ∧ onManager = true ∧ (fds.found fd).isSome = true

instance (hookEnable onManager : Bool) (fd : Nat) (fds : FdManager) :
    Decidable (Reaches hookEnable onManager fd fds) := by unfold Reaches; infer_instance

/-! ## The two ways through it -/

theorem look_eq (fds : FdManager) (fd : Nat) :
    FdManager.look fd false fds = .ok (some (fds.found fd)) fds := by
  have hneg : ¬ (fd : Int) = -1 := by omega
  have hnat : ¬ (fd : Int) < 0 := by omega
  unfold FdManager.look FdManager.found
  rw [if_neg hneg]
  by_cases hin : castInt fds.fds.length ≤ fd
  · rw [if_pos hin, if_pos hin]
    rfl
  · have hle := castInt_le fds.fds.length
    have hlt : fd < fds.fds.length := by omega
    rw [if_neg hin, if_neg hin, if_neg hnat, FdManager.slot, if_neg hnat, Int.toNat_natCast,
      List.getElem?_eq_getElem hlt]
    simp

theorem del_ok (fds : FdManager) (fd : Nat) : ∃ fds', FdManager.del fd fds = .ok () fds' := by
  unfold FdManager.del
  split
  · exact ⟨_, rfl⟩
  · rw [if_neg (by omega)]
    exact ⟨_, rfl⟩

section
variable {hookEnable onManager : Bool} {rt : Int} {fd : Nat} {io : IOManager} {fds : FdManager}

theorem close_reaches (h : Reaches hookEnable onManager fd fds) :
    ClosesClean hookEnable onManager rt fd io fds ↔ CancelsAll io fd := by
  obtain ⟨rfl, rfl, hctx⟩ := h
  obtain ⟨ctx, hctx⟩ := Option.isSome_iff_exists.mp hctx
  obtain ⟨fds', hdel⟩ := del_ok fds fd
  have hclose : close true true rt fd io fds =
      match cancelAll true true fd io with
      | .ok _ io => .ok rt (io, fds')
      | .throw what io => .throw what (io, fds)
      | .fault why => .fault why := by
    simp only [close, look_eq, hctx, hdel, Bool.not_true, Bool.false_eq_true, ↓reduceIte]
  unfold ClosesClean CancelsAll
  rw [hclose]
  cases hrun : cancelAll true true fd io with
  | ok b io' =>
    constructor
    · rintro ⟨_, _, heq, hall⟩
      cases heq
      exact ⟨b, io', rfl, hall⟩
    · rintro ⟨_, _, heq, hall⟩
      cases heq
      exact ⟨io', fds', rfl, hall⟩
  | throw what io' =>
    exact iff_of_false (fun ⟨_, _, heq, _⟩ => by cases heq) (fun ⟨_, _, heq, _⟩ => by cases heq)
  | fault why =>
    exact iff_of_false (fun ⟨_, _, heq, _⟩ => by cases heq) (fun ⟨_, _, heq, _⟩ => by cases heq)

theorem close_avoids (h : ¬ Reaches hookEnable onManager fd fds) :
    ClosesClean hookEnable onManager rt fd io fds ↔ AllCancelled io fd io := by
  have hclose : ∃ fds', close hookEnable onManager rt fd io fds = .ok rt (io, fds') := by
    cases hookEnable with
    | false => exact ⟨fds, by simp only [close, Bool.not_false, ↓reduceIte]⟩
    | true =>
      cases hctx : fds.found fd with
      | none =>
        refine ⟨fds, ?_⟩
        simp only [close, look_eq, hctx, Bool.not_true, Bool.false_eq_true, ↓reduceIte]
      | some ctx =>
        cases onManager with
        | false =>
          obtain ⟨fds', hdel⟩ := del_ok fds fd
          refine ⟨fds', ?_⟩
          simp only [close, look_eq, hctx, hdel, Bool.not_true, Bool.false_eq_true, ↓reduceIte]
        | true => exact absurd ⟨rfl, rfl, Option.isSome_iff_exists.mpr ⟨ctx, hctx⟩⟩ h
  obtain ⟨fds', hclose⟩ := hclose
  unfold ClosesClean
  rw [hclose]
  constructor
  · rintro ⟨_, _, heq, hall⟩
    cases heq
    exact hall
  · exact fun hall => ⟨io, fds', rfl, hall⟩

theorem closesClean_iff (hle : io.bits ≤ io.pendingEventCount)
    (hnumber : (io.context fd).fd = fd) :
    ClosesClean hookEnable onManager rt fd io fds ↔ Clean io fd ∧
      (io.registered fd .read = true ∨ io.registered fd .write = false) ∧
      (Reaches hookEnable onManager fd fds ∨ ∀ ev, io.registered fd ev = false) := by
  by_cases h : Reaches hookEnable onManager fd fds
  · rw [close_reaches h, cancelsAll_iff hle hnumber, and_iff_left (Or.inl h)]
  · rw [close_avoids h, allCancelled_self_iff hnumber, or_iff_right h]
    refine and_congr_right fun _ => ⟨fun hnone => ⟨Or.inr (hnone .write), hnone⟩, And.right⟩

end

/-! ## Every reachable state -/

theorem number_eq {io : IOManager} (h : Numbered io) (fd : Nat) : (io.context fd).fd = fd := by
  unfold IOManager.context
  cases hc : io.fdContexts[fd]? with
  | none => rfl
  | some c => exact h fd c hc

/-- In every reachable state `cancelAll` of a descriptor, and `close` by way of it, cancels
all of its registrations exactly if READ is among them or WRITE is not, and each slot holds
what its bit says. -/
theorem cancelAll_iff {W : Type} [DecidableEq W] {s : Idle W} (h : Reachable Idle.machine s)
    (fd : Nat) :
    (CancelsAll s.io fd ↔ Clean s.io fd ∧
      (s.io.registered fd .read = true ∨ s.io.registered fd .write = false)) ∧
    ∀ hookEnable onManager rt fds,
      (ClosesClean hookEnable onManager rt fd s.io fds ↔ Clean s.io fd ∧
        (s.io.registered fd .read = true ∨ s.io.registered fd .write = false) ∧
        (Reaches hookEnable onManager fd fds ∨ ∀ ev, s.io.registered fd ev = false)) := by
  have hcounted := Idle.counted s h
  have hnumber := number_eq hcounted.numbered fd
  exact ⟨cancelsAll_iff hcounted.bits_le hnumber,
    fun _ _ _ _ => closesClean_iff hcounted.bits_le hnumber⟩

/-! ## Fiber 7 waits for descriptor 5 -/

theorem cancelAll_iff_read : ∃ s : Idle Unit, Reachable Idle.machine s ∧
    s.io.registered 5 .read = true ∧ CancelsAll s.io 5 := by
  have hadd := (Reachable.init Idle.fresh_init).step
    (Idle.Step.call (.addEvent ⟨some 0, 7⟩ true 5 .read none) rfl)
  refine ⟨_, hadd, rfl, (cancelAll_iff hadd 5).1.mpr ⟨fun ev => ?_, Or.inl rfl⟩⟩
  cases ev with
  | read => exact ⟨iff_of_true rfl (by decide), fun hf => by cases hf⟩
  | write => exact FdContext.SlotOk.of_empty rfl rfl

/-- It waits to write: after `cancelAll` it still does. -/
theorem writer_stays : ¬ ∀ (s : Idle Unit) fd, Reachable Idle.machine s → CancelsAll s.io fd := by
  intro hall
  have hadd := (Reachable.init Idle.fresh_init).step
    (Idle.Step.call (.addEvent ⟨some 0, 7⟩ true 5 .write none) rfl)
  obtain ⟨rt, s', hrun, hcancelled⟩ := hall _ 5 hadd
  cases hrun
  exact absurd (congrArg (fun c => c.events.write) hcancelled.empty) (by decide)

end Close
end TwServer
