import TwServer.Hook.DoIo
import TwServer.IOManager.Scheduled
import TwServer.Timer.Order

/-! A timed-out wait is ended as long as the callback that sets `tinfo->cancelled`
comes to its `cancelEvent` after the fiber has registered. -/

namespace TwServer
open Programs Program Runs

namespace DoIo

theorem IoStep.scheduled {s s' : IOManager} (h : IoStep s s') : s.scheduled <+: s'.scheduled := by
  cases h with
  | addEvent here ctl fd ev cb run => rw [IOManager.addEvent_scheduled run]
  | delEvent ctl fd ev run => rw [IOManager.delEvent_scheduled run]
  | cancelEvent ctl fd ev run => exact IOManager.cancelEvent_scheduled run
  | report r run => exact IOManager.handleReport_scheduled run
  | schedule sc t => exact IOManager.schedule_scheduled sc (some t)
  | others fibers => exact List.prefix_refl _

/-! ## The timers of the call -/

/-- A timer of the call is in the set until its callback is handed out, no sooner
than at its deadline. -/
structure Timed (call : Call) (m : TimerManager) (callbacks : Callback → Option TimerCallback) :
    Prop where
  ordered : m.Ordered
  armed : ∀ t k c, (m.heap t).cb = some k → callbacks k = some c →
    c.pc = .armed ∧ (m.heap t).recurring = false ∧ (m.heap t).next = c.armedAt + call.io
  unique : ∀ t u k c, callbacks k = some c → (m.heap t).cb = some k → (m.heap u).cb = some k → t = u
  expired : ∀ k c, callbacks k = some c → c.pc ≠ .armed →
    ∃ b, c.expiredAt = some b ∧ c.armedAt + call.io ≤ b

section
variable {call : Call} {m m' : TimerManager} {callbacks : Callback → Option TimerCallback}

/-- A step that leaves the timers of the call alone or takes their callbacks away. -/
theorem Timed.others (h : Timed call m callbacks) (hord : m'.Ordered)
    (hheap : ∀ t k c, (m'.heap t).cb = some k → callbacks k = some c → m'.heap t = m.heap t) :
    Timed call m' callbacks where
  ordered := hord
  armed t k c hcb hc := by
    have heq := hheap t k c hcb hc
    rw [heq] at hcb ⊢
    exact h.armed t k c hcb hc
  unique t u k c hc ht hu := by
    rw [hheap t k c ht hc] at ht
    rw [hheap u k c hu hc] at hu
    exact h.unique t u k c hc ht hu
  expired := h.expired

theorem Timed.cancel (h : Timed call m callbacks) {t : TimerId} {rt : Bool}
    (hrun : TimerManager.cancel t m = .ok rt m') : Timed call m' callbacks := by
  obtain ⟨m₁, hrun₁, hord, hheap⟩ := h.ordered.cancel t
  rw [hrun₁] at hrun
  cases hrun
  refine h.others hord ?_
  intro u k c hcb _
  rw [hheap] at hcb ⊢
  rcases Decidable.em (u = t) with rfl | hu
  · rw [Function.update_self] at hcb
    cases hcb
  · exact Function.update_of_ne hu _ _

theorem Timed.cancelTimer (h : Timed call m callbacks) {timer : Option TimerId}
    (hrun : cancelTimer timer m = .ok () m') : Timed call m' callbacks := by
  cases timer with
  | none =>
    cases hrun
    exact h
  | some t =>
    obtain ⟨rt, m₁, hcancel, hret⟩ := of_bind_ok hrun
    cases hret
    exact h.cancel hcancel

theorem cancelTimer_ok (h : m.Ordered) (timer : Option TimerId) :
    ∃ m', DoIo.cancelTimer timer m = .ok () m' := by
  cases timer with
  | none => exact ⟨m, rfl⟩
  | some t =>
    obtain ⟨m', hrun, -, -⟩ := h.cancel t
    exact ⟨m', bind_ok hrun⟩

/-- Writing a timer that is not the call's. -/
theorem Timed.write (h : Timed call m callbacks) (hord : m'.Ordered) {t : TimerId} {x : Timer}
    (hheap : m'.heap = Function.update m.heap t x)
    (hx : ∀ k c, x.cb = some k → callbacks k ≠ some c) : Timed call m' callbacks := by
  refine h.others hord ?_
  intro u k c hcb hc
  rw [hheap] at hcb ⊢
  rcases Decidable.em (u = t) with rfl | hu
  · rw [Function.update_self] at hcb
    exact absurd hc (hx k c hcb)
  · exact Function.update_of_ne hu _ _

theorem Timed.step (h : Timed call m callbacks) {own : TimerId → Prop} {kept : Callback → Prop}
    (hown : ∀ t k c, (m.heap t).cb = some k → callbacks k = some c → own t)
    (hkept : ∀ k c, callbacks k = some c → kept k) (hstep : TimerStep own kept m m') :
    Timed call m' callbacks := by
  have hsame : ∀ t k c, ¬ own t → (m.heap t).cb = some k → callbacks k ≠ some c :=
    fun t k c hnot hcb hc => hnot (hown t k c hcb hc)
  cases hstep with
  | add t now ms cb recurring fresh other otherCb run =>
    refine h.write (h.ordered.addNewTimer fresh run) (TimerManager.addNewTimer_heap run) ?_
    intro k c hk hc
    cases hk
    exact otherCb (hkept cb c hc)
  | cancel t other run => exact h.cancel run
  | refresh t now other run =>
    obtain ⟨m₁, hrun₁, hord, hheap⟩ := h.ordered.refresh t now
    rw [hrun₁] at run
    cases run
    split at hheap
    · exact h.write hord hheap fun k c => hsame t k c other
    · refine h.others hord fun u k c _ _ => ?_
      rw [hheap]
  | reset t now ms fromNow other run =>
    obtain ⟨front, m₁, next, hrun₁, hord, hheap⟩ := h.ordered.reset t now ms fromNow
    rw [hrun₁] at run
    cases run
    split at hheap
    · exact h.write hord hheap fun k c => hsame t k c other
    · refine h.others hord fun u k c _ _ => ?_
      rw [hheap]
  | getNextTime now run =>
    obtain ⟨n, m₁, hrun, hord, hheap⟩ := h.ordered.getNextTime now
    rw [hrun] at run
    cases run
    exact h.others hord fun t _ _ _ _ => congrFun hheap t

/-- `addConditionTimer`, with a new callback. -/
theorem Timed.arm (h : Timed call m callbacks) {t : TimerId} {k : Callback} {now : Nat}
    {front : Bool} (hfresh : t ∉ m.timers) (hunused : ∀ u, (m.heap u).cb ≠ some k)
    (hnow : now + call.io < 2 ^ 64)
    (hrun : TimerManager.addNewTimer t now call.io k false m = .ok front m') :
    Timed call m' (Function.update callbacks k (some ⟨.armed, now, none⟩)) := by
  have hheap := TimerManager.addNewTimer_heap hrun
  have hself : m'.heap t = .new now call.io k false := by rw [hheap, Function.update_self]
  have hother : ∀ u, u ≠ t → m'.heap u = m.heap u := fun u hu => by
    rw [hheap, Function.update_of_ne hu]
  have honly : ∀ u, (m'.heap u).cb = some k → u = t := by
    intro u hu
    rcases Decidable.em (u = t) with hut | hut
    · exact hut
    · rw [hother u hut] at hu
      exact absurd hu (hunused u)
  have hold : ∀ u j, j ≠ k → (m'.heap u).cb = some j → m'.heap u = m.heap u := by
    intro u j hj hu
    refine hother u ?_
    rintro rfl
    rw [hself] at hu
    exact hj (Option.some.inj hu).symm
  refine ⟨h.ordered.addNewTimer hfresh hrun, ?_, ?_, ?_⟩
  · intro u j c hcb hc
    rcases Decidable.em (j = k) with rfl | hj
    · rw [Function.update_self] at hc
      cases hc
      rw [honly u hcb, hself]
      exact ⟨rfl, rfl, Nat.mod_eq_of_lt hnow⟩
    · rw [Function.update_of_ne hj] at hc
      have heq := hold u j hj hcb
      rw [heq] at hcb ⊢
      exact h.armed u j c hcb hc
  · intro u v j c hc hu hv
    rcases Decidable.em (j = k) with rfl | hj
    · rw [honly u hu, honly v hv]
    · rw [Function.update_of_ne hj] at hc
      exact h.unique u v j c hc (hold u j hj hu ▸ hu) (hold v j hj hv ▸ hv)
  · intro j c hc hpc
    rcases Decidable.em (j = k) with rfl | hj
    · rw [Function.update_self] at hc
      cases hc
      exact absurd rfl hpc
    · rw [Function.update_of_ne hj] at hc
      exact h.expired j c hc hpc

/-- A callback that was handed out takes a step. -/
theorem Timed.setCallback (h : Timed call m callbacks) {k : Callback} {c : TimerCallback}
    (hc : callbacks k = some c) (hpc : c.pc ≠ .armed) (pc : CallbackPc) :
    Timed call m (Function.update callbacks k (some { c with pc := pc })) := by
  have hnone : ∀ t, (m.heap t).cb ≠ some k := fun t ht => hpc (h.armed t k c ht hc).1
  refine ⟨h.ordered, ?_, ?_, ?_⟩
  · intro t j d hcb hd
    rcases Decidable.em (j = k) with rfl | hj
    · exact absurd hcb (hnone t)
    · rw [Function.update_of_ne hj] at hd
      exact h.armed t j d hcb hd
  · intro t u j d hd ht hu
    rcases Decidable.em (j = k) with rfl | hj
    · exact absurd ht (hnone t)
    · rw [Function.update_of_ne hj] at hd
      exact h.unique t u j d hd ht hu
  · intro j d hd hdpc
    rcases Decidable.em (j = k) with rfl | hj
    · rw [Function.update_self] at hd
      cases hd
      exact h.expired j c hc hpc
    · rw [Function.update_of_ne hj] at hd
      exact h.expired j d hd hdpc

end

section
variable {call : Call} {s : State}

theorem handOut_callbacks {now : Nat} {cbs : List (Option Callback)} {k : Callback}
    {c' : TimerCallback} (h : (s.handOut now cbs).callbacks k = some c') :
    ∃ c, s.callbacks k = some c ∧
      (some k ∈ cbs ∧ c' = { c with pc := .handed, expiredAt := some now } ∨
        some k ∉ cbs ∧ c' = c) := by
  obtain ⟨c, hc, heq⟩ := Option.map_eq_some_iff.mp h
  refine ⟨c, hc, ?_⟩
  rcases Decidable.em (some k ∈ cbs) with hk | hk
  · rw [if_pos hk] at heq
    exact Or.inl ⟨hk, heq.symm⟩
  · rw [if_neg hk] at heq
    exact Or.inr ⟨hk, heq.symm⟩

/-- `listExpiredCb` takes the callbacks of timers whose deadline has come. -/
theorem Timed.expire (h : Timed call s.timers s.callbacks) {now : Nat} {probe : TimerId}
    {cbs : List (Option Callback)} {m : TimerManager}
    (hrun : TimerManager.listExpiredCb now probe s.timers = .ok cbs m) :
    Timed call m (s.handOut now cbs).callbacks ∧
      ∀ k c, some k ∈ cbs → s.callbacks k = some c → c.pc = .armed := by
  obtain ⟨m₁, hrun₁, hord, hheap⟩ := h.ordered.listExpiredCb now probe
  have hdue := (h.ordered.expired now probe).2
  rw [hrun₁] at hrun
  cases hrun
  have htaken : ∀ k c,
      some k ∈ (s.timers.expired now probe).map (fun t => (s.timers.heap t).cb) →
      s.callbacks k = some c → ∃ t ∈ s.timers.expired now probe, (s.timers.heap t).cb = some k := by
    intro k c hk _
    obtain ⟨t, ht, hcb⟩ := List.mem_map.mp hk
    exact ⟨t, ht, hcb⟩
  have hleft : ∀ t k c, (m.heap t).cb = some k → s.callbacks k = some c →
      (s.timers.heap t).cb = some k ∧ t ∉ s.timers.expired now probe := by
    intro t k c hcb hc
    rw [hheap] at hcb
    split at hcb
    · exfalso
      unfold TimerManager.afterExpiry at hcb
      split at hcb
      · rename_i hrec
        rw [(h.armed t k c hcb hc).2.1] at hrec
        cases hrec
      · cases hcb
    · exact ⟨hcb, ‹_›⟩
  refine ⟨⟨hord, ?_, ?_, ?_⟩, ?_⟩
  · intro t k c' hcb hc'
    obtain ⟨c, hc, hcases⟩ := handOut_callbacks hc'
    obtain ⟨hcb', hout⟩ := hleft t k c hcb hc
    rcases hcases with ⟨hk, -⟩ | ⟨-, rfl⟩
    · obtain ⟨u, hu, hucb⟩ := htaken k c hk hc
      rw [h.unique t u k c hc hcb' hucb] at hout
      exact absurd hu hout
    · rw [hheap t, if_neg hout]
      exact h.armed t k c' hcb' hc
  · intro t u k c' hc' ht hu
    obtain ⟨c, hc, -⟩ := handOut_callbacks hc'
    exact h.unique t u k c hc (hleft t k c ht hc).1 (hleft u k c hu hc).1
  · intro k c' hc' hpc
    obtain ⟨c, hc, hcases⟩ := handOut_callbacks hc'
    rcases hcases with ⟨hk, rfl⟩ | ⟨-, rfl⟩
    · obtain ⟨t, ht, hcb⟩ := htaken k c hk hc
      refine ⟨now, rfl, ?_⟩
      rw [← (h.armed t k c hcb hc).2.2]
      exact (hdue t ht).2
    · exact h.expired k c' hc hpc
  · intro k c hk hc
    obtain ⟨t, -, hcb⟩ := htaken k c hk hc
    exact (h.armed t k c hcb hc).1

end

/-! ## The steps that may be taken -/

/-- `addEvent` has put the fiber into the slot, and nothing has taken it out. -/
def State.Registered (call : Call) (s : State) : Prop :=
  ∃ c sc, s.iom.fdContexts[call.fd]? = some c ∧ c.events.has call.event = true ∧
    c.getContext call.event = ⟨some sc, some call.here.fiber, none⟩

/-- The fiber has come back from `YieldToHold`, or the call is over. -/
def Pc.past : Pc → Bool
  | .resumed _ | .test | .done _ _ => true
  | .call | .arm | .addEvent _ | .failed _ _ | .yield _ | .suspended _ => false

/-- A result that is not that of a timeout is settled. -/
def Pc.decided : Pc → Bool
  | .failed _ _ => true
  | .done n errno => !(n = -1 ∧ errno = ETIMEDOUT)
  | .call | .arm | .addEvent _ | .yield _ | .suspended _ | .resumed _ | .test => false

/-- A callback that has set `tinfo->cancelled` finds the fiber registered, in a
queue or past its wait when it gets to `cancelEvent`. Nothing but the test of
`tinfo->cancelled` ends the call while it is set, and the system calls do not
report a timeout of their own. -/
def Meets (call : Call) (s : State) : Label → Prop
  | .call n errno =>
    Pc.afterCall n errno = .done n errno → s.cancelled = 0 ∧ ¬ (n = -1 ∧ errno = ETIMEDOUT)
  | .arm now => call.io ≠ noTimeout → now + call.io < 2 ^ 64
  | .addEvent ctl errno => ctl = false → s.cancelled = 0 ∧ errno ≠ ETIMEDOUT
  | .set _ => s.pc.decided = false
  | .cancelEvent _ ctl =>
    s.Enqueued call ∨ (s.Registered call ∧ ctl = true) ∨ s.pc.past = true
  | .own | .expire _ | .callback _ | .other => True

/-! ## The invariant -/

/-- The fiber is in a queue, or a callback is about to put it there. -/
def State.Waking (call : Call) (s : State) : Prop :=
  s.Enqueued call ∨ ∃ k, s.At k .cancelling

/-- Where the fiber may be while `tinfo->cancelled` is set. -/
def Pc.Covered (waking : Prop) : Pc → Prop
  | .call | .arm | .addEvent _ | .yield _ | .suspended _ => waking
  | .resumed _ | .test => True
  | .failed _ _ => False
  | .done n errno => n = -1 ∧ errno = ETIMEDOUT

structure Inv (call : Call) (s : State) : Prop where
  timed : Timed call s.timers s.callbacks
  queue : s.resumed ≤ s.wakeUps call
  cause : s.cancelled ≠ 0 →
    s.cancelled = ETIMEDOUT ∧ ∃ k c, s.callbacks k = some c ∧ c.pc ≠ .armed
  covered : s.cancelled ≠ 0 → s.pc.Covered (s.Waking call)
  failed : ∀ timer errno, s.pc = .failed timer errno → errno ≠ ETIMEDOUT
  result : s.pc = .done (-1) ETIMEDOUT → s.cancelled ≠ 0

section
variable {call : Call} {s s' : State}

theorem Pc.Covered.mono {p q : Prop} {pc : Pc} (h : pc.Covered p) (hpq : p → q) : pc.Covered q := by
  cases pc with
  | call | arm | addEvent | yield | suspended => exact hpq h
  | resumed | test => trivial
  | failed => exact h
  | done => exact h

theorem Pc.Covered.of_waking {p : Prop} {pc : Pc} (h : p) (hpc : pc.decided = false) :
    pc.Covered p := by
  cases pc with
  | call | arm | addEvent | yield | suspended => exact h
  | resumed | test => trivial
  | failed => cases hpc
  | done n errno => simpa [Pc.decided, Pc.Covered] using hpc

/-- While the fiber has not come back, the cover is a wake-up. -/
theorem Pc.Covered.waking {p : Prop} {pc : Pc} (h : pc.Covered p) (hpc : pc.past = false) : p := by
  cases pc with
  | call | arm | addEvent | yield | suspended => exact h
  | resumed | test | done => cases hpc
  | failed => exact h.elim

theorem State.Enqueued.mono (h : s.Enqueued call) (hresumed : s'.resumed = s.resumed)
    (hsch : s.iom.scheduled <+: s'.iom.scheduled) : s'.Enqueued call := by
  have hle : s.wakeUps call ≤ s'.wakeUps call := hsch.sublist.countP_le
  unfold State.Enqueued at h ⊢
  omega

theorem State.At.setCallback {k j : Callback} {pc : CallbackPc} {c : TimerCallback} (h : s.At k pc)
    (hne : k ≠ j) : (s.setCallback j c).At k pc := by
  obtain ⟨d, hd, hpc⟩ := h
  exact ⟨d, (Function.update_of_ne hne _ _).trans hd, hpc⟩

theorem State.At.ne {k j : Callback} {pc : CallbackPc} {c : TimerCallback} (h : s.At k pc)
    (hc : s.callbacks j = some c) (hpc : c.pc ≠ pc) : k ≠ j := by
  rintro rfl
  obtain ⟨d, hd, hdpc⟩ := h
  rw [hc] at hd
  cases hd
  exact hpc hdpc

/-- A callback that is not at its `cancelEvent` moves on. -/
theorem State.Waking.setCallback {j : Callback} {c d : TimerCallback} (h : s.Waking call)
    (hc : s.callbacks j = some c) (hpc : c.pc ≠ .cancelling) : (s.setCallback j d).Waking call := by
  rcases h with h | ⟨k, hk⟩
  · exact Or.inl h
  · exact Or.inr ⟨k, hk.setCallback (hk.ne hc hpc)⟩

theorem cancelEvent_registered {iom : IOManager} {rt : Bool} (h : s.Registered call)
    (hrun : IOManager.cancelEvent true call.fd call.event s.iom = .ok rt iom) :
    ∃ sc, iom.scheduled = s.iom.scheduled ++ [(sc, .fiber call.here.fiber)] := by
  obtain ⟨c, sc, hc, hev, hctx⟩ := h
  have hfull : (c.getContext call.event).Full := by
    rw [hctx]
    exact ⟨rfl, by simp⟩
  obtain ⟨t, ht, hcan⟩ := IOManager.cancelEvent_registered hc hev hfull
  rw [ht] at hrun
  cases hrun
  obtain ⟨e, he, hsch⟩ := hcan.entry
  rw [hctx] at he
  cases he
  exact ⟨sc, hsch⟩

/-! ## One step -/

/-- A step that sets nothing and leaves the call where it is. -/
theorem Inv.beside (h : Inv call s) (hpc : s'.pc = s.pc) (hcancelled : s'.cancelled = s.cancelled)
    (htimed : Timed call s'.timers s'.callbacks) (hresumed : s'.resumed = s.resumed)
    (hsch : s.iom.scheduled <+: s'.iom.scheduled)
    (hstarted : ∀ k c, s.callbacks k = some c → c.pc ≠ .armed →
      ∃ c', s'.callbacks k = some c' ∧ c'.pc ≠ .armed)
    (hwaking : s.cancelled ≠ 0 → s.pc.past = false → s.Waking call → s'.Waking call) :
    Inv call s' where
  timed := htimed
  queue := by
    have hle : s.wakeUps call ≤ s'.wakeUps call := hsch.sublist.countP_le
    rw [hresumed]
    exact Nat.le_trans h.queue hle
  cause hc := by
    rw [hcancelled] at hc ⊢
    obtain ⟨heq, k, c, hk, hpc⟩ := h.cause hc
    obtain ⟨c', hk', hpc'⟩ := hstarted k c hk hpc
    exact ⟨heq, k, c', hk', hpc'⟩
  covered hc := by
    rw [hcancelled] at hc
    rw [hpc]
    have hcov := h.covered hc
    cases hpast : s.pc.past with
    | false => exact hcov.mono (hwaking hc hpast)
    | true =>
      cases hs : s.pc with
      | resumed | test => trivial
      | done n errno =>
        rw [hs] at hcov
        exact hcov
      | call | arm | addEvent | failed | yield | suspended =>
        rw [hs] at hpast
        cases hpast
  failed timer errno hf := h.failed timer errno (hpc ▸ hf)
  result hr := hcancelled ▸ h.result (hpc ▸ hr)

/-- A step of the fiber that leaves the queues and the callbacks alone. -/
theorem Inv.goto (h : Inv call s) {pc : Pc} {m : TimerManager} (htimed : Timed call m s.callbacks)
    (hcovered : s.cancelled ≠ 0 → pc.Covered (s.Waking call))
    (hfailed : ∀ timer errno, pc = .failed timer errno → errno ≠ ETIMEDOUT)
    (hresult : pc = .done (-1) ETIMEDOUT → s.cancelled ≠ 0) :
    Inv call { s with timers := m, pc := pc } :=
  ⟨htimed, h.queue, h.cause, hcovered, hfailed, hresult⟩

theorem Pc.afterCall_cases (n : Int) (errno : Nat) :
    Pc.afterCall n errno = .call ∨ Pc.afterCall n errno = .arm ∨
      Pc.afterCall n errno = .done n errno := by
  unfold Pc.afterCall
  split
  · exact Or.inl rfl
  · split
    · exact Or.inr (Or.inl rfl)
    · exact Or.inr (Or.inr rfl)

theorem Inv.afterCall (h : Inv call s) {n : Int} {errno : Nat} (pc : s.pc = .call)
    (hm : Meets call s (.call n errno)) : Inv call { s with pc := .afterCall n errno } := by
  have hwaking : s.cancelled ≠ 0 → s.Waking call := fun hc => by
    have := h.covered hc
    rw [pc] at this
    exact this
  refine h.goto h.timed ?_ ?_ ?_
  · intro hc
    rcases Pc.afterCall_cases n errno with he | he | he
    · rw [he]
      exact hwaking hc
    · rw [he]
      exact hwaking hc
    · exact absurd (hm he).1 hc
  · intro timer e hf
    rcases Pc.afterCall_cases n errno with he | he | he <;> (rw [he] at hf; cases hf)
  · intro hd
    rcases Pc.afterCall_cases n errno with he | he | he
    · rw [he] at hd
      cases hd
    · rw [he] at hd
      cases hd
    · have hno := (hm he).2
      rw [he] at hd
      cases hd
      exact absurd ⟨rfl, rfl⟩ hno

theorem Inv.arm (h : Inv call s) {t : TimerId} {k : Callback} {front : Bool} {m : TimerManager}
    {now : Nat} (pc : s.pc = .arm) (finite : call.io ≠ noTimeout) (fresh : t ∉ s.timers.timers)
    (freshCb : s.callbacks k = none) (unused : ∀ u, (s.timers.heap u).cb ≠ some k)
    (run : TimerManager.addNewTimer t now call.io k false s.timers = .ok front m)
    (hm : Meets call s (.arm now)) :
    Inv call { s.setCallback k ⟨.armed, now, none⟩ with timers := m, pc := .addEvent (some t) } where
  timed := h.timed.arm fresh unused (hm finite) run
  queue := h.queue
  cause hc := by
    obtain ⟨heq, j, c, hj, hpc⟩ := h.cause hc
    refine ⟨heq, j, c, (Function.update_of_ne ?_ _ _).trans hj, hpc⟩
    rintro rfl
    rw [freshCb] at hj
    cases hj
  covered hc := by
    have hw := h.covered hc
    rw [pc] at hw
    rcases hw with hq | ⟨j, hj⟩
    · exact Or.inl hq
    · refine Or.inr ⟨j, hj.setCallback ?_⟩
      rintro rfl
      obtain ⟨c, hc, -⟩ := hj
      rw [freshCb] at hc
      cases hc
  failed _ _ hf := nomatch hf
  result hr := nomatch hr

theorem Inv.addEvent (h : Inv call s) {timer : Option TimerId} {iom : IOManager} {ctl : Bool}
    {rt : Int} (pc : s.pc = .addEvent timer)
    (run : IOManager.addEvent call.here ctl call.fd call.event none s.iom = .ok rt iom) :
    Inv call { s with iom := iom, pc := .yield timer } := by
  have hsch : s.iom.scheduled <+: iom.scheduled := by rw [IOManager.addEvent_scheduled run]
  have hside : Inv call { s with iom := iom } :=
    h.beside rfl rfl h.timed rfl hsch (fun k c hk hc => ⟨c, hk, hc⟩)
      fun _ _ hw => hw.imp_left fun hq => State.Enqueued.mono (s := s) hq rfl hsch
  refine hside.goto hside.timed ?_ (fun _ _ hf => nomatch hf) (fun hr => nomatch hr)
  intro hc
  have hcov := hside.covered hc
  exact hcov.waking (congrArg Pc.past pc)

theorem Inv.addEventFails (h : Inv call s) {timer : Option TimerId} {iom : IOManager}
    {errno : Nat}
    (run : IOManager.addEvent call.here false call.fd call.event none s.iom = .ok (-1) iom)
    (hm : Meets call s (.addEvent false errno)) :
    Inv call { s with iom := iom, pc := .failed timer errno } where
  timed := h.timed
  queue := by
    show s.resumed ≤ iom.scheduled.countP _
    rw [IOManager.addEvent_scheduled run]
    exact h.queue
  cause := h.cause
  covered hc := absurd (hm rfl).1 hc
  failed _ _ hf := by
    cases hf
    exact (hm rfl).2
  result hr := nomatch hr

theorem Inv.test (h : Inv call s) : Inv call
    { s with pc := if s.cancelled ≠ 0 then .done (-1) s.cancelled else .call } := by
  rcases Decidable.em (s.cancelled = 0) with hc | hc
  · rw [if_neg (not_not_intro hc)]
    exact h.goto h.timed (fun hne => absurd hc hne) (fun _ _ hf => nomatch hf)
      (fun hr => nomatch hr)
  · rw [if_pos hc]
    exact h.goto h.timed (fun _ => ⟨rfl, (h.cause hc).1⟩) (fun _ _ hf => nomatch hf) (fun _ => hc)

/-- A callback goes on, and does not get to `cancelEvent`. -/
theorem Inv.callback (h : Inv call s) {k : Callback} {c : TimerCallback}
    (hk : s.callbacks k = some c) (hc : c.pc ≠ .armed) (hnot : c.pc ≠ .cancelling) {pc : CallbackPc}
    (hpc : pc ≠ .armed) : Inv call (s.setCallback k { c with pc := pc }) := by
  refine h.beside rfl rfl (h.timed.setCallback hk hc pc) rfl (List.prefix_refl _) ?_ ?_
  · intro j d hj hd
    rcases Decidable.em (j = k) with rfl | hne
    · exact ⟨_, Function.update_self _ _ _, hpc⟩
    · exact ⟨d, (Function.update_of_ne hne _ _).trans hj, hd⟩
  · exact fun _ _ hw => State.Waking.setCallback hw hk hnot

theorem Inv.set (h : Inv call s) {k : Callback} {c : TimerCallback} (hk : s.callbacks k = some c)
    (hc : c.pc = .passed) (hm : Meets call s (.set k)) :
    Inv call { s.setCallback k { c with pc := .cancelling } with cancelled := ETIMEDOUT } where
  timed := h.timed.setCallback hk (by rw [hc]; exact CallbackPc.noConfusion) .cancelling
  queue := h.queue
  cause _ := ⟨rfl, k, _, Function.update_self _ _ _, CallbackPc.noConfusion⟩
  covered _ := Pc.Covered.of_waking (Or.inr ⟨k, _, Function.update_self _ _ _, rfl⟩) hm
  failed := h.failed
  result _ := by
    show ETIMEDOUT ≠ 0
    decide

theorem Inv.cancelEvent (h : Inv call s) {k : Callback} {c : TimerCallback} {rt ctl : Bool}
    {iom : IOManager} (hk : s.callbacks k = some c) (hc : c.pc = .cancelling)
    (run : IOManager.cancelEvent ctl call.fd call.event s.iom = .ok rt iom)
    (hm : Meets call s (.cancelEvent k ctl)) :
    Inv call { s.setCallback k { c with pc := .finished } with iom := iom } := by
  have hsch := IOManager.cancelEvent_scheduled run
  have hne : c.pc ≠ .armed := by
    rw [hc]
    exact CallbackPc.noConfusion
  refine h.beside rfl rfl (h.timed.setCallback hk hne .finished) rfl hsch ?_ ?_
  · intro j d hj hd
    rcases Decidable.em (j = k) with rfl | hne
    · exact ⟨_, Function.update_self _ _ _, CallbackPc.noConfusion⟩
    · exact ⟨d, (Function.update_of_ne hne _ _).trans hj, hd⟩
  · intro _ hpast _
    left
    rcases hm with hq | ⟨hreg, rfl⟩ | hpast'
    · exact State.Enqueued.mono hq rfl hsch
    · obtain ⟨sc, hsch'⟩ := cancelEvent_registered hreg run
      have hcount : iom.scheduled.countP (fun e => e.2 == .fiber call.here.fiber) =
          s.wakeUps call + 1 := by
        rw [hsch', List.countP_append]
        simp [State.wakeUps]
      have hqueue := h.queue
      show s.resumed < iom.scheduled.countP _
      omega
    · rw [hpast] at hpast'
      cases hpast'

theorem Inv.expire (h : Inv call s) {now : Nat} {probe : TimerId} {cbs : List (Option Callback)}
    {m : TimerManager} (run : TimerManager.listExpiredCb now probe s.timers = .ok cbs m) :
    Inv call { s.handOut now cbs with timers := m } := by
  obtain ⟨htimed, harmed⟩ := h.timed.expire run
  have hkeep : ∀ k c, s.callbacks k = some c → c.pc ≠ .armed →
      (s.handOut now cbs).callbacks k = some c := by
    intro k c hk hc
    have hnot : some k ∉ cbs := fun hmem => hc (harmed k c hmem hk)
    show (s.callbacks k).map _ = some c
    rw [hk, Option.map_some, if_neg hnot]
  refine h.beside rfl rfl htimed rfl (List.prefix_refl _) (fun k c hk hc => ⟨c, hkeep k c hk hc, hc⟩)
    ?_
  rintro - - (hq | ⟨k, c, hk, hc⟩)
  · exact Or.inl hq
  · refine Or.inr ⟨k, c, hkeep k c hk ?_, hc⟩
    rw [hc]
    exact CallbackPc.noConfusion

theorem Inv.step (h : Inv call s) {l : Label} (hm : Meets call s l) (hstep : Step call s l s') :
    Inv call s' := by
  cases hstep with
  | call n errno pc => exact h.afterCall pc hm
  | arm now pc finite fresh freshCb unused run => exact h.arm pc finite fresh freshCb unused run hm
  | armNone now pc infinite =>
    have hcov := h.covered
    rw [pc] at hcov
    exact h.goto h.timed hcov (fun _ _ hf => nomatch hf) (fun hr => nomatch hr)
  | addEvent errno pc run => exact h.addEvent pc run
  | addEventFails errno pc run => exact h.addEventFails run hm
  | @giveUp timer errno m pc run =>
    refine h.goto (h.timed.cancelTimer run) ?_ (fun _ _ hf => nomatch hf) ?_
    · intro hc
      have hcov := h.covered hc
      rw [pc] at hcov
      exact hcov.elim
    · intro hr
      cases hr
      exact absurd rfl (h.failed timer ETIMEDOUT pc)
  | yield pc =>
    have hcov := h.covered
    rw [pc] at hcov
    exact h.goto h.timed hcov (fun _ _ hf => nomatch hf) (fun hr => nomatch hr)
  | resume pc enqueued =>
    exact ⟨h.timed, enqueued, h.cause, fun _ => trivial, (fun _ _ hf => nomatch hf),
      fun hr => nomatch hr⟩
  | cancelTimer pc run =>
    exact h.goto (h.timed.cancelTimer run) (fun _ => trivial) (fun _ _ hf => nomatch hf)
      (fun hr => nomatch hr)
  | test pc => exact h.test
  | expire now probe run => exact h.expire run
  | lock at' pc alive =>
    exact h.callback at' (by simp [pc]) (by simp [pc]) CallbackPc.noConfusion
  | expired at' pc gone =>
    exact h.callback at' (by simp [pc]) (by simp [pc]) CallbackPc.noConfusion
  | check at' pc =>
    refine h.callback at' (by simp [pc]) (by simp [pc]) ?_
    split <;> exact CallbackPc.noConfusion
  | set at' pc => exact h.set at' pc hm
  | cancelEvent ctl at' pc run => exact h.cancelEvent at' pc run hm
  | io step =>
    refine h.beside rfl rfl h.timed rfl step.scheduled (fun k c hk hc => ⟨c, hk, hc⟩) ?_
    exact fun _ _ hw => hw.imp_left fun hq => State.Enqueued.mono (s := s) hq rfl step.scheduled
  | timer step =>
    refine h.beside rfl rfl ?_ rfl (List.prefix_refl _) (fun k c hk hc => ⟨c, hk, hc⟩)
      fun _ _ hw => hw
    exact h.timed.step (fun t k c hcb hc => Or.inl ⟨k, c, hcb, hc⟩) (fun k c hc => ⟨c, hc⟩) step

theorem Inv.own (h : Inv call s) (hstep : Step call s .own s') : Inv call s' :=
  Inv.step (l := .own) h trivial hstep

theorem restrict_inductive (call : Call) :
    ((machine call).restrict (Meets call)).Inductive (Inv call) where
  init := by
    rintro s ⟨hpc, hcancelled, ⟨fibers, hiom⟩, hheap, htimers, hcallbacks, hresumed⟩
    have hnone : ∀ {k : Callback} {c : TimerCallback}, s.callbacks k ≠ some c := by
      intro k c hk
      rw [hcallbacks k] at hk
      cases hk
    have hord : s.timers.Ordered := by
      refine ⟨?_, ?_, (fun t ht => nomatch ht), List.nodup_nil⟩
      · rw [htimers]
        exact List.Pairwise.nil
      · intro t
        rw [hheap t, htimers]
        simp
    constructor
    · exact ⟨hord, fun _ _ _ _ hc => absurd hc hnone, fun _ _ _ _ hc => absurd hc hnone,
        fun _ _ hc => absurd hc hnone⟩
    · rw [hresumed]
      exact Nat.zero_le _
    · exact fun hc => absurd hcancelled hc
    · exact fun hc => absurd hcancelled hc
    · intro timer errno hf
      rw [hpc] at hf
      cases hf
    · intro hr
      rw [hpc] at hr
      cases hr
  step s l t h hstep := h.step hstep.2 hstep.1

/-! ## The end of the call -/

/-- The fiber has been woken, or is in a queue and about to wait. -/
def State.Woken (call : Call) (s : State) : Prop :=
  match s.pc with
  | .yield _ | .suspended _ => s.Enqueued call
  | .resumed _ | .test => True
  | .call | .arm | .addEvent _ | .failed _ _ | .done _ _ => False

/-- From there on the fiber alone brings the call to its end. -/
theorem Inv.ends (h : Inv call s) (hc : s.cancelled ≠ 0) (hw : s.Woken call) :
    ∃ ls s', Run (machine call) s ls s' ∧ (∀ l ∈ ls, l = .own) ∧ s'.pc = .done (-1) ETIMEDOUT := by
  have htest : ∀ {s : State}, Inv call s → s.cancelled ≠ 0 → s.pc = .test →
      ∃ s', Run (machine call) s [.own] s' ∧ s'.pc = .done (-1) ETIMEDOUT := by
    intro s h hc hpc
    refine ⟨_, Run.next (Step.test hpc) (Run.refl _), ?_⟩
    show (if s.cancelled ≠ 0 then _ else _) = _
    rw [if_pos hc, (h.cause hc).1]
  have hresumed : ∀ {s : State} {timer}, Inv call s → s.cancelled ≠ 0 → s.pc = .resumed timer →
      ∃ s', Run (machine call) s [.own, .own] s' ∧ s'.pc = .done (-1) ETIMEDOUT := by
    intro s timer h hc hpc
    obtain ⟨m, hm⟩ := cancelTimer_ok h.timed.ordered timer
    have hstep : Step call s .own _ := Step.cancelTimer hpc hm
    obtain ⟨s', hrun, hdone⟩ := htest (h.own hstep) hc rfl
    exact ⟨s', Run.next hstep hrun, hdone⟩
  have hsuspended : ∀ {s : State} {timer}, Inv call s → s.cancelled ≠ 0 → s.pc = .suspended timer →
      s.Enqueued call →
      ∃ s', Run (machine call) s [.own, .own, .own] s' ∧ s'.pc = .done (-1) ETIMEDOUT := by
    intro s timer h hc hpc hq
    have hstep := Step.resume hpc hq
    obtain ⟨s', hrun, hdone⟩ := hresumed (h.own hstep) hc rfl
    exact ⟨s', Run.next hstep hrun, hdone⟩
  unfold State.Woken at hw
  cases hpc : s.pc with
  | yield timer =>
    rw [hpc] at hw
    have hstep : Step call s .own _ := Step.yield hpc
    obtain ⟨s', hrun, hdone⟩ := hsuspended (h.own hstep) hc rfl hw
    exact ⟨_, s', Run.next hstep hrun, by simp, hdone⟩
  | suspended timer =>
    rw [hpc] at hw
    obtain ⟨s', hrun, hdone⟩ := hsuspended h hc hpc hw
    exact ⟨_, s', hrun, by simp, hdone⟩
  | resumed timer =>
    obtain ⟨s', hrun, hdone⟩ := hresumed h hc hpc
    exact ⟨_, s', hrun, by simp, hdone⟩
  | test =>
    obtain ⟨s', hrun, hdone⟩ := htest h hc hpc
    exact ⟨_, s', hrun, by simp, hdone⟩
  | call | arm | addEvent | failed | done =>
    rw [hpc] at hw
    exact hw.elim

/-- In every run whose steps meet the condition: once `tinfo->cancelled` is set,
the fiber is suspended only while it is in a queue or a callback is about to put
it there, any result is -1 with ETIMEDOUT, and a fiber that was woken comes to it
by its own steps. And that result means that a timer of the call has expired, no
sooner than the timeout after it was armed. -/
theorem timed_out_ends {call : Call} {s : State}
    (h : Reachable ((machine call).restrict (Meets call)) s) :
    (s.cancelled ≠ 0 →
      (∀ timer, s.pc = .suspended timer → s.Enqueued call ∨ ∃ k, s.At k .cancelling) ∧
      (∀ n errno, s.pc = .done n errno → n = -1 ∧ errno = ETIMEDOUT) ∧
      (s.Woken call → ∃ ls s', Run (machine call) s ls s' ∧ (∀ l ∈ ls, l = .own) ∧
        s'.pc = .done (-1) ETIMEDOUT)) ∧
    (s.pc = .done (-1) ETIMEDOUT → ∃ k c b, s.callbacks k = some c ∧ c.expiredAt = some b ∧
      c.armedAt + call.io ≤ b) := by
  have hs := (restrict_inductive call).reachable h
  constructor
  · intro hc
    have hcov := hs.covered hc
    refine ⟨?_, ?_, hs.ends hc⟩
    · intro timer hpc
      rw [hpc] at hcov
      exact hcov
    · intro n errno hpc
      rw [hpc] at hcov
      exact hcov
  · intro hpc
    obtain ⟨-, k, c, hk, hc⟩ := hs.cause (hs.result hpc)
    obtain ⟨b, hb, hle⟩ := hs.timed.expired k c hk hc
    exact ⟨k, c, b, hk, hb, hle⟩

end

/-! ## A read of descriptor 5 with a timeout of 50 -/

/-- The read finds nothing and arms its timer. -/
theorem armed_run (C : State → Label → Prop)
    (hC : ∀ s l, (l = .call (-1) EAGAIN ∨ l = .arm 1000) → C s l) : ∃ s,
    Reachable ((machine ⟨⟨some 0, 7⟩, 5, .read, 50⟩).restrict C) s ∧
      s = ⟨.addEvent (some 0), 0, IOManager.new fun _ => ⟨true, .exec, none⟩,
        ⟨Function.update (fun _ => ⟨false, 0, 0, none⟩) 0 ⟨false, 50, 1050, some 0⟩, [0], 0, true⟩,
        Function.update (fun _ => none) 0 (some ⟨.armed, 1000, none⟩), 0⟩ := by
  let start : State := ⟨.call, 0, IOManager.new fun _ => ⟨true, .exec, none⟩,
    ⟨fun _ => ⟨false, 0, 0, none⟩, [], 0, false⟩, fun _ => none, 0⟩
  have h0 : Reachable ((machine ⟨⟨some 0, 7⟩, 5, .read, 50⟩).restrict C) start :=
    Reachable.init ⟨rfl, rfl, ⟨_, rfl⟩, fun _ => rfl, rfl, fun _ => rfl, rfl⟩
  have h1 := h0.step ⟨Step.call (-1) EAGAIN rfl, hC _ _ (Or.inl rfl)⟩
  have h2 := h1.step ⟨Step.arm (t := 0) (k := 0) 1000 rfl (by decide) (fun h => nomatch h) rfl
    (fun _ h => nomatch h) rfl, hC _ _ (Or.inr rfl)⟩
  exact ⟨_, h2, rfl⟩

/-- The fiber registers and waits; then the timer expires and its callback runs. -/
theorem timed_out_ends_read : ∃ s : State, s.pc = .suspended (some 0) ∧ s.cancelled = ETIMEDOUT ∧
    ∃ ls s', Run (machine ⟨⟨some 0, 7⟩, 5, .read, 50⟩) s ls s' ∧ (∀ l ∈ ls, l = .own) ∧
      s'.pc = .done (-1) ETIMEDOUT := by
  obtain ⟨s, h0, rfl⟩ := armed_run (Meets ⟨⟨some 0, 7⟩, 5, .read, 50⟩) (by
    rintro s l (rfl | rfl)
    · exact fun h => nomatch h
    · exact fun _ => by decide)
  have h1 := h0.step ⟨Step.addEvent 0 rfl rfl, fun h => nomatch h⟩
  have h2 := h1.step ⟨Step.yield rfl, trivial⟩
  have h3 := h2.step ⟨Step.expire 1050 1 rfl, trivial⟩
  have h4 := h3.step ⟨Step.lock (k := 0) rfl rfl (Or.inl fun _ _ h => nomatch h), trivial⟩
  have h5 := h4.step ⟨Step.check (k := 0) rfl rfl, trivial⟩
  have h6 := h5.step ⟨Step.set (k := 0) rfl rfl, rfl⟩
  have h7 := h6.step ⟨Step.cancelEvent (k := 0) true rfl rfl rfl,
    Or.inr (Or.inl ⟨⟨_, _, rfl, rfl, rfl⟩, rfl⟩)⟩
  refine ⟨_, rfl, rfl, ((timed_out_ends h7).1 (by decide)).2.2 ?_⟩
  show 0 < _
  decide

/-- The callback runs before the fiber registers: `cancelEvent` finds nothing, and
the fiber waits with `tinfo->cancelled` set and nobody left to wake it. -/
theorem timeout_lost : ¬ ∀ s : State, Reachable (machine ⟨⟨some 0, 7⟩, 5, .read, 50⟩) s →
    s.cancelled ≠ 0 → ∀ timer, s.pc = .suspended timer →
      s.Enqueued ⟨⟨some 0, 7⟩, 5, .read, 50⟩ ∨ ∃ k, s.At k .cancelling := by
  intro h
  obtain ⟨s, h0, rfl⟩ := armed_run (fun _ _ => True) fun _ _ _ => trivial
  have h1 := h0.of_restrict.step (Step.expire 1050 1 rfl)
  have h2 := h1.step (Step.lock (k := 0) rfl rfl (Or.inl fun _ _ h => nomatch h))
  have h3 := h2.step (Step.check (k := 0) rfl rfl)
  have h4 := h3.step (Step.set (k := 0) rfl rfl)
  have h5 := h4.step (Step.cancelEvent (k := 0) true rfl rfl rfl)
  have h6 := h5.step (Step.addEvent 0 rfl rfl)
  have h7 := h6.step (Step.yield rfl)
  rcases h _ h7 (by decide) _ rfl with hq | ⟨k, c, hk, hc⟩
  · exact absurd (show 0 < 0 from hq) (Nat.lt_irrefl 0)
  · cases k with
    | zero =>
      cases hk
      cases hc
    | succ k => cases hk

end DoIo
end TwServer
