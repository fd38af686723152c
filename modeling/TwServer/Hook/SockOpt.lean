import TwServer.Hook.DoIo
import TwServer.Hook.FdManager

/-! The timeouts of a socket: the `setsockopt` hook, the setters of `tw::Socket` on
top of it, and what `do_io` makes of them. The hook records a timeout in the
`FdCtx` only where hooks are disabled, and records 0 for a zero `timeval`. -/

namespace TwServer
open Programs Program

/-! ## The calls -/

structure Timeval where
  sec : Int
  usec : Int
  deriving DecidableEq, Repr

namespace Timeval

/-- `tv_sec * 1000 + tv_usec / 1000`. -/
def millis (tv : Timeval) : Int := tv.sec * 1000 + tv.usec.tdiv 1000

/-- The same, as the `uint64_t` that `setTimeout` takes. -/
def recorded (tv : Timeval) : Nat := (tv.millis % 2 ^ 64).toNat

end Timeval

/-- What `FdManager::get` finds, each context by value. -/
abbrev FdTable := Int → Option FdCtx

/-- `opt` is the timeout that `level` and `optname` name, `none` for another
option; `rt` is what `setsockopt_f` returns. -/
def setsockopt (hookEnable : Bool) (sockfd : Int) (opt : Option TimeoutType) (tv : Timeval)
    (rt : Int) : Program FdTable Int := fun t =>
  if hookEnable then .ok rt t
  else
    match opt with
    | none => .ok rt t
    | some type =>
      match t sockfd with
      | none => .ok rt t
      | some ctx => .ok rt (Function.update t sockfd (some (ctx.setTimeout type tv.recorded)))

namespace Socket

/-- `int(v)`. -/
def toInt32 (v : Int) : Int := v.bmod (2 ^ 32)

/-- The `timeval` that both setters make of `v`. -/
def timeval (v : BitVec 64) : Timeval :=
  ⟨toInt32 (v.toInt.tdiv 1000), toInt32 (v.toInt.tmod 1000 * 1000)⟩

def setTimeout (type : TimeoutType) (hookEnable : Bool) (sock : Int) (v : BitVec 64) (rt : Int) :
    Program FdTable Unit := do
  let _ ← setsockopt hookEnable sock (some type) (timeval v) rt

def setRecvTimeout := setTimeout .recv
def setSendTimeout := setTimeout .send

def getTimeout (type : TimeoutType) (sock : Int) (t : FdTable) : BitVec 64 :=
  match t sock with
  | some ctx => BitVec.ofNat 64 (ctx.getTimeout type)
  | none => -1

def getRecvTimeout := getTimeout .recv
def getSendTimeout := getTimeout .send

end Socket

/-- The `timeout_so` that goes with an event in every caller of `do_io`. -/
def Event.timeoutSo : Event → TimeoutType
  | .read => .recv
  | .write => .send

/-- `do_io` down to its label `retry`, on a managed blocking socket. -/
def FdCtx.doIo (c : FdCtx) (here : Caller) (fd : Nat) (ev : Event) : DoIo.Call :=
  ⟨here, fd, ev, c.getTimeout ev.timeoutSo⟩

/-! ## Sequences of successful calls -/

namespace SockOpt

/-- A call that sets a timeout, on any descriptor and with hooks on or off. -/
inductive TimeoutCall where
  | setsockopt (hookEnable : Bool) (sockfd : Int) (type : TimeoutType) (tv : Timeval)
  | socket (hookEnable : Bool) (sockfd : Int) (type : TimeoutType) (v : BitVec 64)

namespace TimeoutCall

def hookEnable : TimeoutCall → Bool
  | setsockopt hook _ _ _ | socket hook _ _ _ => hook

def sockfd : TimeoutCall → Int
  | setsockopt _ fd _ _ | socket _ fd _ _ => fd

def type : TimeoutCall → TimeoutType
  | setsockopt _ _ type _ | socket _ _ type _ => type

def tv : TimeoutCall → Timeval
  | setsockopt _ _ _ tv => tv
  | socket _ _ _ v => Socket.timeval v

/-- The call sets this timeout of this descriptor. -/
def sets (fd : Int) (type : TimeoutType) (x : TimeoutCall) : Bool :=
  x.sockfd == fd && x.type == type

def run : TimeoutCall → Program FdTable Unit
  | setsockopt hook fd type tv => do
    let _ ← TwServer.setsockopt hook fd (some type) tv 0
  | socket hook fd type v => Socket.setTimeout type hook fd v 0

/-- The timeout that the option stands for, in milliseconds. -/
def meaning (x : TimeoutCall) : Int := if x.tv = ⟨0, 0⟩ then noTimeout else x.tv.millis

end TimeoutCall

/-- The call that set the timeout last. -/
def lastCall (fd : Int) (type : TimeoutType) (calls : List TimeoutCall) : Option TimeoutCall :=
  (calls.filter (·.sets fd type)).getLast?

/-- `do_io` waits for `ms` milliseconds, without a timer if that is forever. -/
def Arms (c : FdCtx) (ev : Event) (ms : Int) : Prop :=
  ∀ here fd s now s', DoIo.Step (c.doIo here fd ev) s (.arm now) s' →
    (∃ t, s'.pc = .addEvent (some t) ∧ ((s'.timers.heap t).ms : Int) = ms ∧ ms ≠ noTimeout) ∨
      s'.pc = .addEvent none ∧ s'.timers = s.timers ∧ ms = noTimeout

/-- `c` was the context of the descriptor before `calls`, which left the table `t`. -/
structure Enforced (c : FdCtx) (calls : List TimeoutCall) (t : FdTable) (fd : Int)
    (type : TimeoutType) : Prop where
  kept : lastCall fd type calls = none →
    ∃ c', t fd = some c' ∧ c'.getTimeout type = c.getTimeout type
  set : ∀ x, lastCall fd type calls = some x →
    ∃ c', t fd = some c' ∧ (c'.getTimeout type : Int) = x.meaning ∧
      ∀ ev, ev.timeoutSo = type → Arms c' ev x.meaning
  socket : ∀ hook v, lastCall fd type calls = some (.socket hook fd type v) → v ≠ 0 →
    Socket.getTimeout type fd t = v

/-- The last `timeval` recorded: that of the last call without hooks. -/
def lastRecorded (c : FdCtx) (fd : Int) (type : TimeoutType) (calls : List TimeoutCall) : Nat :=
  ((lastCall fd type (calls.filter (!·.hookEnable))).map (·.tv.recorded)).getD (c.getTimeout type)

/-- With hooks disabled: the `timeval` of the last call is not zero and its
milliseconds are not negative and fit into 64 bits. With hooks enabled: they are
what the last call without hooks has recorded. And the seconds of a `Socket`'s
timeout fit into an `int`. -/
def Meets (c : FdCtx) (calls : List TimeoutCall) (fd : Int) (type : TimeoutType) : Prop :=
  ∀ x, lastCall fd type calls = some x →
    (if x.hookEnable then x.meaning = lastRecorded c fd type calls
      else x.tv ≠ ⟨0, 0⟩ ∧ 0 ≤ x.tv.millis ∧ x.tv.millis < 2 ^ 64) ∧
    ∀ hook v, x = .socket hook fd type v → v ≠ 0 →
      Socket.toInt32 (v.toInt.tdiv 1000) = v.toInt.tdiv 1000

/-! ## What a sequence of calls records -/

theorem getTimeout_setTimeout (c : FdCtx) (type type' : TimeoutType) (timeout : Nat) :
    (c.setTimeout type' timeout).getTimeout type =
      if type' = type then timeout else c.getTimeout type := by
  cases type <;> cases type' <;> rfl

theorem TimeoutCall.run_eq (x : TimeoutCall) :
    x.run = (do let _ ← TwServer.setsockopt x.hookEnable x.sockfd (some x.type) x.tv 0) := by
  cases x <;> rfl

theorem run_records {t : FdTable} {fd : Int} {c : FdCtx} (hc : t fd = some c) (x : TimeoutCall) :
    ∃ t' c', x.run t = .ok () t' ∧ t' fd = some c' ∧
      ∀ type, c'.getTimeout type =
        if !x.hookEnable && x.sets fd type then x.tv.recorded else c.getTimeout type := by
  rw [TimeoutCall.run_eq]
  cases hhook : x.hookEnable with
  | true => exact ⟨t, c, rfl, hc, fun type => rfl⟩
  | false =>
    by_cases hfd : x.sockfd = fd
    · subst hfd
      simp only [bind_def, Program.bind, setsockopt, hc, Bool.false_eq_true, ↓reduceIte]
      refine ⟨_, _, rfl, Function.update_self .., fun type => ?_⟩
      rw [getTimeout_setTimeout]
      simp [TimeoutCall.sets]
    · have hsets : ∀ type, x.sets fd type = false := by
        intro type
        simp [TimeoutCall.sets, hfd]
      simp only [bind_def, Program.bind, setsockopt, Bool.false_eq_true, ↓reduceIte]
      cases t x.sockfd with
      | none =>
        refine ⟨t, c, rfl, hc, fun type => ?_⟩
        simp [hsets]
      | some d =>
        refine ⟨_, c, rfl, (Function.update_of_ne (Ne.symm hfd) _ _).trans hc, fun type => ?_⟩
        simp [hsets]

theorem lastRecorded_cons (c c' : FdCtx) (fd : Int) (type : TimeoutType) (x : TimeoutCall)
    (calls : List TimeoutCall)
    (h : c'.getTimeout type =
      if !x.hookEnable && x.sets fd type then x.tv.recorded else c.getTimeout type) :
    lastRecorded c fd type (x :: calls) = lastRecorded c' fd type calls := by
  unfold lastRecorded lastCall
  cases hhook : x.hookEnable with
  | true =>
    rw [hhook] at h
    simp [hhook, h]
  | false =>
    cases hsets : x.sets fd type with
    | true =>
      rw [hhook, hsets] at h
      simp only [List.filter_cons, hhook, hsets, Bool.not_false, ↓reduceIte, List.getLast?_cons,
        Option.map_some, Option.getD_some, h]
      cases ((calls.filter (!·.hookEnable)).filter (·.sets fd type)).getLast? with
      | none => simp
      | some y => rfl
    | false =>
      rw [hhook, hsets] at h
      simp [hhook, hsets, h]

/-- After any calls the context holds, for each direction, what was recorded last. -/
theorem calls_record {t : FdTable} {fd : Int} {c : FdCtx} (hc : t fd = some c)
    (calls : List TimeoutCall) :
    ∃ t' c', calls.forM TimeoutCall.run t = .ok () t' ∧ t' fd = some c' ∧
      ∀ type, c'.getTimeout type = lastRecorded c fd type calls := by
  induction calls generalizing t c with
  | nil => exact ⟨t, c, rfl, hc, fun type => rfl⟩
  | cons x calls ih =>
    obtain ⟨t₁, c₁, hrun, hc₁, hstep⟩ := run_records hc x
    obtain ⟨t', c', hrest, hc', hlast⟩ := ih hc₁
    refine ⟨t', c', ?_, hc', fun type => ?_⟩
    · rw [forM_cons, bind_ok hrun]
      exact hrest
    · rw [hlast, lastRecorded_cons c c₁ fd type x calls (hstep type)]

/-- A last call without hooks is the last one recorded. -/
theorem lastRecorded_of_last {c : FdCtx} {fd : Int} {type : TimeoutType}
    {calls : List TimeoutCall} {x : TimeoutCall} (hlast : lastCall fd type calls = some x)
    (hhook : x.hookEnable = false) : lastRecorded c fd type calls = x.tv.recorded := by
  unfold lastCall at hlast
  unfold lastRecorded lastCall
  obtain ⟨l, hl⟩ := List.getLast?_eq_some_iff.mp hlast
  rw [List.filter_comm, hl, List.filter_append, List.getLast?_append]
  simp [hhook]

theorem lastRecorded_of_none {c : FdCtx} {fd : Int} {type : TimeoutType}
    {calls : List TimeoutCall} (h : lastCall fd type calls = none) :
    lastRecorded c fd type calls = c.getTimeout type := by
  have hnil : calls.filter (·.sets fd type) = [] := List.getLast?_eq_none_iff.mp h
  unfold lastRecorded lastCall
  rw [List.filter_comm, hnil]
  rfl

/-! ## Values -/

theorem recorded_eq_meaning_iff (x : TimeoutCall) :
    (x.tv.recorded : Int) = x.meaning ↔
      x.tv ≠ ⟨0, 0⟩ ∧ 0 ≤ x.tv.millis ∧ x.tv.millis < 2 ^ 64 := by
  unfold TimeoutCall.meaning Timeval.recorded
  by_cases hzero : x.tv = ⟨0, 0⟩
  · rw [if_pos hzero, hzero]
    exact iff_of_false (by decide) fun h => h.1 rfl
  · rw [if_neg hzero]
    constructor
    · intro h
      exact ⟨hzero, by omega, by omega⟩
    · rintro ⟨-, hle, hlt⟩
      omega

theorem toInt32_of_lt {v : Int} (h : -(2 ^ 31) ≤ v) (h' : v < 2 ^ 31) : Socket.toInt32 v = v :=
  Int.bmod_eq_of_le (by omega) (by omega)

theorem toInt32_bounds (v : Int) : -(2 ^ 31) ≤ Socket.toInt32 v ∧ Socket.toInt32 v < 2 ^ 31 := by
  have hle : -(((2 ^ 32 : Nat) : Int) / 2) ≤ v.bmod (2 ^ 32) := Int.le_bmod (by decide)
  have hlt : v.bmod (2 ^ 32) < (((2 ^ 32 : Nat) : Int) + 1) / 2 := Int.bmod_lt (by decide)
  unfold Socket.toInt32
  omega

/-- The milliseconds of a `Socket`'s timeout survive; its seconds may be cut. -/
theorem millis_timeval (v : BitVec 64) :
    (Socket.timeval v).millis =
      Socket.toInt32 (v.toInt.tdiv 1000) * 1000 + v.toInt.tmod 1000 := by
  have hlt := Int.tmod_lt_of_pos v.toInt (b := 1000) (by decide)
  have hgt := Int.lt_tmod_of_pos v.toInt (b := 1000) (by decide)
  have husec : Socket.toInt32 (v.toInt.tmod 1000 * 1000) = v.toInt.tmod 1000 * 1000 :=
    toInt32_of_lt (by omega) (by omega)
  unfold Socket.timeval Timeval.millis
  rw [husec, Int.mul_tdiv_cancel _ (by decide)]

/-- A `Socket`'s timeout, once recorded as it was meant, comes back unless its
seconds were cut. -/
theorem socket_value_iff {v : BitVec 64} (hv : v ≠ 0) {n : Nat} {hook : Bool} {fd : Int}
    {type : TimeoutType} (h : (n : Int) = (TimeoutCall.socket hook fd type v).meaning) :
    BitVec.ofNat 64 n = v ↔ Socket.toInt32 (v.toInt.tdiv 1000) = v.toInt.tdiv 1000 := by
  have hmillis := millis_timeval v
  have hsplit := Int.tdiv_mul_add_tmod v.toInt 1000
  have hbounds := toInt32_bounds (v.toInt.tdiv 1000)
  have hlt := Int.tmod_lt_of_pos v.toInt (b := 1000) (by decide)
  have hgt := Int.lt_tmod_of_pos v.toInt (b := 1000) (by decide)
  have hvalue : BitVec.ofNat 64 n = v ↔ (n : Int).bmod (2 ^ 64) = v.toInt := by
    rw [← BitVec.toInt_inj, BitVec.toInt_ofNat']
  unfold TimeoutCall.meaning at h
  by_cases hzero : (TimeoutCall.socket hook fd type v).tv = ⟨0, 0⟩
  · -- the whole value was cut away, and the timeout became infinite
    rw [if_pos hzero] at h
    have hsec : Socket.toInt32 (v.toInt.tdiv 1000) = 0 := congrArg Timeval.sec hzero
    have hrest : v.toInt.tmod 1000 = 0 := by
      have hz : (Socket.timeval v).millis = 0 := congrArg Timeval.millis hzero
      omega
    have hne : v.toInt ≠ 0 := fun h0 => hv (BitVec.toInt_inj.mp h0)
    refine iff_of_false ?_ (by omega)
    rw [hvalue, h]
    intro hminus
    have hminus : v.toInt = -1 := hminus.symm
    rw [hminus] at hrest
    cases hrest
  · rw [if_neg hzero] at h
    have hn : (n : Int) = Socket.toInt32 (v.toInt.tdiv 1000) * 1000 + v.toInt.tmod 1000 :=
      h.trans hmillis
    rw [hvalue, Int.bmod_eq_of_le (by omega) (by omega)]
    omega

/-! ## The timer of `do_io` -/

theorem arms_getTimeout (c : FdCtx) (ev : Event) : Arms c ev (c.getTimeout ev.timeoutSo) := by
  intro here fd s now s' hstep
  cases hstep with
  | @arm t k _ _ _ pc finite fresh freshCb unused run =>
    refine Or.inl ⟨t, rfl, ?_, ?_⟩
    · rw [TimerManager.addNewTimer_heap run, Function.update_self]
      rfl
    · exact fun he => finite (Int.ofNat.inj he)
  | armNone _ pc infinite => exact Or.inr ⟨rfl, rfl, congrArg _ infinite⟩

/-! ## When the last timeout set is the one enforced -/

theorem enforced_iff {t' : FdTable} {fd : Int} {c c' : FdCtx} {type : TimeoutType}
    {calls : List TimeoutCall} (hc' : t' fd = some c')
    (hlast : ∀ type, c'.getTimeout type = lastRecorded c fd type calls) :
    Enforced c calls t' fd type ↔ Meets c calls fd type := by
  have hsocket : Socket.getTimeout type fd t' = BitVec.ofNat 64 (c'.getTimeout type) := by
    rw [Socket.getTimeout, hc']
  constructor
  · intro h x hx
    obtain ⟨d, hd, hvalue, -⟩ := h.set x hx
    obtain rfl : c' = d := Option.some.inj (hc'.symm.trans hd)
    refine ⟨?_, ?_⟩
    · cases hhook : x.hookEnable with
      | true => exact hvalue.symm.trans (congrArg _ (hlast type))
      | false =>
        rw [hlast, lastRecorded_of_last hx hhook] at hvalue
        exact (recorded_eq_meaning_iff x).mp hvalue
    · rintro hook v rfl hv
      exact (socket_value_iff hv hvalue).mp (hsocket.symm.trans (h.socket hook v hx hv))
  · intro h
    have hvalue : ∀ x, lastCall fd type calls = some x →
        (c'.getTimeout type : Int) = x.meaning := by
      intro x hx
      have hx' := (h x hx).1
      cases hhook : x.hookEnable with
      | true =>
        rw [hhook, if_pos rfl] at hx'
        rw [hlast, hx']
      | false =>
        rw [hhook, if_neg Bool.false_ne_true] at hx'
        rw [hlast, lastRecorded_of_last hx hhook]
        exact (recorded_eq_meaning_iff x).mpr hx'
    refine ⟨fun hnone => ?_, fun x hx => ?_, fun hook v hx hv => ?_⟩
    · exact ⟨c', hc', (hlast type).trans (lastRecorded_of_none hnone)⟩
    · refine ⟨c', hc', hvalue x hx, fun ev hev => ?_⟩
      rw [← hvalue x hx, ← hev]
      exact arms_getTimeout c' ev
    · exact hsocket.trans ((socket_value_iff hv (hvalue _ hx)).mpr ((h _ hx).2 hook v rfl hv))

/-- For every descriptor with a context and all successful calls, the timeouts in
force are those set last exactly if, for both directions, the last call meets the
condition. -/
theorem timeouts_enforced_iff {t : FdTable} {fd : Int} {c : FdCtx} (hc : t fd = some c)
    (calls : List TimeoutCall) :
    ∃ t', calls.forM TimeoutCall.run t = .ok () t' ∧
      ((∀ type, Enforced c calls t' fd type) ↔ ∀ type, Meets c calls fd type) := by
  obtain ⟨t', c', hrun, hc', hlast⟩ := calls_record hc calls
  exact ⟨t', hrun, forall_congr' fun type => enforced_iff hc' hlast⟩

/-! ## Descriptor 5 with a new context -/

def table : FdTable := fun _ => some (FdCtx.new 5 (some true))

/-- Without hooks a receive timeout of 2.5 s is in force. -/
theorem timeouts_enforced_iff_off : ∃ t',
    [TimeoutCall.setsockopt false 5 .recv ⟨2, 500000⟩].forM TimeoutCall.run table = .ok () t' ∧
      ∀ type, Enforced (FdCtx.new 5 (some true)) [.setsockopt false 5 .recv ⟨2, 500000⟩] t' 5
        type := by
  have hc : table 5 = some (FdCtx.new 5 (some true)) := rfl
  obtain ⟨t', hrun, hiff⟩ := timeouts_enforced_iff hc [.setsockopt false 5 .recv ⟨2, 500000⟩]
  refine ⟨t', hrun, hiff.mpr ?_⟩
  intro type x hx
  cases type with
  | recv =>
    obtain rfl := Option.some.inj hx
    exact ⟨by decide, fun hook v he => nomatch he⟩
  | send => cases hx

/-- With hooks enabled a receive timeout of 2 s is not. -/
theorem timeout_not_recorded : ¬ ∀ (t : FdTable) fd c calls, t fd = some c →
    ∃ t', calls.forM TimeoutCall.run t = .ok () t' ∧ ∀ type, Enforced c calls t' fd type := by
  intro hall
  obtain ⟨t', hrun, henf⟩ := hall table 5 (FdCtx.new 5 (some true))
    [.setsockopt true 5 .recv ⟨2, 0⟩] rfl
  cases hrun
  obtain ⟨c', hc', hvalue, -⟩ := (henf .recv).set _ rfl
  cases hc'
  exact absurd hvalue (by decide)

end SockOpt
end TwServer
