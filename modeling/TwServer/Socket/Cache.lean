import TwServer.Lib.Runs
import TwServer.Socket.Model

/-! What a `Socket` keeps of its names, over every run of its methods: the two getters
against what the kernel reports for the descriptor at that moment. -/

namespace TwServer
open Programs Program Runs

namespace Socket
variable {f : Family}

/-- What a getter gives that asks the kernel: the name, or a placeholder. -/
def report (name : Option f.Name) : Address :=
  match name with
  | some n => f.address n
  | none => f.unknownAddress

def LocalFresh (s : Socket f) : Prop := ∃ t, getLocalAddress s = .ok (report s.sockname) t

def RemoteFresh (s : Socket f) : Prop := ∃ t, getremoteAddress s = .ok (report s.peername) t

/-! ## The methods as steps -/

/-- A call of a method, or a change of the socket in the kernel, as when the peer resets
the connection. -/
inductive Call (f : Family)
  | bind (addr : Address) (kernel : Answers f)
  | connect (addr : Address) (kernel : Answers f)
  | close
  | getLocalAddress
  | getremoteAddress
  | change (e : Endpoint f)

/-- Whether the call is a `bind` or a `connect` that succeeds. -/
def Call.run : Call f → Program (Socket f) Bool
  | bind addr kernel => Socket.bind addr kernel
  | connect addr kernel => Socket.connect addr kernel
  | close => do let _ ← Socket.close; return false
  | getLocalAddress => do let _ ← Socket.getLocalAddress; return false
  | getremoteAddress => do let _ ← Socket.getremoteAddress; return false
  | change e => fun s => .ok false (if s.isValid then { s with mSock := some e } else s)

/-- `succeeded`: a `bind` or a `connect` has. -/
structure Life (f : Family) where
  sock : Socket f
  succeeded : Bool

/-- From a new socket or one that `accept` gives. -/
def machine (f : Family) : System (Life f) (Call f) where
  init s := s.succeeded = false ∧ (s.sock = new f ∨ ∃ e, init e (new f) = .ok true s.sock)
  step s c t := ∃ r, c.run s.sock = .ok r t.sock ∧ t.succeeded = (s.succeeded || r)

def NotStale (s : Life f) : Prop := s.succeeded = true → s.sock.LocalFresh ∧ s.sock.RemoteFresh

/-! ## Names that are kept -/

/-- What is kept, if it is anything, is the name. -/
def Fits (kept name : Option f.Name) : Prop := ∀ n, kept = some n → name = some n

def KeepsOf (s : Socket f) (e : Endpoint f) : Prop :=
  Fits s.mLocalAddress e.sockname ∧ Fits s.mRemoteAddress e.peername

def Uncached (s : Socket f) : Prop := s.mLocalAddress = none ∧ s.mRemoteAddress = none

def Fresh (s : Socket f) : Prop :=
  Fits s.mLocalAddress s.sockname ∧ Fits s.mRemoteAddress s.peername

theorem none_fits (name : Option f.Name) : Fits none name := fun _ h => nomatch h

theorem fits_none_iff {kept : Option f.Name} : Fits kept none ↔ kept = none := by
  cases kept with
  | none => exact iff_of_true (none_fits _) rfl
  | some n => exact iff_of_false (fun h => nomatch h n rfl) (fun h => nomatch h)

/-- The first name that is asked for is kept. -/
theorem fits_or_iff {kept name : Option f.Name} : Fits (kept.or name) name ↔ Fits kept name := by
  cases kept with
  | none => simp [Fits]
  | some n => simp [Fits]

/-- A socket of the family IPv4 or IPv6. -/
def Ip (f : Family) : Prop := f = .ipv4 ∨ f = .ipv6

theorem Ip.ne_unix (hf : Ip f) : f ≠ .unix := by
  rcases hf with rfl | rfl
  · decide
  · decide

theorem Ip.address_inj (hf : Ip f) {n m : f.Name} (h : f.address n = f.address m) : n = m := by
  rcases hf with rfl | rfl
  · exact Address.ipv4.inj h
  · exact Address.ipv6.inj h

/-- The placeholder is no name. -/
theorem Ip.address_ne_unknownAddress (hf : Ip f) (n : f.Name) :
    f.address n ≠ f.unknownAddress := by
  rcases hf with rfl | rfl
  · exact fun h => nomatch h
  · exact fun h => nomatch h

theorem address_eq_report_iff (hf : Ip f) {n : f.Name} {name : Option f.Name} :
    f.address n = report name ↔ name = some n := by
  cases name with
  | none => exact iff_of_false (hf.address_ne_unknownAddress n) (fun h => nomatch h)
  | some m =>
    constructor
    · exact fun h => congrArg some (hf.address_inj h).symm
    · exact fun h => congrArg f.address (Option.some.inj h).symm

/-- A getter gives what is kept, or what the kernel reports, which it then keeps. -/
theorem getLocalAddress_eq (hf : Ip f) (s : Socket f) :
    getLocalAddress s = .ok (report (s.mLocalAddress.or s.sockname))
      { s with mLocalAddress := s.mLocalAddress.or s.sockname } := by
  obtain ⟨mSock, connected, mLocal, mRemote⟩ := s
  cases mLocal with
  | some n => rfl
  | none =>
    cases hname : mSock.bind Endpoint.sockname with
    | none => simp [getLocalAddress, sockname, hname, report]
    | some n => simp [getLocalAddress, sockname, hname, report, hf.ne_unix]

theorem getremoteAddress_eq (hf : Ip f) (s : Socket f) :
    getremoteAddress s = .ok (report (s.mRemoteAddress.or s.peername))
      { s with mRemoteAddress := s.mRemoteAddress.or s.peername } := by
  obtain ⟨mSock, connected, mLocal, mRemote⟩ := s
  cases mRemote with
  | some n => rfl
  | none =>
    cases hname : mSock.bind Endpoint.peername with
    | none => simp [getremoteAddress, peername, hname, report]
    | some n => simp [getremoteAddress, peername, hname, report, hf.ne_unix]

theorem report_or_eq_iff (hf : Ip f) {kept name : Option f.Name} :
    report (kept.or name) = report name ↔ Fits kept name := by
  cases kept with
  | none => exact iff_of_true rfl (none_fits _)
  | some n =>
    rw [Option.some_or, show report (some n) = f.address n from rfl, address_eq_report_iff hf]
    constructor
    · intro h m hm
      rwa [← Option.some.inj hm]
    · exact fun h => h n rfl

theorem fresh_iff (hf : Ip f) (s : Socket f) : s.LocalFresh ∧ s.RemoteFresh ↔ s.Fresh := by
  rw [LocalFresh, RemoteFresh, getLocalAddress_eq hf, getremoteAddress_eq hf, Fresh]
  refine and_congr ?_ ?_
  · rw [← report_or_eq_iff hf]
    exact ⟨fun ⟨t, h⟩ => by injection h, fun h => ⟨_, by rw [h]⟩⟩
  · rw [← report_or_eq_iff hf]
    exact ⟨fun ⟨t, h⟩ => by injection h, fun h => ⟨_, by rw [h]⟩⟩

/-! ## What each method does -/

/-- A call that gets as far as the kernel. -/
def Reaches (s : Socket f) (addr : Address) (kernel : Answers f) : Prop :=
  addr.getFamily = f ∧ (s.ensureSock kernel.socket).isValid = true

/-- Only the descriptor may be another one. -/
theorem ensureSock_eq (s : Socket f) (answer : Option (Endpoint f)) :
    ∃ mSock, s.ensureSock answer = { s with mSock } := by
  unfold ensureSock
  cases s.isValid with
  | true => exact ⟨s.mSock, rfl⟩
  | false => exact ⟨answer, rfl⟩

theorem bind_stops {s : Socket f} {addr : Address} {kernel : Answers f}
    (h : s.Reaches addr kernel → kernel.call = none) :
    Socket.bind addr kernel s = .ok false (s.ensureSock kernel.socket) := by
  unfold Socket.bind
  by_cases hvalid : (s.ensureSock kernel.socket).isValid = false
  · simp [hvalid]
  · by_cases hfamily : addr.getFamily = f
    · simp [hvalid, hfamily, h ⟨hfamily, by simpa using hvalid⟩]
    · simp [hvalid, hfamily]

theorem bind_succeeds (hf : Ip f) {s : Socket f} {addr : Address} {kernel : Answers f}
    {e : Endpoint f} (h : s.Reaches addr kernel) (he : kernel.call = some e) :
    Socket.bind addr kernel s = .ok true
      { s with mSock := some e, mLocalAddress := s.mLocalAddress.or e.sockname } := by
  obtain ⟨hfamily, hvalid⟩ := h
  obtain ⟨mSock, hsock⟩ := ensureSock_eq s kernel.socket
  unfold Socket.bind
  rw [hsock] at hvalid ⊢
  simp [hfamily, hvalid, he, bind_ok (getLocalAddress_eq hf _), pure_apply, sockname]

theorem connect_stops {s : Socket f} {addr : Address} {kernel : Answers f}
    (h : ¬s.Reaches addr kernel) :
    Socket.connect addr kernel s = .ok false (s.ensureSock kernel.socket) := by
  unfold Socket.connect
  by_cases hvalid : (s.ensureSock kernel.socket).isValid = false
  · simp [hvalid]
  · have hfamily : addr.getFamily ≠ f := fun hfamily => h ⟨hfamily, by simpa using hvalid⟩
    simp [hvalid, hfamily]

theorem close_valid {s : Socket f} (h : s.isValid = true) :
    Socket.close s = .ok false { s with mIsConnected := false, mSock := none } := by
  rw [Socket.close, if_neg]
  rintro ⟨-, hnone⟩
  rw [isValid, hnone] at h
  cases h

theorem connect_refused {s : Socket f} {addr : Address} {kernel : Answers f}
    (h : s.Reaches addr kernel) (he : kernel.call = none) :
    Socket.connect addr kernel s = .ok false { s with mIsConnected := false, mSock := none } := by
  obtain ⟨hfamily, hvalid⟩ := h
  obtain ⟨mSock, hsock⟩ := ensureSock_eq s kernel.socket
  unfold Socket.connect
  rw [hsock] at hvalid ⊢
  simp [hfamily, hvalid, he, bind_ok (close_valid hvalid), pure_apply]

theorem connect_succeeds (hf : Ip f) {s : Socket f} {addr : Address} {kernel : Answers f}
    {e : Endpoint f} (h : s.Reaches addr kernel) (he : kernel.call = some e) :
    Socket.connect addr kernel s = .ok true
      { s with
        mSock := some e
        mIsConnected := true
        mLocalAddress := s.mLocalAddress.or e.sockname
        mRemoteAddress := s.mRemoteAddress.or e.peername } := by
  obtain ⟨hfamily, hvalid⟩ := h
  obtain ⟨mSock, hsock⟩ := ensureSock_eq s kernel.socket
  unfold Socket.connect
  rw [hsock] at hvalid ⊢
  simp [hfamily, hvalid, he, bind_ok (getLocalAddress_eq hf _),
    bind_ok (getremoteAddress_eq hf _), pure_apply, sockname, peername]

/-! ## What is fresh after it -/

theorem Fresh.of_invalid {s : Socket f} (h : s.Fresh) (hvalid : s.mSock = none) : s.Uncached := by
  obtain ⟨hlocal, hremote⟩ := h
  rw [sockname, hvalid] at hlocal
  rw [peername, hvalid] at hremote
  exact ⟨fits_none_iff.mp hlocal, fits_none_iff.mp hremote⟩

theorem Uncached.fresh {s : Socket f} (h : s.Uncached) : s.Fresh := by
  rw [Fresh, h.1, h.2]
  exact ⟨none_fits _, none_fits _⟩

/-- A new descriptor is taken only where nothing is kept. -/
theorem Fresh.ensureSock {s : Socket f} (h : s.Fresh) (answer : Option (Endpoint f)) :
    (s.ensureSock answer).Fresh := by
  unfold Socket.ensureSock
  cases hvalid : s.isValid with
  | true => exact h
  | false =>
    have hnone : s.mSock = none := by simpa [isValid] using hvalid
    have huncached := h.of_invalid hnone
    exact Uncached.fresh huncached

/-- Without a descriptor nothing may be kept. -/
theorem fresh_invalid_iff {s : Socket f} (hvalid : s.mSock = none) : s.Fresh ↔ s.Uncached :=
  ⟨fun h => h.of_invalid hvalid, Uncached.fresh⟩

/-! ## The condition -/

/-- What the kernel names is what is kept, after a success and where it changes the socket;
and once there was a success nothing is kept of a descriptor that is closed. -/
def Call.Meets (s : Life f) : Call f → Prop
  | .bind addr kernel => s.sock.Reaches addr kernel →
      ∀ e, kernel.call = some e → s.sock.KeepsOf e
  | .connect addr kernel => s.sock.Reaches addr kernel →
      (∀ e, kernel.call = some e → s.sock.KeepsOf e) ∧
      (kernel.call = none → s.succeeded = true → s.sock.Uncached)
  | .close => s.succeeded = true → s.sock.Uncached
  | .getLocalAddress => True
  | .getremoteAddress => True
  | .change e => s.succeeded = true → s.sock.isValid = true → s.sock.KeepsOf e

/-- What the call leaves is fresh, once there was a success, exactly if it meets the
condition. -/
def Call.Decides (s : Life f) (c : Call f) : Prop :=
  ∃ r k, c.run s.sock = .ok r k ∧ (((s.succeeded || r) = true → k.Fresh) ↔ c.Meets s)

section
variable {s : Life f}

theorem bind_decides (hf : Ip f) (h : s.succeeded = true → s.sock.Fresh) (addr : Address)
    (kernel : Answers f) : (Call.bind addr kernel).Decides s := by
  by_cases hcall : s.sock.Reaches addr kernel → kernel.call = none
  · refine ⟨false, _, bind_stops hcall, ?_⟩
    rw [Bool.or_false]
    refine iff_of_true (fun hs => (h hs).ensureSock _) fun hreach e he => ?_
    rw [hcall hreach] at he
    cases he
  · obtain ⟨hreach, hcall⟩ := Classical.not_imp.mp hcall
    obtain ⟨e, he⟩ := Option.ne_none_iff_exists'.mp hcall
    refine ⟨true, _, bind_succeeds hf hreach he, ?_⟩
    rw [Bool.or_true]
    simp only [Call.Meets, hreach, he, forall_const, Option.some.injEq, forall_eq', Fresh,
      KeepsOf, sockname, peername, Option.bind_some, fits_or_iff]

theorem connect_decides (hf : Ip f) (h : s.succeeded = true → s.sock.Fresh) (addr : Address)
    (kernel : Answers f) : (Call.connect addr kernel).Decides s := by
  by_cases hreach : s.sock.Reaches addr kernel
  · cases hcall : kernel.call with
    | none =>
      refine ⟨false, _, connect_refused hreach hcall, ?_⟩
      rw [Bool.or_false, fresh_invalid_iff rfl]
      simp only [Call.Meets, hreach, hcall, forall_const, reduceCtorEq, false_implies,
        implies_true, true_and, Uncached]
    | some e =>
      refine ⟨true, _, connect_succeeds hf hreach hcall, ?_⟩
      rw [Bool.or_true]
      simp only [Call.Meets, hreach, hcall, forall_const, Option.some.injEq, forall_eq',
        reduceCtorEq, false_implies, and_true, Fresh, KeepsOf, sockname, peername,
        Option.bind_some, fits_or_iff]
  · refine ⟨false, _, connect_stops hreach, ?_⟩
    rw [Bool.or_false]
    exact iff_of_true (fun hs => (h hs).ensureSock _) fun hr => absurd hr hreach

theorem close_decides (h : s.succeeded = true → s.sock.Fresh) : Call.close.Decides s := by
  by_cases hidle : s.sock.mIsConnected = false ∧ s.sock.mSock = none
  · have hclose : Socket.close s.sock = .ok true s.sock := by rw [Socket.close, if_pos hidle]
    refine ⟨false, _, bind_ok hclose, ?_⟩
    rw [Bool.or_false]
    exact iff_of_true h fun hs => (h hs).of_invalid hidle.2
  · have hclose : Socket.close s.sock =
        .ok false { s.sock with mIsConnected := false, mSock := none } := by
      rw [Socket.close, if_neg hidle]
    refine ⟨false, _, bind_ok hclose, ?_⟩
    rw [Bool.or_false, fresh_invalid_iff rfl]
    rfl

theorem getLocalAddress_decides (hf : Ip f) (h : s.succeeded = true → s.sock.Fresh) :
    Call.getLocalAddress.Decides s := by
  refine ⟨false, _, bind_ok (getLocalAddress_eq hf _), ?_⟩
  rw [Bool.or_false]
  exact iff_of_true (fun hs => ⟨fits_or_iff.mpr (h hs).1, (h hs).2⟩) trivial

theorem getremoteAddress_decides (hf : Ip f) (h : s.succeeded = true → s.sock.Fresh) :
    Call.getremoteAddress.Decides s := by
  refine ⟨false, _, bind_ok (getremoteAddress_eq hf _), ?_⟩
  rw [Bool.or_false]
  exact iff_of_true (fun hs => ⟨(h hs).1, fits_or_iff.mpr (h hs).2⟩) trivial

theorem change_decides (h : s.succeeded = true → s.sock.Fresh) (e : Endpoint f) :
    (Call.change e).Decides s := by
  refine ⟨false, _, rfl, ?_⟩
  rw [Bool.or_false]
  cases hvalid : s.sock.isValid with
  | true =>
    simp only [Call.Meets, hvalid, forall_const, if_true]
    rfl
  | false => exact iff_of_true h fun _ hv => absurd (hvalid.symm.trans hv) Bool.false_ne_true

theorem call_decides (hf : Ip f) (h : s.succeeded = true → s.sock.Fresh) (c : Call f) :
    c.Decides s := by
  cases c with
  | bind addr kernel => exact bind_decides hf h addr kernel
  | connect addr kernel => exact connect_decides hf h addr kernel
  | close => exact close_decides h
  | getLocalAddress => exact getLocalAddress_decides hf h
  | getremoteAddress => exact getremoteAddress_decides hf h
  | change e => exact change_decides h e

/-- One step. -/
theorem step_fresh_iff (hf : Ip f) {t : Life f} {c : Call f}
    (h : s.succeeded = true → s.sock.Fresh) (hstep : (machine f).step s c t) :
    (t.succeeded = true → t.sock.Fresh) ↔ c.Meets s := by
  obtain ⟨r, hrun, hsucceeded⟩ := hstep
  obtain ⟨r', k, hcall, hdecides⟩ := call_decides hf h c
  rw [hcall] at hrun
  injection hrun with hr hk
  rw [hsucceeded, ← hr, ← hk]
  exact hdecides

end

/-! ## Every run -/

theorem restrict_inductive (hf : Ip f) :
    ((machine f).restrict fun s c => c.Meets s).Inductive
      fun s => s.succeeded = true → s.sock.Fresh where
  init _ hs hsucceeded := absurd (hs.1.symm.trans hsucceeded) Bool.false_ne_true
  step _ _ _ h hstep := (step_fresh_iff hf h hstep.1).mpr hstep.2

theorem notStale_iff (hf : Ip f) (s : Life f) :
    NotStale s ↔ (s.succeeded = true → s.sock.Fresh) := by
  rw [NotStale, fresh_iff hf]

/-- The getters are right in every state of a run whose steps meet the condition, and the
first step that does not makes one of them wrong. -/
theorem names_not_stale_iff (f : Family) (hf : Ip f) :
    (∀ s, Reachable ((machine f).restrict fun s c => c.Meets s) s → NotStale s) ∧
      ∀ s t c, Reachable ((machine f).restrict fun s c => c.Meets s) s →
        (machine f).step s c t → (NotStale t ↔ c.Meets s) := by
  refine ⟨fun _ hs => ?_, fun s t c hs hstep => ?_⟩
  · rw [notStale_iff hf]
    exact (restrict_inductive hf).reachable hs
  · rw [notStale_iff hf]
    exact step_fresh_iff hf ((restrict_inductive hf).reachable hs) hstep

theorem names_not_stale_iff_ipv4 :
    (∀ s, Reachable ((machine .ipv4).restrict fun s c => c.Meets s) s → NotStale s) ∧
      ∀ s t c, Reachable ((machine .ipv4).restrict fun s c => c.Meets s) s →
        (machine .ipv4).step s c t → (NotStale t ↔ c.Meets s) :=
  names_not_stale_iff .ipv4 (.inl rfl)

/-- Bound to port 80, closed, and bound to port 81. -/
theorem rebound_stale : ∃ s : Life .ipv4, Reachable (machine .ipv4) s ∧
    s.sock.sockname = some (anyAddress 81) ∧
    (∃ t, getLocalAddress s.sock = .ok (.ipv4 (anyAddress 80)) t) ∧ ¬NotStale s := by
  have hnew : Reachable (machine .ipv4) ⟨new .ipv4, false⟩ := .init ⟨rfl, .inl rfl⟩
  have hbound : Reachable (machine .ipv4)
      ⟨⟨some (boundTo 80), false, some (anyAddress 80), none⟩, true⟩ :=
    hnew.step (l := .bind (.ipv4 (anyAddress 80)) ⟨some (boundTo 0), some (boundTo 80)⟩)
      ⟨true, rfl, rfl⟩
  have hclosed : Reachable (machine .ipv4) ⟨⟨none, false, some (anyAddress 80), none⟩, true⟩ :=
    hbound.step (l := .close) ⟨false, rfl, rfl⟩
  have hrebound : Reachable (machine .ipv4)
      ⟨⟨some (boundTo 81), false, some (anyAddress 80), none⟩, true⟩ :=
    hclosed.step (l := .bind (.ipv4 (anyAddress 81)) ⟨some (boundTo 0), some (boundTo 81)⟩)
      ⟨true, rfl, rfl⟩
  refine ⟨_, hrebound, rfl, ⟨_, rfl⟩, fun h => ?_⟩
  have hname : some (anyAddress 81) = some (anyAddress 80) :=
    ((fresh_iff (.inl rfl) _).mp (h rfl)).1 _ rfl
  exact absurd hname (by decide)

end Socket

end TwServer
