import TwServer.Socket.Model

/-! `TcpServer::bind`: the sockets of a call go into `m_socks` one by one, and a failure
takes all of them out. -/

namespace TwServer
open Programs Program

/-- A socket of any family. -/
abbrev AnySocket := Σ f : Family, Socket f

structure TcpServer where
  mSocks : List AnySocket

/-- An address of a call and what the kernel does for it. -/
structure Attempt where
  addr : Address
  kernel : Answers addr.getFamily
  listens : Bool

namespace Attempt

/-- The socket of an address that was bound and is listening. -/
def newSocket (t : Attempt) : Option AnySocket :=
  match t.kernel.socket, t.kernel.call, t.listens with
  | some _, some e, true =>
    some ⟨_, some { e with listening := true }, false, e.sockname, none⟩
  | _, _, _ => none

def failing (t : Attempt) : List Address := if t.newSocket.isSome then [] else [t.addr]

/-- A name of the family `AF_UNIX` is asked for. -/
def crashes (t : Attempt) : Bool :=
  t.addr.getFamily = .unix && t.kernel.socket.isSome &&
    (t.kernel.call.bind Endpoint.sockname).isSome

end Attempt

namespace TcpServer

/-- One round of the loop, on `m_socks` and `fails`. -/
def bindOne (t : Attempt) : Program (List AnySocket × List Address) Unit := fun (socks, fails) =>
  let sock := Socket.new t.addr.getFamily
  match sock.bind t.addr t.kernel with
  | .ok false _ => .ok () (socks, fails ++ [t.addr])
  | .ok true sock =>
    match sock.listen t.listens with
    | .ok false _ => .ok () (socks, fails ++ [t.addr])
    | .ok true sock => .ok () (socks ++ [⟨_, sock⟩], fails)
    | .throw what _ => .throw what (socks, fails)
    | .fault why => .fault why
  | .throw what _ => .throw what (socks, fails)
  | .fault why => .fault why

def bindLoop : List Attempt → Program (List AnySocket × List Address) Unit
  | [] => return ()
  | t :: ts => do
    bindOne t
    bindLoop ts

/-- The server that it leaves and the caller's `fails`. -/
def bind (addrs : List Attempt) : Program (TcpServer × List Address) Bool := fun (server, fails) =>
  match bindLoop addrs (server.mSocks, fails) with
  | .ok _ (socks, fails) =>
    if fails = [] then .ok true (⟨socks⟩, fails) else .ok false (⟨[]⟩, fails)
  | .throw what (socks, fails) => .throw what (⟨socks⟩, fails)
  | .fault why => .fault why

/-! ## One round -/

theorem getLocalAddress_uncached {f : Family} {e : Endpoint f}
    (h : f = .unix → e.sockname = none) :
    ∃ a, Socket.getLocalAddress ⟨some e, false, none, none⟩ =
      .ok a ⟨some e, false, e.sockname, none⟩ := by
  obtain ⟨sockname, peername, listening⟩ := e
  cases sockname with
  | none => exact ⟨_, rfl⟩
  | some n =>
    have hf : f ≠ .unix := fun hf => nomatch h hf
    refine ⟨f.address n, ?_⟩
    simp [Socket.getLocalAddress, Socket.sockname, hf]

theorem getLocalAddress_unix {f : Family} {e : Endpoint f} (hf : f = .unix)
    (h : e.sockname.isSome = true) :
    Socket.getLocalAddress ⟨some e, false, none, none⟩ = .fault .nullPointer := by
  obtain ⟨n, hn⟩ := Option.isSome_iff_exists.mp h
  simp [Socket.getLocalAddress, Socket.sockname, hn, hf]

/-- No socket, or an address that the kernel refuses. -/
theorem bind_new_refused {addr : Address} {kernel : Answers addr.getFamily}
    (h : kernel.socket = none ∨ kernel.call = none) :
    ∃ sock, (Socket.bind addr kernel) (Socket.new addr.getFamily) = .ok false sock := by
  obtain ⟨socket, call⟩ := kernel
  cases socket with
  | none => exact ⟨_, rfl⟩
  | some e₀ =>
    obtain rfl : call = none := h.resolve_left (by simp)
    refine ⟨⟨some e₀, false, none, none⟩, ?_⟩
    simp [Socket.bind, Socket.ensureSock, Socket.newSock, Socket.isValid, Socket.new]

theorem bind_new_accepted {addr : Address} (e₀ e : Endpoint addr.getFamily) :
    (Socket.bind addr ⟨some e₀, some e⟩) (Socket.new addr.getFamily) =
      (do let _ ← Socket.getLocalAddress; return true) ⟨some e, false, none, none⟩ := by
  simp [Socket.bind, Socket.ensureSock, Socket.newSock, Socket.isValid, Socket.new]

theorem bindOne_eq {t : Attempt} (h : t.crashes = false) (socks : List AnySocket)
    (fails : List Address) :
    bindOne t (socks, fails) = .ok () (socks ++ t.newSocket.toList, fails ++ t.failing) := by
  obtain ⟨addr, ⟨socket, call⟩, listens⟩ := t
  by_cases hrefused : socket = none ∨ call = none
  · have hbind : ∃ sock, (Socket.bind addr ⟨socket, call⟩) (Socket.new addr.getFamily) =
        .ok false sock := bind_new_refused hrefused
    obtain ⟨sock, hsock⟩ := hbind
    have hnone : Attempt.newSocket ⟨addr, ⟨socket, call⟩, listens⟩ = none := by
      rcases hrefused with rfl | rfl
      · rfl
      · cases socket with
        | none => rfl
        | some e₀ => rfl
    simp [bindOne, hsock, hnone, Attempt.failing]
  · obtain ⟨hsocket, hcall⟩ := not_or.mp hrefused
    obtain ⟨e₀, rfl⟩ := Option.ne_none_iff_exists'.mp hsocket
    obtain ⟨e, rfl⟩ := Option.ne_none_iff_exists'.mp hcall
    have hname : addr.getFamily = .unix → e.sockname = none := fun hf => by
      simpa [Attempt.crashes, hf] using h
    obtain ⟨a, ha⟩ := getLocalAddress_uncached hname
    have hbind := bind_new_accepted e₀ e
    rw [bind_ok ha] at hbind
    cases listens with
    | false => simp [bindOne, hbind, pure_apply, Socket.listen, Attempt.newSocket, Attempt.failing]
    | true => simp [bindOne, hbind, pure_apply, Socket.listen, Attempt.newSocket, Attempt.failing]

theorem bindOne_fault {t : Attempt} (h : t.crashes = true) (socks : List AnySocket)
    (fails : List Address) : bindOne t (socks, fails) = .fault .nullPointer := by
  obtain ⟨addr, ⟨socket, call⟩, listens⟩ := t
  cases socket with
  | none => simp [Attempt.crashes] at h
  | some e₀ =>
    cases call with
    | none => simp [Attempt.crashes] at h
    | some e =>
      obtain ⟨hf, hname⟩ : addr.getFamily = .unix ∧ e.sockname.isSome = true := by
        simpa [Attempt.crashes] using h
      have hbind := bind_new_accepted e₀ e
      rw [bind_fault (getLocalAddress_unix hf hname)] at hbind
      simp [bindOne, hbind]

/-! ## The loop -/

theorem bindLoop_eq {addrs : List Attempt} (h : ∀ t ∈ addrs, t.crashes = false)
    (socks : List AnySocket) (fails : List Address) :
    bindLoop addrs (socks, fails) = .ok ()
      (socks ++ addrs.filterMap Attempt.newSocket, fails ++ addrs.flatMap Attempt.failing) := by
  induction addrs generalizing socks fails with
  | nil => simp [bindLoop, pure_apply]
  | cons t ts ih =>
    rw [bindLoop, bind_ok (bindOne_eq (h t List.mem_cons_self) socks fails),
      ih fun u hu => h u (List.mem_cons_of_mem t hu)]
    cases ht : t.newSocket with
    | none => simp [ht]
    | some sock => simp [ht]

theorem bindLoop_fault {addrs : List Attempt} (h : ∃ t ∈ addrs, t.crashes = true)
    (socks : List AnySocket) (fails : List Address) :
    bindLoop addrs (socks, fails) = .fault .nullPointer := by
  induction addrs generalizing socks fails with
  | nil => simp at h
  | cons t ts ih =>
    by_cases ht : t.crashes = true
    · exact bind_fault (bindOne_fault ht socks fails)
    · rw [bindLoop, bind_ok (bindOne_eq (by simpa using ht) socks fails)]
      refine ih ?_ _ _
      obtain ⟨u, hu, hcrash⟩ := h
      rcases List.mem_cons.mp hu with rfl | hu
      · exact absurd hcrash ht
      · exact ⟨u, hu, hcrash⟩

/-! ## All or nothing -/

/-- A call binds all its addresses or changes nothing but `fails`. -/
def BindRight (server : TcpServer) (addrs : List Attempt) (fails : List Address) : Prop :=
  ∃ r server' fails', bind addrs (server, fails) = .ok r (server', fails') ∧
    (r = true ↔ ∀ t ∈ addrs, t.newSocket.isSome = true) ∧
    (r = true → server'.mSocks = server.mSocks ++ addrs.filterMap Attempt.newSocket) ∧
    (r = false → fails' = fails ++ addrs.flatMap Attempt.failing ∧ server'.mSocks = server.mSocks)

theorem failing_eq_nil_iff {addrs : List Attempt} :
    addrs.flatMap Attempt.failing = [] ↔ ∀ t ∈ addrs, t.newSocket.isSome = true := by
  rw [List.flatMap_eq_nil_iff]
  refine forall₂_congr fun t _ => ?_
  unfold Attempt.failing
  by_cases h : t.newSocket.isSome = true
  · simp [h]
  · simp [h]

/-- The caller's vector decides what is a success, and a failure takes the sockets of earlier
calls with it. -/
theorem bindRight_iff (server : TcpServer) (addrs : List Attempt) (fails : List Address) :
    BindRight server addrs fails ↔ (∀ t ∈ addrs, t.crashes = false) ∧
      if ∀ t ∈ addrs, t.newSocket.isSome = true then fails = [] else server.mSocks = [] := by
  by_cases hcrash : ∃ t ∈ addrs, t.crashes = true
  · have hfault : bind addrs (server, fails) = .fault .nullPointer := by
      rw [bind, bindLoop_fault hcrash]
    constructor
    · rintro ⟨r, server', fails', h, -⟩
      rw [hfault] at h
      cases h
    · rintro ⟨h, -⟩
      obtain ⟨t, ht, hcrash⟩ := hcrash
      rw [h t ht] at hcrash
      cases hcrash
  · have hsafe : ∀ t ∈ addrs, t.crashes = false := by simpa using hcrash
    simp only [BindRight, bind, bindLoop_eq hsafe, List.append_eq_nil_iff, failing_eq_nil_iff]
    by_cases hall : ∀ t ∈ addrs, t.newSocket.isSome = true
    · rw [if_pos hall]
      by_cases hfails : fails = []
      · rw [if_pos ⟨hfails, hall⟩]
        exact ⟨fun _ => ⟨hsafe, hfails⟩, fun _ =>
          ⟨_, _, _, rfl, iff_of_true rfl hall, fun _ => rfl, fun h => nomatch h⟩⟩
      · rw [if_neg fun h => hfails h.1]
        constructor
        · rintro ⟨r, server', fails', h, hr, -⟩
          cases h
          exact absurd (hr.mpr hall) (by decide)
        · exact fun h => absurd h.2 hfails
    · rw [if_neg hall, if_neg fun h => hall h.2]
      constructor
      · rintro ⟨r, server', fails', h, -, -, hfalse⟩
        cases h
        exact ⟨hsafe, (hfalse rfl).2.symm⟩
      · rintro ⟨-, hsocks⟩
        exact ⟨_, _, _, rfl, iff_of_false Bool.false_ne_true hall, (fun h => nomatch h),
          fun _ => ⟨rfl, hsocks.symm⟩⟩

/-! ## A server that loses a socket -/

/-- An address that the kernel binds, and one that is in use. -/
def accepted (port : UInt8) : Attempt :=
  ⟨.ipv4 (anyAddress port), ⟨some (boundTo 0), some (boundTo port)⟩, true⟩

def refused (port : UInt8) : Attempt := ⟨.ipv4 (anyAddress port), ⟨some (boundTo 0), none⟩, true⟩

/-- A first call binds port 80 and a second one fails: the socket of the first is gone. And
where the vector is not empty a call that binds its address reports a failure. -/
theorem failed_bind_clears :
    ∃ server sock, bind [accepted 80] (⟨[]⟩, []) = .ok true (server, []) ∧
      server.mSocks = [sock] ∧
      bind [refused 81] (server, []) = .ok false (⟨[]⟩, [.ipv4 (anyAddress 81)]) ∧
      ¬BindRight server [refused 81] [] ∧
      ¬BindRight ⟨[]⟩ [accepted 80] [.ipv4 (anyAddress 81)] := by
  refine ⟨⟨[⟨.ipv4, some { boundTo 80 with listening := true }, false,
    some (anyAddress 80), none⟩]⟩, _, rfl, rfl, rfl, fun h => ?_, fun h => ?_⟩
  · have hcond := ((bindRight_iff _ _ _).mp h).2
    rw [if_neg (by decide)] at hcond
    cases hcond
  · have hcond := ((bindRight_iff _ _ _).mp h).2
    rw [if_pos (by decide)] at hcond
    cases hcond

end TcpServer

end TwServer
