import TwServer.Address.Model
import TwServer.Lib.Program

/-! `tw::Socket`: the descriptor with the socket of the kernel behind it, and the two
addresses that are kept once they were asked for. -/

namespace TwServer
open Programs Program

/-- `m_family`, as `sa_family` has it in memory where the family has no class of its own. -/
inductive Family
  | ipv4
  | ipv6
  | unix
  | other (v : {v : Vector UInt8 2 // v ≠ afInet ∧ v ≠ afInet6 ∧ v ≠ afUnix})
  deriving DecidableEq

namespace Family

def saFamily : Family → Vector UInt8 2
  | ipv4 => afInet
  | ipv6 => afInet6
  | unix => afUnix
  | other v => v.val

def ofSaFamily (v : Vector UInt8 2) : Family :=
  if h4 : v = afInet then .ipv4
  else if h6 : v = afInet6 then .ipv6
  else if h1 : v = afUnix then .unix
  else .other ⟨v, h4, h6, h1⟩

theorem ofSaFamily_saFamily (f : Family) : ofSaFamily f.saFamily = f := by
  cases f with
  | ipv4 => rfl
  | ipv6 => rfl
  | unix => rfl
  | other v => rw [ofSaFamily, saFamily, dif_neg v.2.1, dif_neg v.2.2.1, dif_neg v.2.2.2]

/-- What `getsockname` and `getpeername` fill; `case AF_UNIX` falls through to the default. -/
def Name : Family → Type
  | ipv4 => SockaddrIn
  | ipv6 => SockaddrIn6
  | unix => Sockaddr
  | other _ => Sockaddr

def address : (f : Family) → f.Name → Address
  | ipv4, n => .ipv4 n
  | ipv6, n => .ipv6 n
  | unix, n => .unknown n
  | other _, n => .unknown n

/-- `UnknownAddress(m_family)`. -/
def unknownAddress (f : Family) : Address := .unknown ⟨f.saFamily, Vector.replicate 14 0⟩

end Family

def Address.getFamily : Address → Family
  | .ipv4 a => .ofSaFamily a.sinFamily
  | .ipv6 a => .ofSaFamily a.sin6Family
  | .unix a => .ofSaFamily a.mAddr.sunFamily
  | .unknown a => .ofSaFamily a.saFamily

/-- A socket of the kernel: its two names, where they can be asked for. -/
structure Endpoint (f : Family) where
  sockname : Option f.Name
  peername : Option f.Name
  listening : Bool

/-- `m_sock` is -1 where there is no socket. -/
structure Socket (f : Family) where
  mSock : Option (Endpoint f)
  mIsConnected : Bool
  mLocalAddress : Option f.Name
  mRemoteAddress : Option f.Name

/-- What the kernel does during one method: the socket that `socket` gives, and the one
that a successful `bind` or `connect` leaves. -/
structure Answers (f : Family) where
  socket : Option (Endpoint f)
  call : Option (Endpoint f)

namespace Socket
variable {f : Family}

def new (f : Family) : Socket f := ⟨none, false, none, none⟩

def isValid (s : Socket f) : Bool := s.mSock.isSome

def sockname (s : Socket f) : Option f.Name := s.mSock.bind Endpoint.sockname

def peername (s : Socket f) : Option f.Name := s.mSock.bind Endpoint.peername

/-- The cast to `UnixAddress` gives a null pointer. -/
def getLocalAddress : Program (Socket f) Address := fun s =>
  match s.mLocalAddress with
  | some n => .ok (f.address n) s
  | none =>
    match s.sockname with
    | none => .ok f.unknownAddress s
    | some n =>
      if f = .unix then .fault .nullPointer
      else .ok (f.address n) { s with mLocalAddress := some n }

def getremoteAddress : Program (Socket f) Address := fun s =>
  match s.mRemoteAddress with
  | some n => .ok (f.address n) s
  | none =>
    match s.peername with
    | none => .ok f.unknownAddress s
    | some n =>
      if f = .unix then .fault .nullPointer
      else .ok (f.address n) { s with mRemoteAddress := some n }

def newSock (answer : Option (Endpoint f)) (s : Socket f) : Socket f := { s with mSock := answer }

/-- `if(!isValid()) newSock()`. -/
def ensureSock (answer : Option (Endpoint f)) (s : Socket f) : Socket f :=
  if s.isValid then s else s.newSock answer

def close : Program (Socket f) Bool := fun s =>
  if s.mIsConnected = false ∧ s.mSock = none then .ok true s
  else .ok false { s with mIsConnected := false, mSock := none }

def bind (addr : Address) (kernel : Answers f) : Program (Socket f) Bool := fun s =>
  let s := s.ensureSock kernel.socket
  if s.isValid = false then .ok false s
  else if addr.getFamily ≠ f then .ok false s
  else
    match kernel.call with
    | none => .ok false s
    | some e => (do let _ ← getLocalAddress; return true) { s with mSock := some e }

def connect (addr : Address) (kernel : Answers f) : Program (Socket f) Bool := fun s =>
  let s := s.ensureSock kernel.socket
  if s.isValid = false then .ok false s
  else if addr.getFamily ≠ f then .ok false s
  else
    match kernel.call with
    | none => (do let _ ← close; return false) s
    | some e => (do let _ ← getLocalAddress; let _ ← getremoteAddress; return true)
        { s with mSock := some e, mIsConnected := true }

def listen (succeeds : Bool) : Program (Socket f) Bool := fun s =>
  match s.mSock with
  | none => .ok false s
  | some e =>
    if succeeds then .ok true { s with mSock := some { e with listening := true } }
    else .ok false s

/-- `init(sock)` for a socket that `accept` gives. -/
def init (e : Endpoint f) : Program (Socket f) Bool := fun s =>
  (do let _ ← getLocalAddress; let _ ← getremoteAddress; return true)
    { s with mSock := some e, mIsConnected := true }

end Socket

/-- 0.0.0.0 with a port below 256. -/
def anyAddress (port : UInt8) : SockaddrIn :=
  ⟨afInet, #v[0, port], Vector.replicate 4 0, Vector.replicate 8 0⟩

def boundTo (port : UInt8) : Endpoint .ipv4 := ⟨some (anyAddress port), none, false⟩

end TwServer
