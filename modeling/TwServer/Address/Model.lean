import TwServer.Lib.Memcmp
import Mathlib.Data.UInt

/-! `tw::Address` and its four families: a `sockaddr` in memory, field after field, and
how many bytes of it count. Ports and IPv4 addresses are in network byte order. -/

namespace TwServer

structure SockaddrIn where
  sinFamily : Vector UInt8 2
  sinPort : Vector UInt8 2
  sinAddr : Vector UInt8 4
  sinZero : Vector UInt8 8
  deriving DecidableEq

structure SockaddrIn6 where
  sin6Family : Vector UInt8 2
  sin6Port : Vector UInt8 2
  sin6Flowinfo : Vector UInt8 4
  sin6Addr : Vector UInt8 16
  sin6ScopeId : Vector UInt8 4
  deriving DecidableEq

structure SockaddrUn where
  sunFamily : Vector UInt8 2
  sunPath : Vector UInt8 108
  deriving DecidableEq

structure Sockaddr where
  saFamily : Vector UInt8 2
  saData : Vector UInt8 14
  deriving DecidableEq

/-- `m_length` bytes of a `sockaddr_un`. -/
structure UnixAddress where
  mAddr : SockaddrUn
  mLength : Nat
  mLength_le : mLength ≤ 110

inductive Address where
  | ipv4 (mAddr : SockaddrIn)
  | ipv6 (mAddr : SockaddrIn6)
  | unix (address : UnixAddress)
  | unknown (mAddr : Sockaddr)

namespace Address

/-- The memory behind `getAddr()`. -/
def getAddr : Address → List UInt8
  | ipv4 a => a.sinFamily.toList ++ a.sinPort.toList ++ a.sinAddr.toList ++ a.sinZero.toList
  | ipv6 a => a.sin6Family.toList ++ a.sin6Port.toList ++ a.sin6Flowinfo.toList ++
      a.sin6Addr.toList ++ a.sin6ScopeId.toList
  | unix a => a.mAddr.sunFamily.toList ++ a.mAddr.sunPath.toList
  | unknown a => a.saFamily.toList ++ a.saData.toList

def getAddrLen : Address → Nat
  | ipv4 _ => 16
  | ipv6 _ => 28
  | unix a => a.mLength
  | unknown _ => 16

/-- The bytes that are compared are in the memory. -/
theorem getAddrLen_le (a : Address) : a.getAddrLen ≤ a.getAddr.length := by
  cases a with
  | ipv4 a => simp [getAddrLen, getAddr]
  | ipv6 a => simp [getAddrLen, getAddr]
  | unix a => simpa [getAddrLen, getAddr] using a.mLength_le
  | unknown a => simp [getAddrLen, getAddr]

/-- The bytes of the `sockaddr`. -/
def bytes (a : Address) : List UInt8 := a.getAddr.take a.getAddrLen

theorem length_bytes (a : Address) : a.bytes.length = a.getAddrLen :=
  List.length_take_of_le a.getAddrLen_le

/-! ## Comparing -/

def operatorLess (a rhs : Address) : Bool :=
  let minlen := min a.getAddrLen rhs.getAddrLen
  let result := Memcmp.memcmp a.getAddr rhs.getAddr minlen
  if result < 0 then false
  else if result > 0 then false
  else if a.getAddrLen < rhs.getAddrLen then true
  else false

def operatorEq (a rhs : Address) : Bool :=
  a.getAddrLen = rhs.getAddrLen && Memcmp.memcmp a.getAddr rhs.getAddr a.getAddrLen = 0

end Address

/-! ## Network byte order -/

def htons (n : BitVec 16) : Vector UInt8 2 := #v[⟨n.extractLsb' 8 8⟩, ⟨n.extractLsb' 0 8⟩]

def htonl (n : BitVec 32) : Vector UInt8 4 :=
  #v[⟨n.extractLsb' 24 8⟩, ⟨n.extractLsb' 16 8⟩, ⟨n.extractLsb' 8 8⟩, ⟨n.extractLsb' 0 8⟩]

def ntohs (v : Vector UInt8 2) : BitVec 16 := v[0].toBitVec ++ v[1].toBitVec

theorem ntohs_inj {v w : Vector UInt8 2} (h : ntohs v = ntohs w) : v = w := by
  have hlow := congrArg (fun n => n.extractLsb' 0 8) h
  have hhigh := congrArg (fun n => n.extractLsb' 8 8) h
  simp only [ntohs, BitVec.extractLsb'_append_eq_left, BitVec.extractLsb'_append_eq_right]
    at hlow hhigh
  refine Vector.ext fun i hi => ?_
  cases i with
  | zero => exact UInt8.toBitVec_inj.mp hhigh
  | succ i =>
    have hi : i = 0 := by omega
    subst hi
    exact UInt8.toBitVec_inj.mp hlow

theorem ntohs_eq_zero_iff {v : Vector UInt8 2} : ntohs v = 0 ↔ v = #v[0, 0] :=
  ⟨fun h => ntohs_inj (h.trans (by decide)), fun h => h ▸ by decide⟩

/-! ## Constructors -/

/-- `AF_INET` in the byte order of the host. -/
def afInet : Vector UInt8 2 := #v[2, 0]

def afInet6 : Vector UInt8 2 := #v[10, 0]

def afUnix : Vector UInt8 2 := #v[1, 0]

/-- `IPv4Address(address, port)`; the family is in the byte order of the host. -/
def IPv4Address.new (address : BitVec 32) (port : BitVec 16) : Address :=
  .ipv4 ⟨#v[2, 0], htons port, htonl address, Vector.replicate 8 0⟩

/-- `UnixAddress(path)`; an abstract name starts with 0 and has no 0 behind it. The length
is counted in a `socklen_t`. -/
def UnixAddress.new (path : List UInt8) : Except String UnixAddress :=
  let length := (if path.head? = some 0 then path.length else path.length + 1) % 2 ^ 32
  if h : length > 108 then .error "path too long"
  else .ok {
    mAddr := ⟨#v[1, 0],
      ⟨(path.take length ++ List.replicate 108 0).take 108 |>.toArray, by simp⟩⟩
    mLength := length + 2
    mLength_le := by omega }

end TwServer
