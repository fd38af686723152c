import TwServer.ByteArray.Segments
import TwServer.Http.Session
import TwServer.Stream.FixSize

/-! `SocketStream` on a connected socket, with the buffer and the byte array of its
caller. `read` of a byte array hands an empty list of segments to `recvmsg`. -/

namespace TwServer
open Programs Program Blocks Runs TwServer.ByteArray

namespace Stream

/-- A `SocketStream` and what its caller passes to it: the memory behind a `void*` and
a byte array. `input` is what the peer sends, `sent` what it gets. -/
structure Connection where
  connected : Bool
  input : Http.Input
  sent : List UInt8
  buffer : List UInt8
  array : ByteArray

/-- How many of `n` bytes the kernel takes behind those that were sent. -/
structure Kernel where
  takes : List UInt8 → Nat → Nat
  takes_pos : ∀ sent n, 0 < n → 0 < takes sent n
  takes_le : ∀ sent n, takes sent n ≤ n
  takes_fits : ∀ sent n, takes sent n < 2 ^ 31

def onArray {α : Type} (m : Program ByteArray α) : Program Connection α := fun c =>
  (m c.array).map (fun array => { c with array := array }) id

/-- The bytes of all the segments. -/
def total (iovs : List Iovec) : Nat := (iovs.map Iovec.len).sum

/-! ## `Socket` -/

namespace Socket

/-- `recv(buffer, length)`; bytes behind the buffer are not the caller's. -/
def recv (offset length : BitVec 64) : Program Connection Int := fun c =>
  if c.connected then
    let got := c.input.recv length.toNat
    if offset.toNat + got.1.length > c.buffer.length then .fault .outOfBounds
    else
      .ok got.1.length { c with
        input := got.2
        buffer := overwrite c.buffer offset.toNat got.1 }
  else .ok (-1) c

/-- `recv(iovec*, length)`. -/
def recvmsg (iovs : List Iovec) : Program Connection Int := fun c =>
  if c.connected then
    let got := c.input.recv (total iovs)
    .ok got.1.length { c with input := got.2, array := scatter iovs got.1 c.array }
  else .ok (-1) c

def send (kernel : Kernel) (offset length : BitVec 64) : Program Connection Int := fun c =>
  if c.connected then
    if offset.toNat + length.toNat > c.buffer.length then .fault .outOfBounds
    else
      let n := kernel.takes c.sent length.toNat
      .ok n { c with sent := c.sent ++ slice c.buffer offset.toNat n }
  else .ok (-1) c

def sendmsg (kernel : Kernel) (iovs : List Iovec) : Program Connection Int := fun c =>
  if c.connected then
    let n := kernel.takes c.sent (total iovs)
    .ok n { c with sent := c.sent ++ (iovs.flatMap c.array.segment).take n }
  else .ok (-1) c

end Socket

/-! ## `SocketStream` -/

namespace SocketStream

/-- Nothing but -1 from a stream that is not connected. -/
def whenConnected (m : Program Connection Int) : Program Connection Int := fun c =>
  if c.connected then m c else .ok (-1) c

/-- `ba->setPosition(ba->getPosition() + rt)` where `rt` is positive. -/
def movePosition (rt : Int) : Program Connection Unit := fun c =>
  if rt > 0 then onArray (setPosition (c.array.position + rt.toNat)) c else .ok () c

def read (offset length : BitVec 64) : Program Connection Int :=
  whenConnected (Socket.recv offset length)

/-- `iovs` stays empty. -/
def readByteArray (_length : BitVec 64) : Program Connection Int := whenConnected do
  let iovs := []
  let rt ← Socket.recvmsg iovs
  movePosition rt
  return rt

def write (kernel : Kernel) (offset length : BitVec 64) : Program Connection Int :=
  whenConnected (Socket.send kernel offset length)

def writeByteArray (kernel : Kernel) (length : BitVec 64) : Program Connection Int :=
  whenConnected do
    let buffers ← onArray (getReadBuffers length.toNat)
    let rt ← Socket.sendmsg kernel buffers.2
    movePosition rt
    return rt

end SocketStream

def socketStream (kernel : Kernel) : Stream Connection where
  read := SocketStream.read
  readByteArray := SocketStream.readByteArray
  write := SocketStream.write kernel
  writeByteArray := SocketStream.writeByteArray kernel

/-! ## What the byte array is owed -/

section
variable (kernel : Kernel) (c : Connection) (length : BitVec 64)

/-- `read(ba, length)` stores bytes that the peer sent and moves behind them. -/
def ReadStores : Prop :=
  ∃ (r : Nat) (c' : Connection), SocketStream.readByteArray length c = .ok r c' ∧ 1 ≤ r ∧
    r ≤ length.toNat ∧ c'.array.position = c.array.position + r ∧
    slice c'.array.bytes c.array.position r = c.input.bytes.take r ∧
    c'.input.bytes = c.input.bytes.drop r

/-- `write(ba, length)` sends bytes from the position on and moves behind them. -/
def WriteSends : Prop :=
  ∃ (r : Nat) (c' : Connection), SocketStream.writeByteArray kernel length c = .ok r c' ∧ 1 ≤ r ∧
    r ≤ min length.toNat c.array.getReadSize ∧ c'.array.position = c.array.position + r ∧
    c'.array.bytes = c.array.bytes ∧ c'.sent = c.sent ++ slice c.array.bytes c.array.position r

/-- `readFixSize(ba, length)` stores the next `length` bytes that the peer sent. -/
def Delivers : Prop :=
  ∃ fuel c', (socketStream kernel).readFixSizeByteArray length fuel c =
      .ok (some (length.toNat : Int)) c' ∧
    c'.array.position = c.array.position + length.toNat ∧
    slice c'.array.bytes c.array.position length.toNat = c.input.bytes.take length.toNat ∧
    c'.input.bytes = c.input.bytes.drop length.toNat

end

/-! ## Reading -/

section
variable {kernel : Kernel} {c : Connection} {length : BitVec 64}

theorem recv_zero (input : Http.Input) : input.recv 0 = ([], input) := by
  have hnil : (input.recv 0).1 = [] := List.length_eq_zero_iff.mp (Nat.le_zero.mp (input.recv_le 0))
  have hsame := input.recv_snd 0
  rw [hnil, List.length_nil, input.skip_zero] at hsame
  exact Prod.ext hnil hsame

/-- Without segments nothing is read, whatever the peer has sent. -/
theorem readByteArray_eq (h : c.connected = true) (length : BitVec 64) :
    SocketStream.readByteArray length c = .ok 0 c := by
  have hrecv : Socket.recvmsg [] c = .ok 0 c := by
    rw [Socket.recvmsg, if_pos h]
    show Outcome.ok ((c.input.recv 0).1.length : Int)
      { c with input := (c.input.recv 0).2, array := c.array } = _
    rw [recv_zero]
    rfl
  rw [SocketStream.readByteArray, SocketStream.whenConnected, if_pos h, bind_ok hrecv]
  rfl

theorem not_readStores (h : c.connected = true) : ¬ ReadStores c length := by
  rintro ⟨r, c', hrun, hpos, -⟩
  rw [readByteArray_eq h] at hrun
  have hr : (0 : Int) = r := (Outcome.ok.inj hrun).1
  omega

theorem delivers_iff (h : c.connected = true) : Delivers kernel c length ↔ length = 0 := by
  constructor
  · rintro ⟨fuel, c', hrun, -⟩
    by_contra hlength
    cases fuel with
    | zero => cases hrun
    | succ fuel =>
      have hstop : (socketStream kernel).readFixSizeByteArray length (fuel + 1) c =
          .ok (some 0) c := fixLoop_stop hlength rfl (readByteArray_eq h length)
      have hlen : (0 : Int) = length.toNat :=
        Option.some.inj (Outcome.ok.inj (hstop.symm.trans hrun)).1
      exact hlength (BitVec.eq_of_toNat_eq (by simp; omega))
  · rintro rfl
    exact ⟨1, c, rfl, rfl, by simp, by simp⟩

/-! ## Writing -/

theorem iovLoop_total {nodes : List Node} {k npos len : Nat} {iovs : List Iovec}
    (h : iovLoop nodes k npos len = some iovs) : total iovs = len := by
  induction nodes generalizing k npos len iovs with
  | nil => cases h
  | cons node nodes ih =>
    rw [iovLoop] at h
    split at h
    · cases h
      exact Nat.add_zero len
    · obtain ⟨rest, hrest, rfl⟩ := Option.map_eq_some_iff.mp h
      show node.size - npos + total rest = len
      rw [ih hrest]
      omega

theorem onArray_ok {α : Type} {m : Program ByteArray α} {a : α} {s : ByteArray}
    (h : m c.array = .ok a s) : onArray m c = .ok a { c with array := s } := by
  rw [onArray, h]
  rfl

theorem writeByteArray_none (h : c.connected = true)
    (hnone : min length.toNat c.array.getReadSize = 0) :
    SocketStream.writeByteArray kernel length c = .ok 0 c := by
  have hget : onArray (getReadBuffers length.toNat) c = .ok (0, []) c :=
    onArray_ok (getReadBuffers_none hnone)
  have htakes : kernel.takes c.sent 0 = 0 := Nat.le_zero.mp (kernel.takes_le c.sent 0)
  have hsend : Socket.sendmsg kernel [] c = .ok 0 c := by
    rw [Socket.sendmsg, if_pos h]
    show Outcome.ok (kernel.takes c.sent 0 : Int)
      { c with sent := c.sent ++ [].take (kernel.takes c.sent 0) } = _
    rw [htakes, List.take_nil, List.append_nil]
    rfl
  rw [SocketStream.writeByteArray, SocketStream.whenConnected, if_pos h, bind_ok hget, bind_ok hsend]
  rfl

/-- The bytes that the kernel takes of the segments are the next ones of the array. -/
theorem writeByteArray_some (h : c.connected = true) (hwf : WF c.array) {n r : Nat}
    (hn : min length.toNat c.array.getReadSize = n) (hpos : 0 < n)
    (hr : kernel.takes c.sent n = r) :
    SocketStream.writeByteArray kernel length c = .ok (r : Int) { c with
      sent := c.sent ++ slice c.array.bytes c.array.position r
      array := c.array.seek (c.array.position + r) } := by
  subst hn
  obtain ⟨iovs, hbuffers, hloop⟩ := getReadBuffers_some hwf hpos
  have hget := onArray_ok hbuffers
  have hbytes := (segments_spec hwf hpos hloop).1
  rw [Nat.div_add_mod] at hbytes
  have hle := kernel.takes_le c.sent (min length.toNat c.array.getReadSize)
  have hmore := kernel.takes_pos c.sent (min length.toNat c.array.getReadSize) hpos
  rw [hr] at hle hmore
  have hsend : Socket.sendmsg kernel iovs c =
      .ok (r : Int) { c with sent := c.sent ++ slice c.array.bytes c.array.position r } := by
    rw [Socket.sendmsg, if_pos h]
    simp only [iovLoop_total hloop, hr, hbytes, slice, List.take_take, Nat.min_eq_left hle]
  have hin : c.array.position + r ≤ c.array.size := by
    have hread := Nat.le_trans hle (Nat.min_le_right _ _)
    unfold getReadSize at hread
    omega
  rw [SocketStream.writeByteArray, SocketStream.whenConnected, if_pos h, bind_ok hget,
    bind_ok hsend]
  have hmove : SocketStream.movePosition r
      { c with sent := c.sent ++ slice c.array.bytes c.array.position r } = .ok () { c with
        sent := c.sent ++ slice c.array.bytes c.array.position r
        array := c.array.seek (c.array.position + r) } :=
    (if_pos (Int.natCast_pos.mpr hmore)).trans (onArray_ok (setPosition_seek hwf hin))
  rw [bind_ok hmove]
  rfl

theorem writeSends_iff (h : c.connected = true) (harray : Degenerate c.array ∨ WF c.array) :
    WriteSends kernel c length ↔ 0 < min length.toNat c.array.getReadSize := by
  constructor
  · rintro ⟨r, c', hrun, hpos, hle, -⟩
    exact Nat.lt_of_lt_of_le hpos hle
  · intro hpos
    rcases harray with hd | hwf
    · rw [hd.getReadSize, Nat.min_zero] at hpos
      exact absurd hpos (Nat.lt_irrefl 0)
    · have hrun : SocketStream.writeByteArray kernel length c = _ :=
        writeByteArray_some h hwf rfl hpos rfl
      exact ⟨_, _, hrun, kernel.takes_pos _ _ hpos, kernel.takes_le _ _, rfl, rfl, rfl⟩

/-- A loop sends what is left, in as many parts as the kernel makes of it. -/
theorem writeLoop_sends {whole : BitVec 64} {left : Nat} (h : c.connected = true)
    (hwf : WF c.array) (hleft : left ≤ c.array.getReadSize) (hfit : left < 2 ^ 31)
    (offset : BitVec 64) :
    ∃ fuel, fixLoop (fun _ => SocketStream.writeByteArray kernel) whole fuel offset
        (BitVec.ofNat 64 left) c = .ok (some (asInt whole)) { c with
      sent := c.sent ++ slice c.array.bytes c.array.position left
      array := c.array.seek (c.array.position + left) } := by
  induction left using Nat.strongRecOn generalizing c offset with
  | ind left ih =>
    rcases Nat.eq_zero_or_pos left with rfl | hpos
    · refine ⟨1, fixLoop_done.trans ?_⟩
      rw [slice_zero, List.append_nil, Nat.add_zero, seek_self hwf]
    · have hn : min (BitVec.ofNat 64 left).toNat c.array.getReadSize = left := by
        rw [toNat_ofNat_fit hfit, Nat.min_eq_left hleft]
      obtain ⟨r, hr⟩ : ∃ r, kernel.takes c.sent left = r := ⟨_, rfl⟩
      have hle := kernel.takes_le c.sent left
      have hmore := kernel.takes_pos c.sent left hpos
      rw [hr] at hle hmore
      have hrun := writeByteArray_some h hwf hn hpos hr
      have hin : c.array.position + r ≤ c.array.size := by
        unfold getReadSize at hleft
        omega
      have hrest : left - r ≤ (c.array.seek (c.array.position + r)).getReadSize := by
        unfold getReadSize at hleft ⊢
        show left - r ≤ c.array.size - (c.array.position + r)
        omega
      obtain ⟨fuel, hloop⟩ := ih (left - r) (by omega) (c := { c with
        sent := c.sent ++ slice c.array.bytes c.array.position r
        array := c.array.seek (c.array.position + r) }) h (seek_wf hwf hin) hrest (by omega)
        (offset + BitVec.ofNat 64 r)
      refine ⟨fuel + 1, ?_⟩
      have hlen : BitVec.ofInt 64 (r : Int) = BitVec.ofNat 64 r := BitVec.ofInt_natCast 64 r
      rw [fixLoop_step (ofNat_ne_zero (by omega) (by omega))
        (hlen ▸ ofNat_ne_zero (by omega) (by omega)) hrun, hlen, ofNat_sub hle, hloop]
      have hsum : r + (left - r) = left := Nat.add_sub_cancel' hle
      have hsent : c.sent ++ slice c.array.bytes c.array.position r ++
          slice c.array.bytes (c.array.position + r) (left - r) =
          c.sent ++ slice c.array.bytes c.array.position left := by
        rw [List.append_assoc, ← slice_add, hsum]
      have hend : c.array.position + r + (left - r) = c.array.position + left := by
        omega
      show Outcome.ok _ { c with
        sent := c.sent ++ slice c.array.bytes c.array.position r ++
          slice c.array.bytes (c.array.position + r) (left - r)
        array := c.array.seek (c.array.position + r + (left - r)) } = _
      rw [hsent, hend]

/-- `writeFixSize(ba, length)` sends the next `length` bytes of the array. -/
theorem writeFixSize_sends (h : c.connected = true) (hwf : WF c.array) {n : Nat}
    (hn : n ≤ c.array.getReadSize) (hfit : n < 2 ^ 31) :
    ∃ fuel, (socketStream kernel).writeFixSizeByteArray (BitVec.ofNat 64 n) fuel c =
      .ok (some (n : Int)) { c with
        sent := c.sent ++ slice c.array.bytes c.array.position n
        array := c.array.seek (c.array.position + n) } := by
  obtain ⟨fuel, hrun⟩ : ∃ fuel, (socketStream kernel).writeFixSizeByteArray (BitVec.ofNat 64 n)
    fuel c = _ := writeLoop_sends h hwf hn hfit 0
  rw [asInt_ofNat hfit] at hrun
  exact ⟨fuel, hrun⟩

end

/-- On a connected socket `read` stores nothing, `write` sends where there is something
to send, and `readFixSize` is right for no bytes only. -/
theorem socket_transfers_iff {base : Nat} {heap : Nat → UInt8} {kernel : Kernel} {c : Connection}
    (harray : Reachable (machine base heap) c.array) (h : c.connected = true)
    (length : BitVec 64) :
    ¬ ReadStores c length ∧
      (WriteSends kernel c length ↔ 0 < min length.toNat c.array.getReadSize) ∧
      (Delivers kernel c length ↔ length = 0) :=
  ⟨not_readStores h, writeSends_iff h (reachable_cases harray), delivers_iff h⟩

/-- All that is offered, up to a mebibyte. -/
def mebibyte : Kernel where
  takes _ n := min n (2 ^ 20)
  takes_pos := by omega
  takes_le := by omega
  takes_fits := by omega

/-- Three bytes of an array are to be sent, and the peer has sent three. -/
def threeBytes : Connection where
  connected := true
  input := .whole [1, 2, 3] (by decide)
  sent := []
  buffer := []
  array := ⟨4, 0, 4, 3, [⟨[7, 8, 9, 0], 4⟩], some 0, fun _ => 0⟩

theorem threeBytes_reachable : Reachable (machine 4 fun _ => 0) threeBytes.array :=
  Reachable.step (l := .setPosition 0) (Reachable.step (s := new 4 fun _ => 0)
    (l := .write [7, 8, 9]) (Reachable.init rfl) rfl) rfl

theorem socket_transfers_iff_three : WriteSends mebibyte threeBytes 2 :=
  (socket_transfers_iff threeBytes_reachable rfl 2).2.1.mpr (by decide)

/-- The peer has sent three bytes, and the stream comes back with none. -/
theorem read_takes_nothing : ¬ ∀ (base : Nat) (heap : Nat → UInt8) (kernel : Kernel)
    (c : Connection) (length : BitVec 64), Reachable (machine base heap) c.array →
    c.connected = true → c.input.bytes ≠ [] →
    ReadStores c length ∧ WriteSends kernel c length ∧ Delivers kernel c length := by
  intro hall
  exact not_readStores rfl
    (hall 4 (fun _ => 0) mebibyte threeBytes 2 threeBytes_reachable rfl (by decide)).1

end Stream
end TwServer
