import TwServer.ByteArray.Integers

/-! The signed varints. Both writers pass the value through the zigzag decoder, so
of the 64-bit values only 0 comes back; `readInt32` never returns. -/

namespace TwServer
open Programs Program Blocks Runs Octets

namespace ByteArray

/-- `EncodeZigzag32(const int32_t&)`, which nothing calls. -/
def encodeZigzag32 (v : BitVec 32) : BitVec 32 := if v.slt 0 then -v * 2 - 1 else v * 2

/-- `EncodeZigzag32(const int64_t&)`. -/
def encodeZigzag64 (v : BitVec 64) : BitVec 64 := if v.slt 0 then -v * 2 - 1 else v * 2

/-! ## The mapping -/

/-- Even numbers are halved; an odd one gives the complement of its half. -/
theorem toNat_decodeZigzag64 (v : BitVec 64) : (decodeZigzag64 v).toNat =
    if v.toNat % 2 = 0 then v.toNat / 2 else 2 ^ 64 - 1 - v.toNat / 2 := by
  have hbit : (v &&& 1).toNat = v.toNat % 2 := by
    rw [BitVec.toNat_and]
    exact Nat.and_two_pow_sub_one_eq_mod v.toNat 1
  have hhalf : (v >>> 1).toNat = v.toNat / 2 := by
    rw [BitVec.toNat_ushiftRight, Nat.shiftRight_eq_div_pow]
  unfold decodeZigzag64
  rcases Nat.mod_two_eq_zero_or_one v.toNat with heven | hodd
  · have hzero : v &&& 1 = 0 := BitVec.eq_of_toNat_eq (hbit.trans heven)
    rw [if_pos heven, hzero]
    show ((v >>> 1) ^^^ -0#64).toNat = _
    rw [BitVec.neg_zero, BitVec.xor_zero, hhalf]
  · have hone : v &&& 1 = 1 := BitVec.eq_of_toNat_eq (hbit.trans hodd)
    rw [if_neg (by omega), hone]
    show ((v >>> 1) ^^^ -1#64).toNat = _
    rw [BitVec.neg_one_eq_allOnes, BitVec.xor_allOnes, BitVec.toNat_not, hhalf]

/-- Decoding twice is the identity at 0 only. -/
theorem decodeZigzag64_twice {v : BitVec 64} (h : decodeZigzag64 (decodeZigzag64 v) = v) :
    v = 0 := by
  have htwice := congrArg BitVec.toNat h
  rw [toNat_decodeZigzag64, toNat_decodeZigzag64] at htwice
  have hlt := v.isLt
  apply BitVec.eq_of_toNat_eq
  show v.toNat = 0
  split at htwice <;> split at htwice <;> omega

/-! ## The round trips -/

/-- `readInt32` uses up every stack. -/
theorem readInt32_fault (depth : Nat) (s : ByteArray) : readInt32 depth s = .fault .outOfStack := by
  induction depth with
  | zero => rfl
  | succ depth ih => exact bind_fault ih

/-- `writeInt32(v)` puts down the zigzag encoding and `readInt32()`, with some
stack, returns `v` from there and stops behind it. -/
def RoundTrips32 (s : ByteArray) (v : BitVec 32) : Prop :=
  ∃ s' s'' depth, writeInt32 v s = .ok () s' ∧
    slice s'.bytes s.position (s'.position - s.position) = varint (encodeZigzag32 v).toNat ∧
    ByteArray.setPosition s.position s' = .ok () s'' ∧ readInt32 depth s'' = .ok v s'

/-- The same for `writeInt64(v)` and `readInt64()`. -/
def RoundTrips64 (s : ByteArray) (v : BitVec 64) : Prop :=
  ∃ s' s'', writeInt64 v s = .ok () s' ∧
    slice s'.bytes s.position (s'.position - s.position) = varint (encodeZigzag64 v).toNat ∧
    ByteArray.setPosition s.position s' = .ok () s'' ∧ readInt64 s'' = .ok v s'

theorem writeInt64_eq (v : BitVec 64) :
    writeInt64 v = [varint (decodeZigzag64 v).toNat].forM ByteArray.write := by
  rw [forM_one]
  exact writeVarint_eq (varintLoop_64 _)

theorem reads_readInt64 (v : BitVec 64) : Reads readInt64 (varint v.toNat) (decodeZigzag64 v) :=
  (reads_readUint64 v).map decodeZigzag64

/-- One byte always finds room. -/
theorem room_one {base r : Nat} (hb : 0 < base) : Room base r 1 := by
  unfold Room
  rcases Nat.eq_zero_or_pos r with rfl | hr
  · right
    rcases Nat.lt_or_ge 1 base with hbase | hbase
    · right
      rw [Nat.sub_zero, Nat.mod_eq_of_lt hbase]
      decide
    · left
      obtain rfl : base = 1 := Nat.le_antisymm hbase hb
      exact Nat.mod_one _
  · exact Or.inl hr

section
variable {base : Nat} {s : ByteArray}

/-- What has been written is decoded a second time. -/
theorem read_back_int64 (h : WFAt base s) {v : BitVec 64} {s' : ByteArray}
    (hw : writeInt64 v s = .ok () s') : ∃ s'', ByteArray.setPosition s.position s' = .ok () s'' ∧
      readInt64 s'' = .ok (decodeZigzag64 (decodeZigzag64 v)) s' := by
  rw [writeInt64_eq] at hw
  obtain ⟨t, hrun, hwritten, -⟩ := forM_write_written h (room_of_forM_write h hw)
  rw [hrun] at hw
  cases hw
  rw [List.flatten_singleton] at hwritten
  exact hwritten.read_back (reads_readInt64 (decodeZigzag64 v))

theorem value_of_roundTrips64 (h : WFAt base s) {v : BitVec 64} (hrt : RoundTrips64 s v) :
    decodeZigzag64 (decodeZigzag64 v) = v := by
  obtain ⟨s', s'', hw, -, hset, hread⟩ := hrt
  obtain ⟨u, hset', hread'⟩ := read_back_int64 h hw
  rw [hset'] at hset
  cases hset
  rw [hread'] at hread
  injection hread

theorem roundTrips64_zero (h : WFAt base s) : RoundTrips64 s 0 := by
  have hzero : decodeZigzag64 0 = 0 := rfl
  have hencode : encodeZigzag64 0 = 0 := rfl
  have hlen : (varint (0 : BitVec 64).toNat).length = 1 := by
    rw [varint_small (by decide)]
    rfl
  have hroom : RoomSeq base s.getRemainCapacity
      ([varint (decodeZigzag64 0).toNat].map List.length) := by
    rw [List.map_singleton, hzero, hlen]
    exact ⟨room_one (h.base_eq ▸ h.base_pos), trivial⟩
  obtain ⟨s', hrun, hwritten, -⟩ := forM_write_written h hroom
  rw [List.flatten_singleton] at hwritten
  obtain ⟨s'', hset, hread⟩ := hwritten.read_back (reads_readInt64 (decodeZigzag64 0))
  refine ⟨s', s'', ?_, ?_, hset, hread⟩
  · rw [writeInt64_eq]
    exact hrun
  · rw [hwritten.position, Nat.add_sub_cancel_left, hwritten.bytes, hzero, hencode]

end

/-- In every state no 32-bit value makes the round trip, and of the 64-bit
values exactly 0 does. -/
theorem signed_round_trip_iff {base : Nat} {heap : Nat → UInt8} (hb : 1 ≤ base) {s : ByteArray}
    (h : Reachable (machine base heap) s) :
    (∀ v, ¬ RoundTrips32 s v) ∧ ∀ v, RoundTrips64 s v ↔ v = 0 := by
  have hwf : WFAt base s := (machine_inductive hb heap).reachable h
  constructor
  · rintro v ⟨s', s'', depth, -, -, -, hread⟩
    rw [readInt32_fault] at hread
    cases hread
  · intro v
    constructor
    · exact fun hrt => decodeZigzag64_twice (value_of_roundTrips64 hwf hrt)
    · rintro rfl
      exact roundTrips64_zero hwf

/-- The 64-bit 0 written into a fresh array comes back. -/
theorem signed_round_trip_iff_zero : RoundTrips64 (new 4 fun _ => 0) 0 :=
  ((signed_round_trip_iff (by decide) (Reachable.init (S := machine 4 fun _ => 0) rfl)).2 0).mpr rfl

/-- In a node of sixteen bytes -1 is written as 2^63 and comes back as 2^62; of the 32-bit
readers nothing comes back. -/
theorem signed_round_trip_fails : ¬ ∀ (base : Nat) (heap : Nat → UInt8) (s : ByteArray),
    1 ≤ base → Reachable (machine base heap) s →
    (∀ v, RoundTrips32 s v) ∧ ∀ v, RoundTrips64 s v := by
  intro hall
  have hwf : WFAt 16 (new 16 fun _ => 0) := new_wf (by decide) fun _ => 0
  have htrip := (hall 16 (fun _ => 0) (new 16 fun _ => 0) (by decide) (Reachable.init rfl)).2 (-1)
  have hback : decodeZigzag64 (decodeZigzag64 (-1)) = 2 ^ 62 := by decide +kernel
  exact absurd (hback.symm.trans (value_of_roundTrips64 hwf htrip)) (by decide +kernel)

end ByteArray
end TwServer
