import TwServer.ByteArray.Stream
import TwServer.Lib.Octets
import Mathlib.Tactic.Ring

/-! The typed integers. What a writer puts down is the big-endian octets or the
seven-bit groups of its value, and the reader of the same type gets it back. -/

namespace TwServer
open Programs Program Blocks Runs Octets

namespace ByteArray

/-! ## Object representations -/

theorem little_eq (k n : Nat) : little k n = (List.range k).map fun i => UInt8.ofNat (n / 256 ^ i) := by
  induction k generalizing n with
  | zero => rfl
  | succ k ih =>
    rw [little, ih, List.range_succ_eq_map, List.map_cons, List.map_map, Nat.pow_zero, Nat.div_one]
    congr 1
    apply List.map_congr_left
    intro i _
    show UInt8.ofNat (n / 256 / 256 ^ i) = UInt8.ofNat (n / 256 ^ (i + 1))
    rw [Nat.div_div_eq_div_mul, Nat.pow_succ, Nat.mul_comm]

theorem object_eq (k : Nat) (v : BitVec (8 * k)) : object k v = little k v.toNat :=
  (little_eq k v.toNat).symm

theorem ofObject_eq (k : Nat) (bs : List UInt8) : ofObject k bs = BitVec.ofNat _ (value bs) := by
  have hfold : bs.foldr (fun b acc => b.toNat + 256 * acc) 0 = value bs := by
    induction bs with
    | nil => rfl
    | cons b bs ih => rw [List.foldr_cons, ih, value]
  rw [ofObject, hfold]

theorem two_pow_octets (k : Nat) : 2 ^ (8 * k) = 256 ^ k := Nat.pow_mul 2 8 k

theorem ofObject_object (k : Nat) (v : BitVec (8 * k)) : ofObject k (object k v) = v := by
  have hlt := v.isLt
  rw [two_pow_octets] at hlt
  rw [ofObject_eq, object_eq, value_little hlt, BitVec.ofNat_toNat, BitVec.setWidth_eq]

theorem object_ofObject {k : Nat} {bs : List UInt8} (h : bs.length = k) :
    object k (ofObject k bs) = bs := by
  subst h
  have hlt := value_lt bs
  rw [← two_pow_octets] at hlt
  rw [object_eq, ofObject_eq, BitVec.toNat_ofNat, Nat.mod_eq_of_lt hlt, little_value]

/-- Swapped bytes lie in memory the highest first. -/
theorem object_bswap (k : Nat) (v : BitVec (8 * k)) : object k (bswap k v) = big k v.toNat := by
  rw [bswap, object_ofObject, object_eq, big]
  rw [List.length_reverse, object_eq, length_little]

theorem bswap_bswap (k : Nat) (v : BitVec (8 * k)) : bswap k (bswap k v) = v := by
  conv_lhs => rw [bswap, object_bswap, big, List.reverse_reverse, ← object_eq]
  exact ofObject_object k v

theorem big_one (v : BitVec 8) : object 1 v = big 1 v.toNat := object_eq 1 v

/-! ## Fixed-width readers -/

theorem big_ne_nil {k : Nat} (hk : 0 < k) (n : Nat) : big k n ≠ [] := by
  apply List.ne_nil_of_length_pos
  rwa [length_big]

theorem reads_readObject {k : Nat} (hk : 0 < k) (v : BitVec (8 * k)) :
    Reads (readObject k) (object k v) v := by
  have hlen : (object k v).length = k := by rw [object_eq, length_little]
  have hne : object k v ≠ [] := by
    apply List.ne_nil_of_length_pos
    rwa [hlen]
  have hread := (reads_read hne).map (ofObject k)
  rwa [hlen, ofObject_object] at hread

theorem reads_octet (v : BitVec 8) : Reads (readObject 1) (big 1 v.toNat) v := by
  have hread := reads_readObject (k := 1) (by decide) v
  rwa [big_one v] at hread

/-- `ntoh` of what `hton` has put down. -/
theorem reads_bswap {k : Nat} (hk : 0 < k) (v : BitVec (8 * k)) :
    Reads (do return bswap k (← readObject k)) (big k v.toNat) v := by
  have hread := (reads_readObject hk (bswap k v)).map (bswap k)
  rwa [object_bswap, bswap_bswap] at hread

/-! ## Groups of seven bits -/

section Varint
variable {w : Nat}

theorem toNat_shiftRight_seven (v : BitVec w) : (v >>> 7).toNat = v.toNat / 128 := by
  rw [BitVec.toNat_ushiftRight, Nat.shiftRight_eq_div_pow]

theorem toNat_group (hw : 8 ≤ w) (v : BitVec w) :
    ((v &&& 0x7f#w) ||| 0x80#w).toNat = v.toNat % 128 + 128 := by
  have hpow : 2 ^ 8 ≤ 2 ^ w := Nat.pow_le_pow_right (by decide) hw
  have hmask : (0x7f#w).toNat = 2 ^ 7 - 1 := by
    rw [BitVec.toNat_ofNat, Nat.mod_eq_of_lt (by omega)]
    rfl
  have hhigh : (0x80#w).toNat = 2 ^ 7 * 1 := by
    rw [BitVec.toNat_ofNat, Nat.mod_eq_of_lt (by omega)]
    rfl
  have hlow : v.toNat % 2 ^ 7 < 2 ^ 7 := Nat.mod_lt _ (by decide)
  rw [BitVec.toNat_or, BitVec.toNat_and, hmask, hhigh, Nat.and_two_pow_sub_one_eq_mod, Nat.or_comm,
    ← Nat.two_pow_add_eq_or_of_lt hlow]
  omega

/-- The loop of both varint writers fits `tmp` and puts down the groups. -/
theorem varintLoop_eq (hw : 8 ≤ w) {room : Nat} {v : BitVec w} (h : v.toNat < 128 ^ (room + 1)) :
    varintLoop (room + 1) v = some (varint v.toNat) := by
  induction room generalizing v with
  | zero =>
    rw [Nat.zero_add, Nat.pow_one] at h
    rw [varintLoop, if_neg (by omega), varint_small h]
  | succ room ih =>
    rw [varintLoop]
    by_cases hbig : v.toNat ≥ 0x80
    · have hv : (v >>> 7).toNat < 128 ^ (room + 1) := by
        rw [toNat_shiftRight_seven]
        exact Nat.div_lt_of_lt_mul (by rwa [Nat.pow_succ, Nat.mul_comm] at h)
      rw [if_pos hbig, ih hv, toNat_shiftRight_seven, toNat_group hw, varint_big hbig]
      rfl
    · rw [if_neg hbig, varint_small (by omega)]

theorem varintLoop_32 (v : BitVec 32) : varintLoop 5 v = some (varint v.toNat) :=
  varintLoop_eq (by decide) (Nat.lt_trans v.isLt (by decide))

theorem varintLoop_64 (v : BitVec 64) : varintLoop 10 v = some (varint v.toNat) :=
  varintLoop_eq (by decide) (Nat.lt_trans v.isLt (by decide))

/-- One group goes above the `i` bits that are there. -/
theorem or_group (hw : 8 ≤ w) {i : Nat} {acc : BitVec w} {b : BitVec 8} (hacc : acc.toNat < 2 ^ i)
    (hb : b.toNat * 2 ^ i < 2 ^ w) :
    acc ||| (b.setWidth w <<< i) = BitVec.ofNat w (acc.toNat + b.toNat * 2 ^ i) := by
  have hpow : 2 ^ 8 ≤ 2 ^ w := Nat.pow_le_pow_right (by decide) hw
  have hb8 := b.isLt
  have hacc' := acc.isLt
  apply BitVec.eq_of_toNat_eq
  rw [BitVec.toNat_or, BitVec.toNat_shiftLeft, BitVec.toNat_setWidth,
    Nat.mod_eq_of_lt (a := b.toNat) (by omega), Nat.shiftLeft_eq, Nat.mod_eq_of_lt hb, Nat.or_comm,
    Nat.mul_comm, ← Nat.two_pow_add_eq_or_of_lt hacc, BitVec.toNat_ofNat, Nat.add_comm,
    Nat.mod_eq_of_lt]
  have hsum : 2 ^ i * b.toNat + acc.toNat < 2 ^ w := by
    rw [Nat.two_pow_add_eq_or_of_lt hacc]
    exact Nat.or_lt_two_pow (by rwa [Nat.mul_comm]) hacc'
  omega

theorem reads_readFuint8 (x : UInt8) : Reads readFuint8 [x] (BitVec.ofNat 8 x.toNat) := by
  have hread := reads_readObject (by decide) (BitVec.ofNat (8 * 1) x.toNat)
  have hobject : object 1 (BitVec.ofNat (8 * 1) x.toNat) = [x] := by
    have hx : object 1 (ofObject 1 [x]) = [x] := object_ofObject rfl
    rwa [ofObject_eq] at hx
  rwa [hobject] at hread

theorem reads_byte {n : Nat} (h : n < 256) :
    Reads readFuint8 [UInt8.ofNat n] (BitVec.ofNat 8 n) := by
  have hread := reads_readFuint8 (UInt8.ofNat n)
  rwa [UInt8.toNat_ofNat', Nat.mod_eq_of_lt h] at hread

/-- What is left of a byte with the continuation bit when the bit is masked out. -/
theorem toNat_masked {n : Nat} (h : n < 128) :
    (BitVec.ofNat 8 (n + 128) &&& 0x7f).toNat = n := by
  have htoNat : (BitVec.ofNat 8 (n + 128)).toNat = n + 128 := by
    rw [BitVec.toNat_ofNat]
    omega
  rw [BitVec.toNat_and, htoNat]
  show (n + 128) &&& (2 ^ 7 - 1) = n
  rw [Nat.and_two_pow_sub_one_eq_mod]
  omega

/-- The lowest group and the others, shifted to where they belong. -/
theorem groups_add (n i : Nat) :
    n % 128 * 2 ^ i + n / 128 * 2 ^ (i + 7) = n * 2 ^ i := by
  have hdm := Nat.mod_add_div n 128
  calc n % 128 * 2 ^ i + n / 128 * 2 ^ (i + 7)
      = (n % 128 + 128 * (n / 128)) * 2 ^ i := by rw [Nat.pow_add 2 i 7]; ring
    _ = n * 2 ^ i := by rw [hdm]

theorem reads_readVarintLoop (hw : 8 ≤ w) {rounds i n : Nat} {acc : BitVec w}
    (hlen : (varint n).length ≤ rounds) (hi : i ≤ w) (hn : n < 2 ^ (w - i))
    (hacc : acc.toNat < 2 ^ i) :
    Reads (readVarintLoop w rounds i acc) (varint n) (BitVec.ofNat w (acc.toNat + n * 2 ^ i)) := by
  induction rounds generalizing i n acc with
  | zero => exact absurd (List.length_eq_zero_iff.mp (Nat.le_zero.mp hlen)) (varint_ne_nil n)
  | succ rounds ih =>
    have hpow : 2 ^ (w - i) * 2 ^ i = 2 ^ w := by rw [← Nat.pow_add, Nat.sub_add_cancel hi]
    rcases Nat.lt_or_ge n 128 with hsmall | hbig
    · have htoNat : (BitVec.ofNat 8 n).toNat = n := by
        rw [BitVec.toNat_ofNat]
        omega
      rw [varint_small hsmall, ← List.append_nil [UInt8.ofNat n]]
      refine (reads_byte (by omega)).bind ?_
      have hlast : (BitVec.ofNat 8 n).toNat < 0x80 := by omega
      have hfit : (BitVec.ofNat 8 n).toNat * 2 ^ i < 2 ^ w := by
        rw [htoNat, ← hpow]
        exact Nat.mul_lt_mul_of_pos_right hn (Nat.two_pow_pos i)
      rw [if_pos hlast, or_group hw hacc hfit, htoNat]
      exact reads_pure _
    · have htoNat : (BitVec.ofNat 8 (n % 128 + 128)).toNat = n % 128 + 128 := by
        rw [BitVec.toNat_ofNat]
        omega
      have hmask := toNat_masked (Nat.mod_lt n (show 0 < 128 by decide))
      have hroom : i + 7 < w := by
        have : 2 ^ 7 < 2 ^ (w - i) := Nat.lt_of_le_of_lt hbig hn
        have := (Nat.pow_lt_pow_iff_right (by decide)).mp this
        omega
      have hsplit : 2 ^ (w - i) = 128 * 2 ^ (w - (i + 7)) := by
        rw [show w - i = 7 + (w - (i + 7)) by omega, Nat.pow_add]
      have hfit : (BitVec.ofNat 8 (n % 128 + 128) &&& 0x7f).toNat * 2 ^ i < 2 ^ w := by
        rw [hmask, ← hpow]
        exact Nat.mul_lt_mul_of_pos_right (Nat.lt_of_le_of_lt (Nat.mod_le _ _) hn)
          (Nat.two_pow_pos i)
      rw [varint_big hbig] at hlen ⊢
      refine (reads_byte (by omega)).bind ?_
      rw [if_neg (by omega), or_group hw hacc hfit, hmask]
      have hsum : acc.toNat + n % 128 * 2 ^ i < 2 ^ (i + 7) := by
        have hseven : 2 ^ (i + 7) = 2 ^ i * 128 := Nat.pow_add 2 i 7
        have hgroup : n % 128 * 2 ^ i ≤ 127 * 2 ^ i := Nat.mul_le_mul_right _ (by omega)
        omega
      have hacc' : (BitVec.ofNat w (acc.toNat + n % 128 * 2 ^ i)).toNat =
          acc.toNat + n % 128 * 2 ^ i := by
        have : 2 ^ (i + 7) ≤ 2 ^ w := Nat.pow_le_pow_right (by decide) (Nat.le_of_lt hroom)
        rw [BitVec.toNat_ofNat, Nat.mod_eq_of_lt (by omega)]
      have hdiv : n / 128 < 2 ^ (w - (i + 7)) := Nat.div_lt_of_lt_mul (by omega)
      have hrec := ih (Nat.le_of_succ_le_succ hlen) (Nat.le_of_lt hroom) hdiv (hacc' ▸ hsum)
      rwa [hacc', Nat.add_assoc, groups_add] at hrec

end Varint

theorem ofNat_from_zero {w : Nat} (v : BitVec w) :
    BitVec.ofNat w ((0 : BitVec w).toNat + v.toNat * 2 ^ 0) = v := by simp

theorem reads_readUint32 (v : BitVec 32) : Reads readUint32 (varint v.toNat) v := by
  have hlen : (varint v.toNat).length ≤ 5 := length_varint_le (Nat.lt_trans v.isLt (by decide))
  have hread : Reads (readVarintLoop 32 5 0 0) _ _ :=
    reads_readVarintLoop (by decide) hlen (by decide) v.isLt (by decide)
  rw [ofNat_from_zero] at hread
  exact hread

theorem reads_readUint64 (v : BitVec 64) : Reads readUint64 (varint v.toNat) v := by
  have hlen : (varint v.toNat).length ≤ 10 := length_varint_le (Nat.lt_trans v.isLt (by decide))
  have hread : Reads (readVarintLoop 64 10 0 0) _ _ :=
    reads_readVarintLoop (by decide) hlen (by decide) v.isLt (by decide)
  rw [ofNat_from_zero] at hread
  exact hread

/-! ## Mixed sequences -/

inductive Kind where
  | fint8 | fuint8 | fint16 | fuint16 | fint32 | fuint32 | fint64 | fuint64 | uint32 | uint64

/-- A value with the type it is written as. -/
inductive Value where
  | fint8 (v : BitVec 8) | fuint8 (v : BitVec 8)
  | fint16 (v : BitVec 16) | fuint16 (v : BitVec 16)
  | fint32 (v : BitVec 32) | fuint32 (v : BitVec 32)
  | fint64 (v : BitVec 64) | fuint64 (v : BitVec 64)
  | uint32 (v : BitVec 32) | uint64 (v : BitVec 64)

namespace Value

def kind : Value → Kind
  | fint8 _ => .fint8 | fuint8 _ => .fuint8
  | fint16 _ => .fint16 | fuint16 _ => .fuint16
  | fint32 _ => .fint32 | fuint32 _ => .fuint32
  | fint64 _ => .fint64 | fuint64 _ => .fuint64
  | uint32 _ => .uint32 | uint64 _ => .uint64

def write : Value → Program ByteArray Unit
  | fint8 v => writeFint8 v | fuint8 v => writeFuin8 v
  | fint16 v => writeFint16 v | fuint16 v => writeFuint16 v
  | fint32 v => writeFint32 v | fuint32 v => writeFuint32 v
  | fint64 v => writeFint64 v | fuint64 v => writeFuint64 v
  | uint32 v => wirteUint32 v | uint64 v => writeUint64 v

/-- The layout: big-endian two's complement, or groups of seven bits. -/
def encode : Value → List UInt8
  | fint8 v | fuint8 v => big 1 v.toNat
  | fint16 v | fuint16 v => big 2 v.toNat
  | fint32 v | fuint32 v => big 4 v.toNat
  | fint64 v | fuint64 v => big 8 v.toNat
  | uint32 v => varint v.toNat
  | uint64 v => varint v.toNat

end Value

/-- The reader that matches a writer. -/
def Kind.read : Kind → Program ByteArray Value
  | .fint8 => do return .fint8 (← readFint8)
  | .fuint8 => do return .fuint8 (← readFuint8)
  | .fint16 => do return .fint16 (← readFint16)
  | .fuint16 => do return .fuint16 (← readFuint16)
  | .fint32 => do return .fint32 (← readFint32)
  | .fuint32 => do return .fuint32 (← readFuint32)
  | .fint64 => do return .fint64 (← readFint64)
  | .fuint64 => do return .fuint64 (← readFuint64)
  | .uint32 => do return .uint32 (← readUint32)
  | .uint64 => do return .uint64 (← readUint64)

def readAll : List Kind → Program ByteArray (List Value)
  | [] => return []
  | k :: ks => do
    let v ← k.read
    let vs ← readAll ks
    return v :: vs

theorem Value.write_eq (v : Value) : v.write = ByteArray.write v.encode := by
  cases v with
  | fint8 v | fuint8 v => exact congrArg ByteArray.write (big_one v)
  | fint16 v | fuint16 v => exact congrArg ByteArray.write (object_bswap 2 v)
  | fint32 v | fuint32 v => exact congrArg ByteArray.write (object_bswap 4 v)
  | fint64 v | fuint64 v => exact congrArg ByteArray.write (object_bswap 8 v)
  | uint32 v => exact writeVarint_eq (varintLoop_32 v)
  | uint64 v => exact writeVarint_eq (varintLoop_64 v)

theorem Value.reads (v : Value) : Reads v.kind.read v.encode v := by
  cases v with
  | fint8 v => exact (reads_octet v).map _
  | fuint8 v => exact (reads_octet v).map _
  | fint16 v => exact (reads_bswap (k := 2) (by decide) v).map _
  | fuint16 v => exact (reads_bswap (k := 2) (by decide) v).map _
  | fint32 v => exact (reads_bswap (k := 4) (by decide) v).map _
  | fuint32 v => exact (reads_bswap (k := 4) (by decide) v).map _
  | fint64 v => exact (reads_bswap (k := 8) (by decide) v).map _
  | fuint64 v => exact (reads_bswap (k := 8) (by decide) v).map _
  | uint32 v => exact (reads_readUint32 v).map _
  | uint64 v => exact (reads_readUint64 v).map _

theorem reads_readAll (vs : List Value) :
    Reads (readAll (vs.map Value.kind)) (vs.flatMap Value.encode) vs := by
  induction vs with
  | nil => exact reads_pure []
  | cons v vs ih =>
    rw [List.flatMap_cons]
    exact v.reads.bind (ih.map (v :: ·))

theorem forM_write_values (vs : List Value) :
    vs.forM Value.write = (vs.map Value.encode).forM ByteArray.write := by
  induction vs with
  | nil => rfl
  | cons v vs ih =>
    show (v.write >>= fun _ => vs.forM Value.write) = _
    rw [ih, v.write_eq]
    rfl

/-- Reading back from `s.position` what was written from `s` to `s'` ends in `s'`. -/
theorem Written.read_back {α : Type} {s s' : ByteArray} {bs : List UInt8}
    {m : Program ByteArray α} {a : α} (h : Written s bs s') (hm : Reads m bs a) :
    ∃ s'', ByteArray.setPosition s.position s' = .ok () s'' ∧ m s'' = .ok a s' := by
  obtain ⟨hwf, hset⟩ := h.setPosition
  refine ⟨_, hset, ?_⟩
  rw [hm _ hwf h.next, advance_seek, ← h.position, seek_self h.wf]

/-- In every state, any mix of typed integers whose writes come back lies in its
layout from the old position on, and the matching readers return it from there
and stop where the writers did. The varint loops stay within `tmp`. -/
theorem typed_integers_round_trip {base : Nat} {heap : Nat → UInt8} (hb : 1 ≤ base)
    {s s' : ByteArray} (h : Reachable (machine base heap) s) (vs : List Value)
    (hw : vs.forM Value.write s = .ok () s') :
    s'.position = s.position + (vs.flatMap Value.encode).length ∧
    slice s'.bytes s.position (vs.flatMap Value.encode).length = vs.flatMap Value.encode ∧
    (∃ s'', ByteArray.setPosition s.position s' = .ok () s'' ∧
      readAll (vs.map Value.kind) s'' = .ok vs s') ∧
    (∀ v : BitVec 32, ∃ tmp, varintLoop 5 v = some tmp ∧ tmp.length ≤ 5) ∧
    ∀ v : BitVec 64, ∃ tmp, varintLoop 10 v = some tmp ∧ tmp.length ≤ 10 := by
  have hwf : WFAt base s := (machine_inductive hb heap).reachable h
  rw [forM_write_values] at hw
  obtain ⟨t, hrun, hwritten, -⟩ := forM_write_written hwf (room_of_forM_write hwf hw)
  obtain rfl : t = s' := by
    rw [hrun] at hw
    cases hw
    rfl
  have hflat : (vs.map Value.encode).flatten = vs.flatMap Value.encode := List.flatMap_def.symm
  rw [hflat] at hwritten
  refine ⟨hwritten.position, hwritten.bytes, hwritten.read_back (reads_readAll vs), ?_, ?_⟩
  · intro v
    exact ⟨_, varintLoop_32 v, length_varint_le (Nat.lt_trans v.isLt (by decide))⟩
  · intro v
    exact ⟨_, varintLoop_64 v, length_varint_le (Nat.lt_trans v.isLt (by decide))⟩

/-- -2 in sixteen bits and 300 in groups. -/
theorem typed_integers_round_trip_mixed : ∃ s' s'',
    [Value.fint16 (-2), .uint32 300].forM Value.write (new 16 fun _ => 0) = .ok () s' ∧
      ByteArray.setPosition 0 s' = .ok () s'' ∧
      readAll [.fint16, .uint32] s'' = .ok [.fint16 (-2), .uint32 300] s' := by
  have hw : [Value.fint16 (-2), .uint32 300].forM Value.write (new 16 fun _ => 0) = .ok () _ := rfl
  obtain ⟨s'', hset, hread⟩ := (typed_integers_round_trip (by decide)
    (Reachable.init (S := machine 16 fun _ => 0) rfl) _ hw).2.2.1
  exact ⟨_, s'', hw, hset, hread⟩

end ByteArray
end TwServer
