import TwServer.Address.Print
import TwServer.Lib.BitString

/-! `CreateMask` and `CountBytes`, and with them the broadcast address, the network address
and the subnet mask for a prefix, in both families. -/

namespace TwServer
open BitString

/-- What the language leaves undefined: a shift by 32 positions or more, an `int` that
overflows, an access outside an array. -/
inductive Undefined
  | shift
  | overflow
  | outOfBounds
  deriving DecidableEq

/-- `CreateMask<T>(bit)`, with `width` bits in a `T`. The `int` 1 is shifted by a `size_t`,
and `wraps` is whether an `int` wraps around. -/
def createMask (wraps : Bool) (width : Nat) (bit : BitVec 32) :
    Except Undefined (BitVec width) :=
  let shift := (BitVec.ofNat 64 width - bit.setWidth 64).toNat
  if 32 ≤ shift then .error .shift
  else if shift = 31 ∧ wraps = false then .error .overflow
  else .ok (((1#32 <<< shift) - 1).setWidth width)

def countBytes {w : Nat} (value : BitVec w) : Nat :=
  if value = 0 then 0 else countBytes (value &&& (value - 1)) + 1
termination_by value.cpop.toNat
decreasing_by
  have := cpop_and_sub_one ‹¬value = 0›
  omega

theorem countBytes_eq_cpop {w : Nat} (value : BitVec w) : countBytes value = value.cpop.toNat := by
  induction value using countBytes.induct with
  | case1 => simp [countBytes]
  | case2 value h ih =>
    rw [countBytes, if_neg h, ih]
    exact cpop_and_sub_one h

/-! ## The mask -/

theorem shift_eq {width : Nat} {bit : BitVec 32} (hw : width ≤ 32) (h : bit.toNat ≤ width) :
    (BitVec.ofNat 64 width - bit.setWidth 64).toNat = width - bit.toNat := by
  have hb := bit.isLt
  simp only [BitVec.toNat_sub, BitVec.toNat_ofNat, BitVec.toNat_setWidth]
  omega

/-- Past the width the count of the shift wraps around. -/
theorem createMask_of_lt {wraps : Bool} {width : Nat} {bit : BitVec 32} (hw : width ≤ 32)
    (h : width < bit.toNat) : createMask wraps width bit = .error .shift := by
  have hb := bit.isLt
  rw [createMask, if_pos]
  simp only [BitVec.toNat_sub, BitVec.toNat_ofNat, BitVec.toNat_setWidth]
  omega

/-- The bits from `bit` on. -/
theorem createMask_of_le {wraps : Bool} {width : Nat} {bit : BitVec 32} (hw : width ≤ 32)
    (h : bit.toNat ≤ width) (hshift : width - bit.toNat < 32)
    (hwraps : width - bit.toNat = 31 → wraps = true) :
    ∃ mask, createMask wraps width bit = .ok mask ∧
      ∀ i < width, mask.getMsbD i = decide (bit.toNat ≤ i) := by
  have hover : ¬(width - bit.toNat = 31 ∧ wraps = false) := fun ⟨h31, hfalse⟩ => by
    rw [hwraps h31] at hfalse
    cases hfalse
  refine ⟨((1#32 <<< (width - bit.toNat)) - 1).setWidth width, ?_, fun i hi => ?_⟩
  · simp only [createMask, shift_eq hw h]
    rw [if_neg (by omega), if_neg hover]
  · have hlow : ((1#32 <<< (width - bit.toNat)) - 1).toNat = 2 ^ (width - bit.toNat) - 1 := by
      have hlt : 2 ^ (width - bit.toNat) < 2 ^ 32 := Nat.pow_lt_pow_right (by decide) hshift
      have hpow : (1#32 <<< (width - bit.toNat)).toNat = 2 ^ (width - bit.toNat) := by
        rw [BitVec.toNat_shiftLeft, Nat.shiftLeft_eq, BitVec.toNat_ofNat,
          Nat.one_mod_two_pow_eq_one.mpr (by decide), Nat.one_mul, Nat.mod_eq_of_lt hlt]
      rw [BitVec.toNat_sub_of_le, hpow]
      · rfl
      · rw [BitVec.le_def, hpow]
        exact Nat.one_le_two_pow
    rw [BitVec.getMsbD_eq_getLsbD, BitVec.getLsbD_setWidth, BitVec.getLsbD, hlow,
      Nat.testBit_two_pow_sub_one, Bool.eq_iff_iff]
    simp only [Bool.and_eq_true, decide_eq_true_eq]
    omega

/-- Where the mask of 32 bits is defined. -/
def MaskDefined (wraps : Bool) (bit : BitVec 32) : Prop := bit ≠ 0 ∧ (bit = 1 → wraps = true)

theorem createMask_of_defined {wraps : Bool} {bit : BitVec 32} (hbit : bit.toNat ≤ 32)
    (h : MaskDefined wraps bit) :
    ∃ mask, createMask wraps 32 bit = .ok mask ∧
      ∀ i < 32, mask.getMsbD i = decide (bit.toNat ≤ i) := by
  have hpos : bit.toNat ≠ 0 := fun h0 => h.1 (BitVec.eq_of_toNat_eq h0)
  refine createMask_of_le (Nat.le_refl _) hbit (by omega) fun h31 => h.2 ?_
  exact BitVec.eq_of_toNat_eq (show bit.toNat = 1 by omega)

theorem createMask_of_not_defined {wraps : Bool} {bit : BitVec 32} (h : ¬MaskDefined wraps bit) :
    ∃ u, createMask wraps 32 bit = .error u := by
  by_cases h0 : bit = 0
  · subst h0
    exact ⟨.shift, rfl⟩
  · have h1 : ¬(bit = 1 → wraps = true) := fun h1 => h ⟨h0, h1⟩
    obtain ⟨rfl, hwraps⟩ := Classical.not_imp.mp h1
    rw [Bool.not_eq_true] at hwraps
    subst hwraps
    exact ⟨.overflow, rfl⟩

/-! ## IPv4 -/

/-- It has the field `m_addr` and no other. -/
abbrev IPv4Address := SockaddrIn

namespace IPv4Address

/-- `sin_addr.s_addr`, in the byte order of the host. -/
def sAddr (a : IPv4Address) : BitVec 32 :=
  a.sinAddr[3].toBitVec ++ a.sinAddr[2].toBitVec ++ a.sinAddr[1].toBitVec ++ a.sinAddr[0].toBitVec

/-- `none` for `nullptr`, as in the next two. -/
def broadcastAddress (wraps : Bool) (a : IPv4Address) (prefixLen : BitVec 32) :
    Except Undefined (Option IPv4Address) :=
  if prefixLen.toNat > 32 then .ok none
  else do
    let mask ← createMask wraps 32 prefixLen
    return some { a with sinAddr := a.sinAddr.zipWith (· ||| ·) (htonl mask) }

def networkAddress (wraps : Bool) (a : IPv4Address) (prefixLen : BitVec 32) :
    Except Undefined (Option IPv4Address) :=
  if prefixLen.toNat > 32 then .ok none
  else do
    let mask ← createMask wraps 32 prefixLen
    return some { a with sinAddr := a.sinAddr.zipWith (· &&& ·) ((htonl mask).map (~~~ ·)) }

/-- Nothing of the address is read, and the prefix is not checked. -/
def subnetMask (wraps : Bool) (_ : IPv4Address) (prefixLen : BitVec 32) :
    Except Undefined (Option IPv4Address) := do
  let mask ← createMask wraps 32 prefixLen
  return some {
    sinFamily := afInet
    sinPort := Vector.replicate 2 0
    sinAddr := (htonl mask).map (~~~ ·)
    sinZero := Vector.replicate 8 0 }

theorem htonl_getElem (n : BitVec 32) {q : Nat} (h : q < 4) :
    (htonl n)[q].toBitVec = n.extractLsb' (24 - 8 * q) 8 := by
  interval_cases q <;> rfl

theorem bit_htonl (n : BitVec 32) {i : Nat} (h : i < 32) :
    bit (htonl n).toList i = n.getMsbD i := by
  have hq : i / 8 < 4 := by omega
  have hk : i % 8 < 8 := Nat.mod_lt _ (by decide)
  rw [bit_of_lt (by simpa using hq), Vector.getElem_toList, htonl_getElem n hq,
    BitVec.getMsbD_eq_getLsbD, BitVec.getLsbD_extractLsb', BitVec.getMsbD_eq_getLsbD]
  simp only [h, hk, decide_true, Bool.true_and]
  rw [decide_eq_true (by omega), Bool.true_and]
  congr 1
  omega

/-- The order of the octets does not matter for the count. -/
theorem countBytes_sAddr (a : IPv4Address) : countBytes a.sAddr = ones a.sinAddr.toList := by
  have hlist : a.sinAddr.toList = [a.sinAddr[0], a.sinAddr[1], a.sinAddr[2], a.sinAddr[3]] := by
    apply List.ext_getElem
    · simp
    · intro i h h'
      simp at h'
      rw [Vector.getElem_toList]
      interval_cases i <;> rfl
  rw [countBytes_eq_cpop, sAddr, hlist]
  refine BitVec.toNat_cpop_append.trans ?_
  rw [BitVec.toNat_cpop_append, BitVec.toNat_cpop_append]
  simp only [ones_cons, ones_nil]
  omega

/-! ## What the methods owe -/

/-- An address that follows `s` for `prefixLen` bits, with the port and the family of `a`;
`nullptr` for a prefix above 32. -/
def PrefixRight (a : IPv4Address) (fill : Bool) (s : List UInt8) (prefixLen : BitVec 32)
    (result : Except Undefined (Option IPv4Address)) : Prop :=
  if prefixLen.toNat ≤ 32 then
    ∃ b, result = .ok (some b) ∧ Follows fill prefixLen.toNat s b.sinAddr.toList ∧
      b.sinPort = a.sinPort ∧ b.sinFamily = a.sinFamily
  else result = .ok none

def BroadcastRight (wraps : Bool) (a : IPv4Address) (prefixLen : BitVec 32) : Prop :=
  a.PrefixRight true a.sinAddr.toList prefixLen (broadcastAddress wraps a prefixLen)

def NetworkRight (wraps : Bool) (a : IPv4Address) (prefixLen : BitVec 32) : Prop :=
  a.PrefixRight false a.sinAddr.toList prefixLen (networkAddress wraps a prefixLen)

/-- The bits of the prefix are set, and `CountBytes` counts them. -/
def SubnetMaskRight (wraps : Bool) (a : IPv4Address) (prefixLen : BitVec 32) : Prop :=
  a.PrefixRight false (List.replicate 4 0xff) prefixLen (subnetMask wraps a prefixLen) ∧
    ∀ b, subnetMask wraps a prefixLen = .ok (some b) → countBytes b.sAddr = prefixLen.toNat

theorem bit_mask {mask : BitVec 32} {p i : Nat} (hmask : ∀ i < 32, mask.getMsbD i = decide (p ≤ i))
    (h : i < 32) : bit (htonl mask).toList i = decide (p ≤ i) := by
  rw [bit_htonl mask h, hmask i h]

theorem bit_not_mask {mask : BitVec 32} {p i : Nat}
    (hmask : ∀ i < 32, mask.getMsbD i = decide (p ≤ i)) (h : i < 32) :
    bit ((htonl mask).map (~~~ ·)).toList i = decide (i < p) := by
  rw [Vector.toList_map, bit_not (by simpa using h), bit_mask hmask h, Bool.eq_iff_iff]
  simp

/-- A method that checks the prefix and then needs the mask. -/
theorem prefixRight_iff {wraps fill : Bool} {a : IPv4Address} {s : List UInt8} {p : BitVec 32}
    {f : BitVec 32 → IPv4Address}
    (hf : ∀ mask : BitVec 32, (∀ i < 32, mask.getMsbD i = decide (p.toNat ≤ i)) →
      Follows fill p.toNat s (f mask).sinAddr.toList ∧ (f mask).sinPort = a.sinPort ∧
        (f mask).sinFamily = a.sinFamily) :
    a.PrefixRight fill s p (if p.toNat > 32 then .ok none
      else do return some (f (← createMask wraps 32 p))) ↔ MaskDefined wraps p := by
  unfold PrefixRight
  by_cases hp : p.toNat ≤ 32
  · rw [if_pos hp, if_neg (by omega)]
    by_cases h : MaskDefined wraps p
    · obtain ⟨mask, hmask, hbits⟩ := createMask_of_defined hp h
      simp only [hmask, h, iff_true]
      exact ⟨f mask, rfl, hf mask hbits⟩
    · obtain ⟨u, hu⟩ := createMask_of_not_defined h
      simp only [hu, h, iff_false]
      rintro ⟨b, hb, -⟩
      cases hb
  · rw [if_neg hp, if_pos (by omega)]
    have h : MaskDefined wraps p := by
      constructor
      · rintro rfl
        exact hp (by decide)
      · rintro rfl
        exact absurd (by decide) hp
    simp [h]

theorem broadcastRight_iff (wraps : Bool) (a : IPv4Address) (p : BitVec 32) :
    a.BroadcastRight wraps p ↔ MaskDefined wraps p := by
  refine prefixRight_iff (f := fun mask =>
    { a with sinAddr := a.sinAddr.zipWith (· ||| ·) (htonl mask) }) fun mask hbits => ?_
  refine ⟨⟨by simp, fun i hi => ?_⟩, rfl, rfl⟩
  have hi' : i < 32 := by simpa using hi
  rw [Vector.toList_zipWith, bit_or (by simp) hi, bit_mask hbits hi']
  by_cases h : i < p.toNat
  · simp [h, Nat.not_le.mpr h]
  · simp [h, Nat.not_lt.mp h]

theorem networkRight_iff (wraps : Bool) (a : IPv4Address) (p : BitVec 32) :
    a.NetworkRight wraps p ↔ MaskDefined wraps p := by
  refine prefixRight_iff (f := fun mask =>
    { a with sinAddr := a.sinAddr.zipWith (· &&& ·) ((htonl mask).map (~~~ ·)) })
    fun mask hbits => ?_
  refine ⟨⟨by simp, fun i hi => ?_⟩, rfl, rfl⟩
  have hi' : i < 32 := by simpa using hi
  rw [Vector.toList_zipWith, bit_and (by simp) hi, bit_not_mask hbits hi']
  by_cases h : i < p.toNat
  · simp [h]
  · simp [h]

theorem subnetMaskRight_iff (wraps : Bool) (a : IPv4Address) (p : BitVec 32) :
    a.SubnetMaskRight wraps p ↔
      MaskDefined wraps p ∧ p.toNat ≤ 32 ∧ a.sinPort = Vector.replicate 2 0 ∧ a.sinFamily = afInet := by
  unfold SubnetMaskRight PrefixRight
  by_cases hp : p.toNat ≤ 32
  · rw [if_pos hp]
    by_cases h : MaskDefined wraps p
    · obtain ⟨mask, hmask, hbits⟩ := createMask_of_defined hp h
      have hsubnet : subnetMask wraps a p = .ok (some
          ⟨afInet, Vector.replicate 2 0, (htonl mask).map (~~~ ·), Vector.replicate 8 0⟩) := by
        rw [subnetMask, hmask]
        rfl
      have hfollows : Follows false p.toNat (List.replicate 4 0xff)
          ((htonl mask).map (~~~ ·)).toList := by
        refine ⟨by simp, fun i hi => ?_⟩
        have hi' : i < 32 := by simpa using hi
        rw [bit_not_mask hbits hi', bit_replicate hi']
        by_cases hip : i < p.toNat
        · simp [hip]
        · simp [hip]
      rw [hsubnet]
      constructor
      · rintro ⟨⟨b, hb, -, hport, hfamily⟩, -⟩
        cases hb
        exact ⟨h, hp, hport.symm, hfamily.symm⟩
      · rintro ⟨-, -, hport, hfamily⟩
        refine ⟨⟨_, rfl, hfollows, hport.symm, hfamily.symm⟩, ?_⟩
        rintro b hb
        cases hb
        rw [countBytes_sAddr]
        exact ones_of_follows hp hfollows
    · obtain ⟨u, hu⟩ := createMask_of_not_defined h
      simp only [subnetMask, hu, h, false_and, iff_false]
      rintro ⟨⟨b, hb, -⟩, -⟩
      cases hb
  · have hmask : createMask wraps 32 p = .error .shift :=
      createMask_of_lt (Nat.le_refl _) (Nat.lt_of_not_le hp)
    simp only [subnetMask, hmask, hp, false_and, and_false, iff_false]
    rintro ⟨hb, -⟩
    cases hb

/-- A prefix of one bit aside, what is wrong is the empty prefix, and for the mask also a
prefix that is not checked and a port or a family that it does not take over. -/
theorem ipv4_prefix_iff (wraps : Bool) (a : IPv4Address) (p : BitVec 32) :
    (a.BroadcastRight wraps p ↔ p ≠ 0 ∧ (p = 1 → wraps = true)) ∧
      (a.NetworkRight wraps p ↔ p ≠ 0 ∧ (p = 1 → wraps = true)) ∧
      (a.SubnetMaskRight wraps p ↔ (p ≠ 0 ∧ (p = 1 → wraps = true)) ∧ p.toNat ≤ 32 ∧
        a.sinPort = Vector.replicate 2 0 ∧ a.sinFamily = afInet) :=
  ⟨broadcastRight_iff wraps a p, networkRight_iff wraps a p, subnetMaskRight_iff wraps a p⟩

/-- 127.0.0.1, port 80. -/
def loopback : IPv4Address := ⟨afInet, #v[0, 80], #v[127, 0, 0, 1], Vector.replicate 8 0⟩

theorem loopback_prefix :
    broadcastAddress true loopback 0 = .error .shift ∧
      networkAddress true loopback 0 = .error .shift ∧
      subnetMask true loopback 0 = .error .shift ∧ subnetMask true loopback 33 = .error .shift ∧
      ¬loopback.BroadcastRight true 0 ∧ ¬loopback.NetworkRight true 0 ∧
      ¬loopback.SubnetMaskRight true 0 ∧ ¬loopback.SubnetMaskRight true 33 ∧
      ¬loopback.SubnetMaskRight true 24 := by
  refine ⟨rfl, rfl, rfl, rfl, ?_, ?_, ?_, ?_, ?_⟩
  · exact fun h => ((broadcastRight_iff _ _ _).mp h).1 rfl
  · exact fun h => ((networkRight_iff _ _ _).mp h).1 rfl
  · exact fun h => ((subnetMaskRight_iff _ _ _).mp h).1.1 rfl
  · exact fun h => absurd ((subnetMaskRight_iff _ _ _).mp h).2.1 (by decide)
  · exact fun h => absurd ((subnetMaskRight_iff _ _ _).mp h).2.2.1 (by decide)

end IPv4Address

/-! ## IPv6 -/

namespace IPv6Address

/-- `s6_addr[i] = f(s6_addr[i])`. -/
def update (v : Vector UInt8 16) (i : Nat) (f : UInt8 → UInt8) :
    Except Undefined (Vector UInt8 16) :=
  if h : i < 16 then .ok (v.set i (f v[i])) else .error .outOfBounds

/-- `for(i = first; i < last; ++i) s6_addr[i] = b`. -/
def fill (b : UInt8) (first last : Nat) (v : Vector UInt8 16) :
    Except Undefined (Vector UInt8 16) :=
  (List.range' first (last - first)).foldlM (fun v i => update v i fun _ => b) v

/-- There is no check here and in the next two, and so no `nullptr`. -/
def broadcastAddress (wraps : Bool) (a : IPv6Address) (prefixLen : BitVec 32) :
    Except Undefined (Option IPv6Address) := do
  let mask ← createMask wraps 8 (prefixLen % 8)
  let v ← update a.sin6Addr (prefixLen.toNat / 8) (· ||| ⟨mask⟩)
  let v ← fill 0xff (prefixLen.toNat / 8 + 1) 16 v
  return some { a with sin6Addr := v }

def networkAddress (wraps : Bool) (a : IPv6Address) (prefixLen : BitVec 32) :
    Except Undefined (Option IPv6Address) := do
  let mask ← createMask wraps 8 (prefixLen % 8)
  let v ← update a.sin6Addr (prefixLen.toNat / 8) (· &&& ~~~⟨mask⟩)
  let v ← fill 0x00 (prefixLen.toNat / 8 + 1) 16 v
  return some { a with sin6Addr := v }

/-- Nothing of the address is read. -/
def subnetMask (wraps : Bool) (_ : IPv6Address) (prefixLen : BitVec 32) :
    Except Undefined (Option IPv6Address) := do
  let mask ← createMask wraps 8 (prefixLen % 8)
  let v ← update (Vector.replicate 16 0) (prefixLen.toNat / 8) fun _ => ~~~⟨mask⟩
  let v ← fill 0xff 0 (prefixLen.toNat / 8) v
  return some {
    sin6Family := afInet6
    sin6Port := Vector.replicate 2 0
    sin6Flowinfo := Vector.replicate 4 0
    sin6Addr := v
    sin6ScopeId := Vector.replicate 4 0 }

/-- Every octet of the range is written, and no other. -/
theorem fill_eq (b : UInt8) (first : Nat) {last : Nat} (h : last ≤ 16) (v : Vector UInt8 16) :
    ∃ w, fill b first last v = .ok w ∧
      ∀ (i : Nat) (hi : i < 16), w[i] = if first ≤ i ∧ i < last then b else v[i] := by
  unfold fill
  generalize hn : last - first = n
  induction n generalizing first v with
  | zero =>
    refine ⟨v, rfl, fun i hi => ?_⟩
    rw [if_neg (by omega)]
  | succ n ih =>
    have hfirst : first < 16 := by omega
    obtain ⟨w, hw, hbytes⟩ := ih (first + 1) (v.set first b) (by omega)
    refine ⟨w, ?_, fun i hi => ?_⟩
    · rw [List.range'_succ, List.foldlM_cons, update, dif_pos hfirst]
      exact hw
    · rw [hbytes i hi, Vector.getElem_set]
      grind

/-- The mask of an octet: the count of the shift is between 1 and 8. -/
theorem createMask_octet (wraps : Bool) (p : BitVec 32) :
    ∃ mask, createMask wraps 8 (p % 8) = .ok mask ∧
      ∀ i < 8, mask.getMsbD i = decide (p.toNat % 8 ≤ i) := by
  have hmod : (p % 8).toNat = p.toNat % 8 := rfl
  have hmask : ∃ mask, createMask wraps 8 (p % 8) = .ok mask ∧
      ∀ i < 8, mask.getMsbD i = decide ((p % 8).toNat ≤ i) :=
    createMask_of_le (by decide) (by omega) (by omega) (by omega)
  rwa [hmod] at hmask

/-! ## What the methods owe -/

/-- An address that follows `s` for `prefixLen` bits and is `a` in every other field;
`nullptr` for a prefix above 128. -/
def PrefixRight (a : IPv6Address) (fill : Bool) (s : List UInt8) (prefixLen : BitVec 32)
    (result : Except Undefined (Option IPv6Address)) : Prop :=
  if prefixLen.toNat ≤ 128 then
    ∃ b, result = .ok (some b) ∧ Follows fill prefixLen.toNat s b.sin6Addr.toList ∧
      b = { a with sin6Addr := b.sin6Addr }
  else result = .ok none

def BroadcastRight (wraps : Bool) (a : IPv6Address) (prefixLen : BitVec 32) : Prop :=
  a.PrefixRight true a.sin6Addr.toList prefixLen (broadcastAddress wraps a prefixLen)

def NetworkRight (wraps : Bool) (a : IPv6Address) (prefixLen : BitVec 32) : Prop :=
  a.PrefixRight false a.sin6Addr.toList prefixLen (networkAddress wraps a prefixLen)

def SubnetMaskRight (wraps : Bool) (a : IPv6Address) (prefixLen : BitVec 32) : Prop :=
  a.PrefixRight false (List.replicate 16 0xff) prefixLen (subnetMask wraps a prefixLen)

/-- Whole octets on both sides of the one with the boundary. -/
theorem follows_of_octets {fillBit : Bool} {p : Nat} {v w : Vector UInt8 16}
    (hbelow : ∀ (i : Nat) (hi : i < 16), i < p / 8 → w[i] = v[i])
    (hat : ∀ (i : Nat) (hi : i < 16), i = p / 8 → ∀ k < 8, w[i].toBitVec.getMsbD k =
      if k < p % 8 then v[i].toBitVec.getMsbD k else fillBit)
    (habove : ∀ (i : Nat) (hi : i < 16), p / 8 < i → ∀ k < 8, w[i].toBitVec.getMsbD k = fillBit) :
    Follows fillBit p v.toList w.toList := by
  refine ⟨by simp, fun i hi => ?_⟩
  have hq : i / 8 < 16 := by
    simp at hi
    omega
  have hk : i % 8 < 8 := Nat.mod_lt _ (by decide)
  rw [bit_of_lt (by simpa using hq), bit_of_lt (by simpa using hq), Vector.getElem_toList,
    Vector.getElem_toList]
  rcases Nat.lt_trichotomy (i / 8) (p / 8) with h | h | h
  · rw [hbelow _ hq h, if_pos (by omega)]
  · have hiff : i % 8 < p % 8 ↔ i < p := by omega
    rw [hat _ hq h _ hk]
    simp only [hiff]
  · rw [habove _ hq h _ hk, if_neg (by omega)]

/-! ## The three methods

They write the octet at the boundary and fill a range of others. -/

section
variable (wraps : Bool) {p : BitVec 32} (v : Vector UInt8 16) (f : BitVec 8 → UInt8 → UInt8)
  (b : UInt8) (g : Vector UInt8 16 → IPv6Address)

theorem method_eq (hp : p.toNat < 128) (first : Nat) {last : Nat} (hlast : last ≤ 16) :
    ∃ (mask : BitVec 8) (w : Vector UInt8 16),
      (do
        let mask ← createMask wraps 8 (p % 8)
        let u ← update v (p.toNat / 8) (f mask)
        let u ← fill b first last u
        return some (g u)) = Except.ok (some (g w)) ∧
      (∀ i < 8, mask.getMsbD i = decide (p.toNat % 8 ≤ i)) ∧
      ∀ (i : Nat) (hi : i < 16), w[i] = if first ≤ i ∧ i < last then b
        else if i = p.toNat / 8 then f mask v[i] else v[i] := by
  have hq : p.toNat / 8 < 16 := by omega
  obtain ⟨mask, hmask, hbits⟩ := createMask_octet wraps p
  obtain ⟨w, hw, hoctets⟩ := fill_eq b first hlast (v.set (p.toNat / 8) (f mask v[p.toNat / 8]))
  refine ⟨mask, w, ?_, hbits, fun i hi => ?_⟩
  · simp only [hmask, update, dif_pos hq, hw, bind, Except.bind, pure, Except.pure]
  · rw [hoctets i hi, Vector.getElem_set]
    by_cases hq' : i = p.toNat / 8
    · subst hq'
      simp
    · rw [if_neg hq', if_neg (Ne.symm hq')]

/-- From 128 on the octet at the boundary is outside the array. -/
theorem method_error (hp : 128 ≤ p.toNat) (first last : Nat) :
    (do
      let mask ← createMask wraps 8 (p % 8)
      let u ← update v (p.toNat / 8) (f mask)
      let u ← fill b first last u
      return some (g u)) = Except.error .outOfBounds := by
  have hq : ¬p.toNat / 8 < 16 := by omega
  obtain ⟨mask, hmask, -⟩ := createMask_octet wraps p
  simp only [hmask, update, dif_neg hq, bind, Except.bind]

end

theorem prefixRight_of_ok {a b : IPv6Address} {fillBit : Bool} {s : List UInt8} {p : BitVec 32}
    (hp : p.toNat < 128) : a.PrefixRight fillBit s p (.ok (some b)) ↔
      Follows fillBit p.toNat s b.sin6Addr.toList ∧ b = { a with sin6Addr := b.sin6Addr } := by
  rw [PrefixRight, if_pos hp.le]
  constructor
  · rintro ⟨c, hc, h⟩
    cases hc
    exact h
  · exact fun h => ⟨b, rfl, h⟩

theorem not_prefixRight_of_error {a : IPv6Address} {fillBit : Bool} {s : List UInt8}
    {p : BitVec 32} {u : Undefined} : ¬a.PrefixRight fillBit s p (.error u) := by
  unfold PrefixRight
  by_cases hp : p.toNat ≤ 128
  · rw [if_pos hp]
    rintro ⟨b, hb, -⟩
    cases hb
  · rw [if_neg hp]
    exact fun hb => nomatch hb

theorem broadcastRight_iff (wraps : Bool) (a : IPv6Address) (p : BitVec 32) :
    a.BroadcastRight wraps p ↔ p.toNat < 128 := by
  by_cases hp : p.toNat < 128
  · obtain ⟨mask, w, hw, hbits, hoctets⟩ := method_eq wraps a.sin6Addr (fun mask => (· ||| ⟨mask⟩))
      0xff (fun u => { a with sin6Addr := u }) hp (p.toNat / 8 + 1) (Nat.le_refl 16)
    rw [BroadcastRight, broadcastAddress, hw, prefixRight_of_ok hp]
    simp only [hp, iff_true, and_true]
    refine follows_of_octets (fun i hi h => ?_) (fun i hi h k hk => ?_) fun i hi h k hk => ?_
    · rw [hoctets i hi, if_neg (by omega), if_neg (by omega)]
    · rw [hoctets i hi, if_neg (by omega), if_pos h, UInt8.toBitVec_or, BitVec.getMsbD_or,
        hbits k hk]
      by_cases hlt : k < p.toNat % 8
      · simp [hlt, Nat.not_le.mpr hlt]
      · simp [hlt, Nat.not_lt.mp hlt]
    · have hones : ∀ k < 8, (0xff : UInt8).toBitVec.getMsbD k = true := by decide
      rw [hoctets i hi, if_pos (by omega), hones k hk]
  · rw [BroadcastRight, broadcastAddress, method_error wraps _ _ _ _ (Nat.not_lt.mp hp)]
    simp only [hp, iff_false]
    exact not_prefixRight_of_error

theorem networkRight_iff (wraps : Bool) (a : IPv6Address) (p : BitVec 32) :
    a.NetworkRight wraps p ↔ p.toNat < 128 := by
  by_cases hp : p.toNat < 128
  · obtain ⟨mask, w, hw, hbits, hoctets⟩ := method_eq wraps a.sin6Addr
      (fun mask => (· &&& ~~~⟨mask⟩)) 0 (fun u => { a with sin6Addr := u }) hp
      (p.toNat / 8 + 1) (Nat.le_refl 16)
    rw [NetworkRight, networkAddress, hw, prefixRight_of_ok hp]
    simp only [hp, iff_true, and_true]
    refine follows_of_octets (fun i hi h => ?_) (fun i hi h k hk => ?_) fun i hi h k hk => ?_
    · rw [hoctets i hi, if_neg (by omega), if_neg (by omega)]
    · rw [hoctets i hi, if_neg (by omega), if_pos h, UInt8.toBitVec_and, UInt8.toBitVec_not,
        BitVec.getMsbD_and, BitVec.getMsbD_not, hbits k hk]
      by_cases hlt : k < p.toNat % 8
      · simp [hlt, hk, Nat.not_le.mpr hlt]
      · simp [hlt, Nat.not_lt.mp hlt]
    · rw [hoctets i hi, if_pos (by omega)]
      exact BitVec.getMsbD_zero
  · rw [NetworkRight, networkAddress, method_error wraps _ _ _ _ (Nat.not_lt.mp hp)]
    simp only [hp, iff_false]
    exact not_prefixRight_of_error

theorem subnetMaskRight_iff (wraps : Bool) (a : IPv6Address) (p : BitVec 32) :
    a.SubnetMaskRight wraps p ↔ p.toNat < 128 ∧ a.sin6Family = afInet6 ∧
      a.sin6Port = Vector.replicate 2 0 ∧ a.sin6Flowinfo = Vector.replicate 4 0 ∧
      a.sin6ScopeId = Vector.replicate 4 0 := by
  by_cases hp : p.toNat < 128
  · obtain ⟨mask, w, hw, hbits, hoctets⟩ := method_eq wraps (Vector.replicate 16 0)
      (fun mask _ => ~~~⟨mask⟩) 0xff (fun u => ⟨afInet6, Vector.replicate 2 0, Vector.replicate 4 0, u,
        Vector.replicate 4 0⟩) hp 0 (show p.toNat / 8 ≤ 16 by omega)
    have hfollows : Follows false p.toNat (Vector.replicate 16 (0xff : UInt8)).toList w.toList := by
      have hones : ∀ k < 8, (0xff : UInt8).toBitVec.getMsbD k = true := by decide
      refine follows_of_octets (fun i hi h => ?_) (fun i hi h k hk => ?_) fun i hi h k hk => ?_
      · rw [hoctets i hi, if_pos (by omega), Vector.getElem_replicate]
      · rw [hoctets i hi, if_neg (by omega), if_pos h, UInt8.toBitVec_not, BitVec.getMsbD_not,
          hbits k hk, Vector.getElem_replicate, hones k hk]
        by_cases hlt : k < p.toNat % 8
        · simp [hlt, hk, Nat.not_le.mpr hlt]
        · simp [hlt, Nat.not_lt.mp hlt]
      · rw [hoctets i hi, if_neg (by omega), if_neg (by omega), Vector.getElem_replicate]
        exact BitVec.getMsbD_zero
    rw [SubnetMaskRight, subnetMask, hw, prefixRight_of_ok hp]
    constructor
    · rintro ⟨-, heq⟩
      cases a
      cases heq
      exact ⟨hp, rfl, rfl, rfl, rfl⟩
    · rintro ⟨-, hfamily, hport, hflowinfo, hscope⟩
      rw [Vector.toList_replicate] at hfollows
      refine ⟨hfollows, ?_⟩
      rw [hfamily, hport, hflowinfo, hscope]
  · rw [SubnetMaskRight, subnetMask, method_error wraps _ _ _ _ (Nat.not_lt.mp hp)]
    simp only [hp, false_and, iff_false]
    exact not_prefixRight_of_error

theorem ipv6_prefix_iff (wraps : Bool) (a : IPv6Address) (p : BitVec 32) :
    (a.BroadcastRight wraps p ↔ p.toNat < 128) ∧ (a.NetworkRight wraps p ↔ p.toNat < 128) ∧
      (a.SubnetMaskRight wraps p ↔ p.toNat < 128 ∧ a.sin6Family = afInet6 ∧
        a.sin6Port = Vector.replicate 2 0 ∧ a.sin6Flowinfo = Vector.replicate 4 0 ∧
        a.sin6ScopeId = Vector.replicate 4 0) :=
  ⟨broadcastRight_iff wraps a p, networkRight_iff wraps a p, subnetMaskRight_iff wraps a p⟩

/-- `[::1]:80`. -/
def loopback : IPv6Address :=
  ⟨afInet6, #v[0, 80], Vector.replicate 4 0, (Vector.replicate 16 0).set 15 1,
    Vector.replicate 4 0⟩

theorem loopback_full_prefix :
    broadcastAddress true loopback 128 = .error .outOfBounds ∧
      networkAddress true loopback 128 = .error .outOfBounds ∧
      subnetMask true loopback 128 = .error .outOfBounds ∧
      networkAddress true loopback 129 = .error .outOfBounds ∧
      ¬loopback.BroadcastRight true 128 ∧ ¬loopback.NetworkRight true 128 ∧
      ¬loopback.SubnetMaskRight true 128 ∧ ¬loopback.NetworkRight true 129 ∧
      ¬loopback.SubnetMaskRight true 64 := by
  refine ⟨rfl, rfl, rfl, rfl, ?_, ?_, ?_, ?_, ?_⟩
  · exact fun h => absurd ((broadcastRight_iff _ _ _).mp h) (by decide)
  · exact fun h => absurd ((networkRight_iff _ _ _).mp h) (by decide)
  · exact fun h => absurd ((subnetMaskRight_iff _ _ _).mp h).1 (by decide)
  · exact fun h => absurd ((networkRight_iff _ _ _).mp h) (by decide)
  · exact fun h => absurd ((subnetMaskRight_iff _ _ _).mp h).2.2.1 (by decide)

end IPv6Address

end TwServer
