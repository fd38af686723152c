import Mathlib.Data.UInt
import Mathlib.Tactic.IntervalCases

/-! Octets as a string of bits, the most significant first: a string that follows another
one up to a position, and how many bits are set. -/

namespace BitString

def bit (s : List UInt8) (i : Nat) : Bool := (s.getD (i / 8) 0).toBitVec.getMsbD (i % 8)

theorem bit_cons_of_lt (b : UInt8) (s : List UInt8) {i : Nat} (h : i < 8) :
    bit (b :: s) i = b.toBitVec.getMsbD i := by
  rw [bit, Nat.div_eq_of_lt h, Nat.mod_eq_of_lt h, List.getD_cons_zero]

theorem bit_cons_add (b : UInt8) (s : List UInt8) (i : Nat) : bit (b :: s) (i + 8) = bit s i := by
  rw [bit, bit, Nat.add_div_right _ (by decide), Nat.add_mod_right, List.getD_cons_succ]

theorem bit_of_lt {s : List UInt8} {i : Nat} (h : i / 8 < s.length) :
    bit s i = s[i / 8].toBitVec.getMsbD (i % 8) := by
  rw [bit, List.getD_eq_getElem?_getD, List.getElem?_eq_getElem h, Option.getD_some]

theorem bit_or {s t : List UInt8} (hlen : s.length = t.length) {i : Nat} (h : i < 8 * s.length) :
    bit (List.zipWith (· ||| ·) s t) i = (bit s i || bit t i) := by
  have hs : i / 8 < s.length := by omega
  have ht : i / 8 < t.length := hlen ▸ hs
  have hz : i / 8 < (List.zipWith (· ||| ·) s t).length := by simp [hs, ht]
  rw [bit_of_lt hs, bit_of_lt ht, bit_of_lt hz]
  simp

theorem bit_and {s t : List UInt8} (hlen : s.length = t.length) {i : Nat} (h : i < 8 * s.length) :
    bit (List.zipWith (· &&& ·) s t) i = (bit s i && bit t i) := by
  have hs : i / 8 < s.length := by omega
  have ht : i / 8 < t.length := hlen ▸ hs
  have hz : i / 8 < (List.zipWith (· &&& ·) s t).length := by simp [hs, ht]
  rw [bit_of_lt hs, bit_of_lt ht, bit_of_lt hz]
  simp

theorem bit_not {s : List UInt8} {i : Nat} (h : i < 8 * s.length) :
    bit (s.map (~~~ ·)) i = !bit s i := by
  have hs : i / 8 < s.length := by omega
  have hm : i / 8 < (s.map (~~~ ·)).length := by simpa using hs
  rw [bit_of_lt hs, bit_of_lt hm]
  simp
  omega

theorem bit_replicate {n i : Nat} (h : i < 8 * n) : bit (List.replicate n 0xff) i = true := by
  have hall : ∀ k < 8, (0xff : UInt8).toBitVec.getMsbD k = true := by decide
  rw [bit_of_lt (by rw [List.length_replicate]; omega), List.getElem_replicate]
  exact hall _ (Nat.mod_lt _ (by decide))

/-- `t` is `s` up to its bit `p` and `fill` from there on. -/
structure Follows (fill : Bool) (p : Nat) (s t : List UInt8) : Prop where
  length : t.length = s.length
  bits : ∀ i < 8 * s.length, bit t i = if i < p then bit s i else fill

/-! ## Bits that are set -/

theorem concat_true_sub_one {w : Nat} (x : BitVec w) : x.concat true - 1 = x.concat false := by
  have hle : 1 ≤ x.concat true := by simp [BitVec.le_def, BitVec.toNat_concat]
  apply BitVec.eq_of_toNat_eq
  rw [BitVec.toNat_sub_of_le hle]
  simp [BitVec.toNat_concat]

theorem concat_false_sub_one {w : Nat} {x : BitVec w} (h : x ≠ 0) :
    x.concat false - 1 = (x - 1).concat true := by
  have hx := x.isLt
  have hpos : x.toNat ≠ 0 := fun h0 => h (BitVec.eq_of_toNat_eq (by simpa using h0))
  have hone : (1 : BitVec w).toNat = 1 := by
    simp only [BitVec.ofNat_eq_ofNat, BitVec.toNat_ofNat]
    exact Nat.mod_eq_of_lt (by omega)
  have hle : 1 ≤ x := by
    rw [BitVec.le_def, hone]
    omega
  have hle' : 1 ≤ x.concat false := by
    simp [BitVec.le_def, BitVec.toNat_concat]
    omega
  apply BitVec.eq_of_toNat_eq
  rw [BitVec.toNat_sub_of_le hle', BitVec.toNat_concat, BitVec.toNat_concat,
    BitVec.toNat_sub_of_le hle, hone]
  simp
  omega

/-- `x & (x - 1)` clears the lowest bit that is set. -/
theorem cpop_and_sub_one {w : Nat} {x : BitVec w} (h : x ≠ 0) :
    (x &&& (x - 1)).cpop.toNat + 1 = x.cpop.toNat := by
  induction x using BitVec.concat_induction with
  | nil => exact absurd rfl h
  | concat x b ih =>
    cases b with
    | true =>
      rw [concat_true_sub_one, BitVec.concat_and_concat, BitVec.and_self,
        BitVec.toNat_cpop_concat, BitVec.toNat_cpop_concat]
      simp [Nat.add_comm]
    | false =>
      have hx : x ≠ 0 := by
        rintro rfl
        exact h (by simp)
      rw [concat_false_sub_one hx, BitVec.concat_and_concat, BitVec.toNat_cpop_concat,
        BitVec.toNat_cpop_concat]
      simpa using ih hx

def ones (s : List UInt8) : Nat := (s.map fun b => b.toBitVec.cpop.toNat).sum

@[simp] theorem ones_nil : ones [] = 0 := rfl

@[simp] theorem ones_cons (b : UInt8) (s : List UInt8) :
    ones (b :: s) = b.toBitVec.cpop.toNat + ones s := rfl

/-- An octet whose first `p` bits are set. -/
theorem cpop_of_bits {b : BitVec 8} {p : Nat} (hp : p ≤ 8)
    (h : ∀ i < 8, b.getMsbD i = decide (i < p)) : b.cpop.toNat = p := by
  have hb : b = BitVec.allOnes 8 <<< (8 - p) := by
    apply BitVec.eq_of_getMsbD_eq
    intro i hi
    rw [h i hi, BitVec.getMsbD_shiftLeft, BitVec.getMsbD_allOnes]
    apply decide_eq_decide.mpr
    omega
  subst hb
  interval_cases p <;> rfl

theorem ones_of_bits {s : List UInt8} {p : Nat} (hp : p ≤ 8 * s.length)
    (h : ∀ i < 8 * s.length, bit s i = decide (i < p)) : ones s = p := by
  induction s generalizing p with
  | nil => exact (Nat.le_zero.mp hp).symm
  | cons b s ih =>
    rw [List.length_cons] at hp h
    have hhead : b.toBitVec.cpop.toNat = min p 8 := by
      refine cpop_of_bits (Nat.min_le_right _ _) fun i hi => ?_
      rw [← bit_cons_of_lt b s hi, h i (by omega)]
      apply decide_eq_decide.mpr
      omega
    have htail : ones s = p - 8 := by
      refine ih (by omega) fun i hi => ?_
      rw [← bit_cons_add b s i, h (i + 8) (by omega)]
      apply decide_eq_decide.mpr
      omega
    rw [ones_cons, hhead, htail]
    omega

/-- The prefix of a string of set bits. -/
theorem ones_of_follows {n p : Nat} {t : List UInt8} (hp : p ≤ 8 * n)
    (h : Follows false p (List.replicate n 0xff) t) : ones t = p := by
  have hlen : t.length = n := by simpa using h.length
  refine ones_of_bits (by rwa [hlen]) fun i hi => ?_
  rw [hlen] at hi
  rw [h.bits i (by simpa using hi), bit_replicate hi]
  by_cases hip : i < p
  · simp [hip]
  · simp [hip]

end BitString
