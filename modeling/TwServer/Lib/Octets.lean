import Mathlib.Tactic.TypeStar
import Mathlib.Algebra.Order.Ring.Nat

/-! Numbers as octets: a fixed number of them in either byte order, and groups of
seven bits in which all but the last octet carry the high bit. -/

namespace Octets

/-! ## Fixed width -/

/-- The low `k` octets, the lowest first. -/
def little : Nat → Nat → List UInt8
  | 0, _ => []
  | k + 1, n => UInt8.ofNat n :: little k (n / 256)

def value : List UInt8 → Nat
  | [] => 0
  | b :: bs => b.toNat + 256 * value bs

/-- The low `k` octets, the highest first. -/
def big (k n : Nat) : List UInt8 := (little k n).reverse

@[simp] theorem length_little (k n : Nat) : (little k n).length = k := by
  induction k generalizing n with
  | zero => rfl
  | succ k ih => rw [little, List.length_cons, ih]

@[simp] theorem length_big (k n : Nat) : (big k n).length = k := by simp [big]

theorem value_lt (bs : List UInt8) : value bs < 256 ^ bs.length := by
  induction bs with
  | nil => decide
  | cons b bs ih =>
    have hb : b.toNat < 256 := b.toNat_lt
    rw [value, List.length_cons, Nat.pow_succ]
    omega

theorem value_little {k n : Nat} (h : n < 256 ^ k) : value (little k n) = n := by
  induction k generalizing n with
  | zero =>
    rw [Nat.pow_zero] at h
    exact (Nat.lt_one_iff.mp h).symm
  | succ k ih =>
    have hdiv : n / 256 < 256 ^ k := Nat.div_lt_of_lt_mul (by rwa [Nat.pow_succ, Nat.mul_comm] at h)
    rw [little, value, ih hdiv, UInt8.toNat_ofNat']
    omega

theorem little_value (bs : List UInt8) : little bs.length (value bs) = bs := by
  induction bs with
  | nil => rfl
  | cons b bs ih =>
    have hb : b.toNat < 256 := b.toNat_lt
    have hdiv : (b.toNat + 256 * value bs) / 256 = value bs := by omega
    have hhead : UInt8.ofNat (b.toNat + 256 * value bs) = b := by
      apply UInt8.toNat_inj.mp
      rw [UInt8.toNat_ofNat']
      omega
    rw [List.length_cons, value, little, hdiv, ih, hhead]

/-! ## Groups of seven bits -/

def varint (n : Nat) : List UInt8 :=
  if n < 128 then [UInt8.ofNat n] else UInt8.ofNat (n % 128 + 128) :: varint (n / 128)
termination_by n
decreasing_by omega

theorem varint_small {n : Nat} (h : n < 128) : varint n = [UInt8.ofNat n] := by
  rw [varint, if_pos h]

theorem varint_big {n : Nat} (h : 128 ≤ n) :
    varint n = UInt8.ofNat (n % 128 + 128) :: varint (n / 128) := by
  rw [varint, if_neg (by omega)]

theorem varint_ne_nil (n : Nat) : varint n ≠ [] := by
  rcases Nat.lt_or_ge n 128 with h | h
  · simp [varint_small h]
  · simp [varint_big h]

theorem length_varint_le {n k : Nat} (h : n < 128 ^ (k + 1)) : (varint n).length ≤ k + 1 := by
  induction k generalizing n with
  | zero =>
    rw [Nat.zero_add, Nat.pow_one] at h
    simp [varint_small h]
  | succ k ih =>
    rcases Nat.lt_or_ge n 128 with hn | hn
    · simp [varint_small hn]
    · have hdiv : n / 128 < 128 ^ (k + 1) :=
        Nat.div_lt_of_lt_mul (by rwa [Nat.pow_succ, Nat.mul_comm] at h)
      rw [varint_big hn, List.length_cons]
      exact Nat.succ_le_succ (ih hdiv)

end Octets
