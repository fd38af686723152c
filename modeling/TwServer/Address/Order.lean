import TwServer.Address.Model
import TwServer.Lib.Lines

/-! `Address::operator<` as an order. Two addresses with a difference in their common
bytes are not in any order: the operator is the order of proper prefixes. -/

namespace TwServer
open Memcmp

namespace Address

/-! ## What the operators decide -/

theorem operatorEq_iff {a b : Address} : a.operatorEq b = true ↔ a.bytes = b.bytes := by
  rw [operatorEq, Bool.and_eq_true, decide_eq_true_eq, decide_eq_true_eq]
  constructor
  · rintro ⟨hlen, hcmp⟩
    have hle := b.getAddrLen_le
    rw [← hlen] at hle
    rw [bytes, bytes, (memcmp_eq_zero_iff a.getAddrLen_le hle).mp hcmp, hlen]
  · intro h
    have hlen := congrArg List.length h
    rw [length_bytes, length_bytes] at hlen
    have hle := b.getAddrLen_le
    rw [← hlen] at hle
    refine ⟨hlen, (memcmp_eq_zero_iff a.getAddrLen_le hle).mpr ?_⟩
    rw [bytes, bytes, ← hlen] at h
    exact h

/-- `operator<` is the order of proper prefixes. -/
theorem operatorLess_iff {a b : Address} :
    a.operatorLess b = true ↔ a.bytes <+: b.bytes ∧ a.bytes ≠ b.bytes := by
  have ha := a.getAddrLen_le
  have hb := b.getAddrLen_le
  have hcmp := memcmp_eq_zero_iff (l := a.getAddr) (m := b.getAddr)
    (Nat.le_trans (Nat.min_le_left a.getAddrLen b.getAddrLen) ha)
    (Nat.le_trans (Nat.min_le_right a.getAddrLen b.getAddrLen) hb)
  have hless : a.operatorLess b = true ↔
      memcmp a.getAddr b.getAddr (min a.getAddrLen b.getAddrLen) = 0 ∧
        a.getAddrLen < b.getAddrLen := by
    unfold operatorLess
    dsimp only
    split
    · exact iff_of_false (by decide) (by omega)
    · split
      · exact iff_of_false (by decide) (by omega)
      · split
        · exact iff_of_true rfl (by omega)
        · exact iff_of_false (by decide) (by omega)
  rw [hless, hcmp]
  constructor
  · rintro ⟨hsame, hlt⟩
    rw [Nat.min_eq_left hlt.le] at hsame
    have hfront : a.bytes = b.bytes.take a.getAddrLen := by
      rw [bytes, bytes, List.take_take, Nat.min_eq_left hlt.le, hsame]
    refine ⟨hfront ▸ List.take_prefix _ _, fun heq => ?_⟩
    have hlen := congrArg List.length heq
    rw [length_bytes, length_bytes] at hlen
    omega
  · rintro ⟨hfront, hne⟩
    have hle := hfront.length_le
    rw [length_bytes, length_bytes] at hle
    have hlt : a.getAddrLen < b.getAddrLen := by
      refine Nat.lt_of_le_of_ne hle fun hlen => hne (hfront.eq_of_length ?_)
      rw [length_bytes, length_bytes, hlen]
    refine ⟨?_, hlt⟩
    have htake := List.prefix_iff_eq_take.mp hfront
    rw [length_bytes, bytes, bytes, List.take_take, Nat.min_eq_left hle] at htake
    rw [Nat.min_eq_left hle]
    exact htake

theorem operatorLess_trans {a b c : Address} (hab : a.operatorLess b = true)
    (hbc : b.operatorLess c = true) : a.operatorLess c = true := by
  rw [operatorLess_iff] at hab hbc ⊢
  refine ⟨hab.1.trans hbc.1, fun hac => hbc.2 ?_⟩
  rw [hac] at hab
  exact hbc.1.eq_of_length (Nat.le_antisymm hbc.1.length_le hab.1.length_le)

/-! ## What a key of an ordered container needs -/

/-- Exactly one of the three holds. -/
def ExactlyOne (p q r : Prop) : Prop := (p ∧ ¬q ∧ ¬r) ∨ (¬p ∧ q ∧ ¬r) ∨ (¬p ∧ ¬q ∧ r)

structure Ordered (a b c : Address) : Prop where
  trichotomy : ExactlyOne (a.operatorLess b = true) (a.operatorEq b = true)
    (b.operatorLess a = true)
  trans : a.operatorLess b = true → b.operatorLess c = true → a.operatorLess c = true
  lexicographic : a.operatorLess b = true ↔ a.bytes < b.bytes

/-- The operator orders the addresses of which one continues the other, and no others. -/
theorem ordered_iff (a b c : Address) :
    Ordered a b c ↔ a.bytes <+: b.bytes ∨ b.bytes <+: a.bytes := by
  constructor
  · intro h
    rcases h.trichotomy with ⟨hless, -, -⟩ | ⟨-, heq, -⟩ | ⟨-, -, hless⟩
    · exact .inl (operatorLess_iff.mp hless).1
    · exact .inl (operatorEq_iff.mp heq ▸ List.prefix_rfl)
    · exact .inr (operatorLess_iff.mp hless).1
  · intro h
    refine ⟨?_, operatorLess_trans, ?_⟩
    · unfold ExactlyOne
      rw [operatorLess_iff, operatorLess_iff, operatorEq_iff]
      by_cases heq : a.bytes = b.bytes
      · exact .inr (.inl ⟨fun hless => hless.2 heq, heq, fun hless => hless.2 heq.symm⟩)
      · rcases h with hab | hba
        · refine .inl ⟨⟨hab, heq⟩, heq, fun hless => heq ?_⟩
          exact hab.eq_of_length (Nat.le_antisymm hab.length_le hless.1.length_le)
        · refine .inr (.inr ⟨fun hless => heq ?_, heq, hba, Ne.symm heq⟩)
          exact hless.1.eq_of_length (Nat.le_antisymm hless.1.length_le hba.length_le)
    · rw [operatorLess_iff]
      rcases h with hab | hba
      · rw [lt_continuation_iff hab]
        exact and_iff_right hab
      · refine iff_of_false (fun hless => hless.2 ?_) (continuation_not_lt hba)
        exact hless.1.eq_of_length (Nat.le_antisymm hless.1.length_le hba.length_le)

/-- 127.0.0.1 with the ports 80 and 81: neither is less, and they are not equal. -/
theorem ports_unordered :
    ¬ Ordered (IPv4Address.new 0x7f000001 80) (IPv4Address.new 0x7f000001 81)
      (IPv4Address.new 0x7f000001 80) := by
  intro h
  rcases h.trichotomy with ⟨hless, -, -⟩ | ⟨-, heq, -⟩ | ⟨-, -, hless⟩
  · exact absurd hless (by decide)
  · exact absurd heq (by decide)
  · exact absurd hless (by decide)

/-! ## Paths -/

/-- The bytes of a Unix address: an abstract name as it is, a path with its final 0. -/
theorem bytes_unix {path : List UInt8} {address : UnixAddress}
    (h : UnixAddress.new path = .ok address) (hsize : path.length + 1 < 2 ^ 32) :
    (unix address).bytes = [1, 0] ++ (path ++ if path.head? = some 0 then [] else [0]) := by
  have hlength : (if path.head? = some 0 then path.length else path.length + 1) % 2 ^ 32 =
      (path ++ if path.head? = some 0 then [] else [0]).length := by
    split
    · rw [List.append_nil, Nat.mod_eq_of_lt (Nat.lt_of_succ_lt hsize)]
    · rw [Nat.mod_eq_of_lt hsize, List.length_append]
      rfl
  by_cases hfit :
      (if path.head? = some 0 then path.length else path.length + 1) % 2 ^ 32 > 108
  · rw [UnixAddress.new, dif_pos hfit] at h
    cases h
  · rw [UnixAddress.new, dif_neg hfit] at h
    cases h
    have hname : (path.take (path ++ if path.head? = some 0 then [] else [0]).length ++
        List.replicate 108 0).take (path ++ if path.head? = some 0 then [] else [0]).length =
          path ++ if path.head? = some 0 then [] else [0] := by
      split
      · rw [List.append_nil, List.take_length, List.take_left]
      · rw [List.length_append, List.take_of_length_le (Nat.le_add_right _ _),
          List.take_length_add_append]
        rfl
    rw [← hlength] at hname
    show (([1, 0] : List UInt8) ++ (path.take _ ++ List.replicate 108 0).take 108).take (_ + 2) = _
    rw [List.cons_append, List.cons_append, List.nil_append, List.take_succ_cons,
      List.take_succ_cons, List.take_take, Nat.min_eq_left (Nat.le_of_not_gt hfit), hname]
    rfl

/-- Two paths in the file system are ordered if they are the same, whatever their lengths. -/
theorem paths_ordered_iff {path path' : List UInt8} {address address' : UnixAddress}
    (h : UnixAddress.new path = .ok address) (h' : UnixAddress.new path' = .ok address')
    (hsize : path.length + 1 < 2 ^ 32) (hsize' : path'.length + 1 < 2 ^ 32)
    (hpath : 0 ∉ path) (hpath' : 0 ∉ path') (c : Address) :
    Ordered (unix address) (unix address') c ↔ path = path' := by
  have hname {p : List UInt8} (hp : 0 ∉ p) : ¬ p.head? = some 0 :=
    fun hhead => hp (List.mem_of_mem_head? hhead)
  have hfront {p q : List UInt8} (hp : 0 ∉ p) (hq : 0 ∉ q)
      (hpq : [1, 0] ++ (p ++ [0]) <+: [1, 0] ++ (q ++ [0])) : p = q := by
    rw [List.prefix_append_right_inj] at hpq
    obtain ⟨t, ht⟩ := hpq
    rw [List.append_assoc] at ht
    exact (Lines.append_cons_inj hp hq ht).1
  rw [ordered_iff, bytes_unix h hsize, bytes_unix h' hsize', if_neg (hname hpath),
    if_neg (hname hpath')]
  constructor
  · rintro (hpq | hqp)
    · exact hfront hpath hpath' hpq
    · exact (hfront hpath' hpath hqp).symm
  · rintro rfl
    exact .inl List.prefix_rfl

end Address
end TwServer
