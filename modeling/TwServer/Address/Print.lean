import TwServer.Address.Model
import TwServer.Lib.Ipv6Text

/-! `IPv6Address::insert`: one loop over the groups leaves out the first run of zeros, and
what it prints is read back as the same address and port. -/

namespace TwServer
open Ipv6Text

/-! ## The loop -/

/-- It has the field `m_addr` and no other. -/
abbrev IPv6Address := SockaddrIn6

namespace IPv6Address

/-- `((uint16_t*)m_addr.sin6_addr.s6_addr)[i]`. -/
def addr (a : IPv6Address) (i : Fin 8) : Vector UInt8 2 :=
  #v[a.sin6Addr[2 * i.val], a.sin6Addr[2 * i.val + 1]]

/-- The groups in the order of the host. -/
def groups (a : IPv6Address) : List (BitVec 16) := List.ofFn fun i => ntohs (a.addr i)

/-- One round: the text so far and `used_zeros`. -/
def insertGroup {n : Nat} (addr : Fin n → Vector UInt8 2) (state : List Char × Bool) (i : Fin n) :
    List Char × Bool :=
  let (os, usedZeros) := state
  if addr i = #v[0, 0] ∧ usedZeros = false then (os, usedZeros)
  else
    let (os, usedZeros) :=
      if 0 < i.val ∧ addr ⟨i.val - 1, by omega⟩ = #v[0, 0] ∧ usedZeros = false then
        (os ++ [':'], true)
      else (os, usedZeros)
    let os := if 0 < i.val then os ++ [':'] else os
    (os ++ Nat.toDigits 16 (ntohs (addr i)).toNat, usedZeros)

/-- What is written to an `ostream` that formats as by default. -/
def insert (a : IPv6Address) (os : List Char) : List Char :=
  let os := os ++ ['[']
  let (os, usedZeros) := Fin.foldl 8 (insertGroup a.addr) (os, false)
  let os := if usedZeros = false ∧ a.addr 7 = #v[0, 0] then os ++ [':', ':'] else os
  os ++ [']', ':'] ++ Nat.toDigits 10 (ntohs a.sin6Port).toNat

/-! ## What is written after each round -/

/-- One round over the groups that are done. -/
def stepGroup (done : List (BitVec 16)) (state : List Char × Bool) (g : BitVec 16) :
    List Char × Bool :=
  let (os, usedZeros) := state
  if g = 0 ∧ usedZeros = false then (os, usedZeros)
  else
    let (os, usedZeros) :=
      if done.getLast? = some 0 ∧ usedZeros = false then (os ++ [':'], true) else (os, usedZeros)
    let os := if done ≠ [] then os ++ [':'] else os
    (os ++ group g, usedZeros)

theorem insertGroup_last {n : Nat} (addr : Fin (n + 1) → Vector UInt8 2)
    (state : List Char × Bool) :
    insertGroup addr state (Fin.last n) =
      stepGroup (List.ofFn fun i : Fin n => ntohs (addr i.castSucc)) state
        (ntohs (addr (Fin.last n))) := by
  have hzero : ntohs (addr (Fin.last n)) = 0 ↔ addr (Fin.last n) = #v[0, 0] := ntohs_eq_zero_iff
  have hfirst : (List.ofFn fun i : Fin n => ntohs (addr i.castSucc)) ≠ [] ↔
      0 < (Fin.last n).val := by
    rw [ne_eq, List.ofFn_eq_nil_iff]
    exact Nat.pos_iff_ne_zero.symm
  have hlast : (List.ofFn fun i : Fin n => ntohs (addr i.castSucc)).getLast? = some 0 ↔
      0 < (Fin.last n).val ∧ addr ⟨(Fin.last n).val - 1, by omega⟩ = #v[0, 0] := by
    cases n with
    | zero => simp
    | succ n =>
      rw [List.ofFn_succ_last, List.getLast?_concat, Option.some_inj, ntohs_eq_zero_iff]
      exact (and_iff_right (Nat.succ_pos n)).symm
  simp only [insertGroup, stepGroup, hzero, hfirst, hlast, and_assoc]
  rfl

theorem stepGroup_skip (done : List (BitVec 16)) (os : List Char) :
    stepGroup done (os, false) 0 = (os, false) := by
  unfold stepGroup
  exact if_pos ⟨rfl, rfl⟩

theorem stepGroup_plain {done : List (BitVec 16)} {g : BitVec 16} (hg : g ≠ 0)
    (hlast : done.getLast? ≠ some 0) (os : List Char) :
    stepGroup done (os, false) g =
      ((if done ≠ [] then os ++ [':'] else os) ++ group g, false) := by
  have hopen : ¬ (done.getLast? = some 0 ∧ false = false) := fun h => hlast h.1
  unfold stepGroup
  dsimp only
  rw [if_neg fun h => hg h.1, if_neg hopen]

theorem stepGroup_close {done : List (BitVec 16)} {g : BitVec 16} (hg : g ≠ 0)
    (hlast : done.getLast? = some 0) (os : List Char) :
    stepGroup done (os, false) g = (os ++ [':'] ++ [':'] ++ group g, true) := by
  have hopen : done.getLast? = some 0 ∧ false = false := ⟨hlast, rfl⟩
  have hne : done ≠ [] := fun hnil => by simp [hnil] at hlast
  unfold stepGroup
  dsimp only
  rw [if_neg fun h => hg h.1, if_pos hopen, if_pos hne]

/-- After the `::` zeros are written as well. -/
theorem stepGroup_used {done : List (BitVec 16)} (hne : done ≠ []) (os : List Char)
    (g : BitVec 16) : stepGroup done (os, true) g = (os ++ [':'] ++ group g, true) := by
  have hopen : ¬ (done.getLast? = some 0 ∧ true = false) := fun h => Bool.noConfusion h.2
  unfold stepGroup
  dsimp only
  rw [if_neg fun h => Bool.noConfusion h.2, if_neg hopen, if_pos hne]

/-- The groups that are done and the text: no run of zeros has been closed, or one has. -/
inductive Printed (os : List Char) : List (BitVec 16) → List Char × Bool → Prop
  | plain {pre : List (BitVec 16)} (k : Nat) : 0 ∉ pre →
      Printed os (pre ++ List.replicate k 0) (os ++ join pre, false)
  | gap (pre : List (BitVec 16)) {post : List (BitVec 16)} {k : Nat} : 0 < k → post ≠ [] →
      Printed os (pre ++ List.replicate k 0 ++ post)
        (os ++ (join pre ++ ':' :: ':' :: join post), true)

/-- What ends in a zero has an open run. -/
theorem getLast?_open {pre : List (BitVec 16)} (hpre : 0 ∉ pre) {k : Nat} :
    (pre ++ List.replicate k 0).getLast? = some 0 ↔ 0 < k := by
  cases k with
  | zero =>
    rw [List.replicate_zero, List.append_nil]
    exact iff_of_false (fun hlast => hpre (List.mem_of_getLast? hlast)) (Nat.lt_irrefl 0)
  | succ k =>
    rw [List.replicate_succ', ← List.append_assoc, List.getLast?_concat]
    exact iff_of_true rfl (Nat.succ_pos k)

/-- One more group after a text of groups. -/
theorem join_push (os : List Char) (gs : List (BitVec 16)) (g : BitVec 16) :
    (if gs ≠ [] then os ++ join gs ++ [':'] else os ++ join gs) ++ group g =
      os ++ join (gs ++ [g]) := by
  by_cases hgs : gs = []
  · subst hgs
    simp [join]
  · rw [if_pos hgs, join_concat hgs]
    simp

theorem Printed.step {os : List Char} {done : List (BitVec 16)} {state : List Char × Bool}
    (h : Printed os done state) (g : BitVec 16) :
    Printed os (done ++ [g]) (stepGroup done state g) := by
  cases h with
  | @plain pre k hpre =>
    by_cases hg : g = 0
    · subst hg
      rw [stepGroup_skip, List.append_assoc, ← List.replicate_succ']
      exact .plain (k + 1) hpre
    · by_cases hk : 0 < k
      · rw [stepGroup_close hg ((getLast?_open hpre).mpr hk)]
        have htext : os ++ join pre ++ [':'] ++ [':'] ++ group g =
            os ++ (join pre ++ ':' :: ':' :: join [g]) := by
          simp [join]
        rw [htext]
        exact .gap pre hk (List.cons_ne_nil g [])
      · rw [stepGroup_plain hg (mt (getLast?_open hpre).mp hk)]
        obtain rfl : k = 0 := Nat.eq_zero_of_not_pos hk
        have hpre' : 0 ∉ pre ++ [g] := by
          rw [List.mem_append, List.mem_singleton]
          exact not_or.mpr ⟨hpre, Ne.symm hg⟩
        have hdone : Printed os (pre ++ [g] ++ List.replicate 0 0) (os ++ join (pre ++ [g]), false) :=
          .plain 0 hpre'
        rw [List.replicate_zero, List.append_nil] at hdone ⊢
        rw [join_push]
        exact hdone
  | @gap pre post k hk hpost =>
    have htext : os ++ (join pre ++ ':' :: ':' :: join post) ++ [':'] ++ group g =
        os ++ (join pre ++ ':' :: ':' :: join (post ++ [g])) := by
      simp [join_concat hpost]
    rw [stepGroup_used (List.append_ne_nil_of_right_ne_nil _ hpost), htext, List.append_assoc]
    exact .gap pre hk (List.append_ne_nil_of_left_ne_nil hpost [g])

theorem printed_loop {n : Nat} (addr : Fin n → Vector UInt8 2) (os : List Char) :
    Printed os (List.ofFn fun i => ntohs (addr i)) (Fin.foldl n (insertGroup addr) (os, false)) := by
  induction n with
  | zero =>
    have hdone : Printed os ([] ++ List.replicate 0 0) (os ++ join [], false) :=
      .plain 0 List.not_mem_nil
    rw [join, List.map_nil, List.intercalate_nil, List.append_nil] at hdone
    exact hdone
  | succ n ih =>
    rw [Fin.foldl_succ_last, List.ofFn_succ_last, insertGroup_last]
    exact (ih fun i => addr i.castSucc).step _

/-- With the `::` of a run that is still open, the text is one of the grammar. -/
theorem Printed.writes {os : List Char} {done : List (BitVec 16)} {state : List Char × Bool}
    (h : Printed os done state) (hlength : done.length = 8) :
    ∃ text, Writes text done ∧
      (state.2 = false ∧ done.getLast? = some 0 → state.1 ++ [':', ':'] = os ++ text) ∧
      (¬ (state.2 = false ∧ done.getLast? = some 0) → state.1 = os ++ text) := by
  cases h with
  | @plain pre k hpre =>
    rw [getLast?_open hpre]
    by_cases hk : 0 < k
    · refine ⟨join pre ++ ':' :: ':' :: join [], ?_, fun _ => ?_, fun h => absurd ⟨rfl, hk⟩ h⟩
      · have hwrites : Writes (join pre ++ ':' :: ':' :: join [])
            (pre ++ List.replicate k 0 ++ []) :=
          writes_compressed hk (by rwa [List.append_nil])
        rwa [List.append_nil] at hwrites
      · simp [join]
    · obtain rfl : k = 0 := Nat.eq_zero_of_not_pos hk
      rw [List.replicate_zero, List.append_nil] at hlength ⊢
      exact ⟨join pre, writes_full hlength, fun h => absurd h.2 hk, fun _ => rfl⟩
  | @gap pre post k hk hpost =>
    exact ⟨_, writes_compressed hk hlength, fun h => Bool.noConfusion h.1, fun _ => rfl⟩

theorem getLast?_groups (a : IPv6Address) :
    a.groups.getLast? = some 0 ↔ a.addr 7 = #v[0, 0] := by
  rw [groups, List.ofFn_succ_last, List.getLast?_concat, Option.some_inj]
  exact ntohs_eq_zero_iff

/-- The text in the brackets. -/
theorem insert_writes (a : IPv6Address) (os : List Char) :
    ∃ text, Writes text a.groups ∧ a.insert os =
      os ++ ('[' :: text ++ ']' :: ':' :: Nat.toDigits 10 (ntohs a.sin6Port).toNat) := by
  have hloop : Printed (os ++ ['[']) a.groups
      (Fin.foldl 8 (insertGroup a.addr) (os ++ ['['], false)) := printed_loop a.addr _
  obtain ⟨text, hwrites, hopen, hclosed⟩ := hloop.writes List.length_ofFn
  rw [getLast?_groups] at hopen hclosed
  refine ⟨text, hwrites, ?_⟩
  unfold insert
  dsimp only
  split
  · rename_i hrun
    rw [hopen hrun]
    simp
  · rename_i hrun
    rw [hclosed hrun]
    simp

/-! ## Reading it back -/

theorem parseEndpoint_insert (a : IPv6Address) :
    parseEndpoint (a.insert []) = some (a.groups, (ntohs a.sin6Port).toNat) := by
  obtain ⟨text, hwrites, htext⟩ := insert_writes a []
  rw [htext]
  exact hwrites.endpoint _

/-- The groups are the sixteen bytes. -/
theorem sin6Addr_eq {a b : IPv6Address} (h : a.groups = b.groups) : a.sin6Addr = b.sin6Addr := by
  have haddr (i : Fin 8) : a.addr i = b.addr i := ntohs_inj (congrFun (List.ofFn_injective h) i)
  refine Vector.ext fun i hi => ?_
  have hpair := haddr ⟨i / 2, by omega⟩
  rcases Nat.mod_two_eq_zero_or_one i with heven | hodd
  · have hi' : 2 * (i / 2) = i := by omega
    have hbyte := congrArg (fun v => v[0]) hpair
    simpa [addr, hi'] using hbyte
  · have hi' : 2 * (i / 2) + 1 = i := by omega
    have hbyte := congrArg (fun v => v[1]) hpair
    simpa [addr, hi'] using hbyte

/-- Whatever is in the stream: the address is read back, and the port behind it. -/
theorem insert_faithful (a : IPv6Address) (os : List Char) :
    (∃ text, a.insert os =
        os ++ ('[' :: text ++ ']' :: ':' :: Nat.toDigits 10 (ntohs a.sin6Port).toNat) ∧
      gaps text ≤ 1 ∧ parse text = some a.groups) ∧
    parseEndpoint (a.insert []) = some (a.groups, (ntohs a.sin6Port).toNat) ∧
    ∀ b : IPv6Address, a.insert os = b.insert os →
      a.sin6Addr = b.sin6Addr ∧ a.sin6Port = b.sin6Port := by
  obtain ⟨text, hwrites, htext⟩ := insert_writes a os
  refine ⟨⟨text, htext, hwrites.gaps_le, hwrites.parse⟩, parseEndpoint_insert a, ?_⟩
  intro b h
  obtain ⟨text', hwrites', htext'⟩ := insert_writes b os
  rw [htext, htext', List.append_cancel_left_eq] at h
  have hread := (hwrites.endpoint _).symm.trans ((congrArg parseEndpoint h).trans
    (hwrites'.endpoint _))
  obtain ⟨hgroups, hport⟩ := Prod.mk.inj (Option.some.inj hread)
  exact ⟨sin6Addr_eq hgroups, ntohs_inj (BitVec.eq_of_toNat_eq hport)⟩

end IPv6Address

end TwServer
