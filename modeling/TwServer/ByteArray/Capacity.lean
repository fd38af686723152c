import TwServer.Lib.Runs
import TwServer.ByteArray.Chain
import TwServer.ByteArray.Typed

/-! `addCapacity` and the room it leaves. Every public operation keeps the
representation invariant; a writer completes exactly when `addCapacity` added
enough nodes, which its rounding does not always do. -/

namespace TwServer
open Programs Blocks Runs

namespace ByteArray

/-! ## What `addCapacity` adds -/

/-- The number of nodes `addCapacity` appends when `r` bytes remain. -/
def addedNodes (base r n : Nat) : Nat := if n ≤ r then 0 else addCount base r n

/-- With `r` bytes remaining, `addCapacity(n)` makes room for `n`. -/
def Room (base r n : Nat) : Prop := n ≤ r ∨ (n - r) % base = 0 ∨ r < (n - r) % base

instance (base r n : Nat) : Decidable (Room base r n) := by unfold Room; infer_instance

/-- The remaining capacity after `n` more bytes were written. -/
def remainAfter (base r n : Nat) : Nat := r + base * addedNodes base r n - n

theorem room_iff {base r n : Nat} (hb : 0 < base) :
    n ≤ r + base * addedNodes base r n ↔ Room base r n := by
  unfold addedNodes Room
  by_cases hfit : n ≤ r
  · rw [if_pos hfit]
    simp [hfit]
  · rw [if_neg hfit]
    have hdiv := Nat.div_add_mod (n - r) base
    have hmod := Nat.mod_lt (n - r) hb
    simp only [addCount, Nat.mul_add]
    split <;> omega

/-- What a call of `addCapacity` that added `count` nodes has done to `s`. -/
structure Extended (s : ByteArray) (count : Nat) (s' : ByteArray) : Prop where
  uniform : Uniform s'
  baseSize : s'.baseSize = s.baseSize
  nodes : s'.nodes.length = s.nodes.length + count
  capacity : s'.capacity = s.capacity + s.baseSize * count
  position : s'.position = s.position
  size : s'.size = s.size
  bytes : ∃ fresh, s'.bytes = s.bytes ++ fresh

theorem Node.new_length (heap : Nat → UInt8) (n : Nat) : (Node.new heap n).ptr.length = n := by
  simp [Node.new]

theorem addNode_extended {s : ByteArray} (h : Uniform s) : Extended s 1 s.addNode where
  uniform := by
    intro n hn
    rcases List.mem_append.mp hn with hn | hn
    · exact h n hn
    · obtain rfl := List.mem_singleton.mp hn
      exact ⟨rfl, Node.new_length _ _⟩
  baseSize := rfl
  nodes := by simp [addNode]
  capacity := by simp [addNode]
  position := rfl
  size := rfl
  bytes := ⟨_, by rw [ByteArray.bytes, addNode, List.flatMap_append]; rfl⟩

theorem Extended.trans {s t u : ByteArray} {a b : Nat} (h : Extended s a t)
    (h' : Extended t b u) : Extended s (a + b) u where
  uniform := h'.uniform
  baseSize := h'.baseSize.trans h.baseSize
  nodes := by rw [h'.nodes, h.nodes, Nat.add_assoc]
  capacity := by rw [h'.capacity, h.capacity, h.baseSize, Nat.mul_add, Nat.add_assoc]
  position := h'.position.trans h.position
  size := h'.size.trans h.size
  bytes := by
    obtain ⟨f, hf⟩ := h.bytes
    obtain ⟨g, hg⟩ := h'.bytes
    exact ⟨f ++ g, by rw [hg, hf, List.append_assoc]⟩

theorem Extended.refl {s : ByteArray} (h : Uniform s) : Extended s 0 s :=
  ⟨h, rfl, rfl, by simp, rfl, rfl, [], by simp⟩

theorem addNodes_extended (count : Nat) {s : ByteArray} (h : Uniform s) :
    Extended s count (s.addNodes count) := by
  induction count generalizing s with
  | zero => exact Extended.refl h
  | succ count ih =>
    have h₁ := addNode_extended h
    have := h₁.trans (ih h₁.uniform)
    rwa [Nat.add_comm 1 count] at this

theorem addNodes_cur (count : Nat) (s : ByteArray) : (s.addNodes count).cur = s.cur := by
  induction count generalizing s with
  | zero => rfl
  | succ count ih => exact ih s.addNode

theorem addCapacity_extended {s : ByteArray} (h : WF s) (n : Nat) :
    Extended s (addedNodes s.baseSize s.getRemainCapacity n) (s.addCapacity n) := by
  have hu := h.uniform
  unfold addCapacity addedNodes
  by_cases hn : n = 0
  · rw [if_pos hn, if_pos (by omega)]
    exact Extended.refl hu
  · rw [if_neg hn]
    by_cases hfit : n ≤ s.getRemainCapacity
    · simp only [ge_iff_le, hfit, ↓reduceIte]
      exact Extended.refl hu
    · simp only [ge_iff_le, hfit, ↓reduceIte]
      have he := addNodes_extended (addCount s.baseSize s.getRemainCapacity n) hu
      split
      · exact ⟨he.uniform, he.baseSize, he.nodes, he.capacity, he.position, he.size, he.bytes⟩
      · exact he

/-- With nothing remaining the rounding is exact, so a node is added. -/
theorem addCount_full_pos {base n : Nat} (hn : 0 < n) : 0 < addCount base 0 n := by
  have hdiv := Nat.div_add_mod n base
  show 0 < (n - 0) / base + if (n - 0) % base > 0 then 1 else 0
  rw [Nat.sub_zero]
  by_cases hm : n % base = 0
  · have hq : n / base ≠ 0 := by
      intro h0
      rw [h0, hm] at hdiv
      omega
    exact Nat.add_pos_left (Nat.pos_of_ne_zero hq) _
  · rw [if_pos (Nat.pos_of_ne_zero hm)]
    exact Nat.add_pos_right _ Nat.one_pos

theorem addCapacity_wf {s : ByteArray} (h : WF s) (n : Nat) : WF (s.addCapacity n) := by
  have he := addCapacity_extended h n
  have hcap := h.capacity
  have hcur : (s.addCapacity n).cur = (s.addCapacity n).cursorAt s.position := by
    unfold cursorAt
    rw [he.baseSize, he.nodes]
    unfold addCapacity addedNodes at *
    by_cases hn : n = 0
    · simp only [hn, ↓reduceIte, Nat.zero_le, Nat.add_zero]
      exact h.cur
    · rw [if_neg hn]
      by_cases hfit : n ≤ s.getRemainCapacity
      · simp only [ge_iff_le, hfit, ↓reduceIte, Nat.add_zero]
        exact h.cur
      · simp only [ge_iff_le, hfit, ↓reduceIte]
        have hle := Nat.le_trans h.position_le h.size_le
        by_cases hfull : s.getRemainCapacity = 0
        · have hpos : s.position = s.baseSize * s.nodes.length := by
            unfold getRemainCapacity at hfull; omega
          have hadd : 0 < addCount s.baseSize 0 n := addCount_full_pos (by omega)
          rw [if_pos hfull, hfull, if_neg (by omega), if_neg, hpos,
            Nat.mul_div_cancel_left _ h.base_pos]
          rw [hpos, Nat.mul_add]
          have := Nat.mul_pos h.base_pos hadd
          omega
        · rw [if_neg hfull, addNodes_cur, h.cur_inside (by unfold getRemainCapacity at hfull; omega),
            if_neg]
          rw [Nat.mul_add]
          unfold getRemainCapacity at hfull
          omega
  refine ⟨?_, ?_, he.uniform, ?_, ?_, ?_, ?_⟩
  · rw [he.baseSize]; exact h.base_pos
  · rw [he.nodes]; have := h.nodes_pos; omega
  · rw [he.capacity, he.baseSize, he.nodes, Nat.mul_add, hcap]
  · rw [he.position, he.size]; exact h.position_le
  · rw [he.size, he.capacity]; have := h.size_le; omega
  · rw [hcur, he.position]

theorem remain_addCapacity {s : ByteArray} (h : WF s) (n : Nat) :
    (s.addCapacity n).getRemainCapacity =
      s.getRemainCapacity + s.baseSize * addedNodes s.baseSize s.getRemainCapacity n := by
  have he := addCapacity_extended h n
  have := h.position_le
  have := h.size_le
  rw [getRemainCapacity, he.capacity, he.position, getRemainCapacity]
  omega

/-! ## The writers, with and without room -/

theorem WF.chain_inside {s : ByteArray} (h : WF s) (hp : s.position < s.capacity) :
    s.chain = s.nodes.drop (s.position / s.baseSize) := by
  rw [chain, h.cur_inside hp]

theorem WF.chain_end {s : ByteArray} (h : WF s) (hp : s.position = s.capacity) :
    s.chain = [] := by
  rw [chain, h.cur_eq_none.mpr hp]

theorem Wrote.wf {s s' : ByteArray} {buf : List UInt8} (h : WF s) (hw : Wrote s buf s')
    (hf : s.position + buf.length ≤ s.capacity) : WF s' where
  base_pos := by rw [hw.baseSize]; exact h.base_pos
  nodes_pos := by rw [hw.nodes]; exact h.nodes_pos
  uniform := hw.uniform
  capacity := by rw [hw.capacity, hw.baseSize, hw.nodes]; exact h.capacity
  position_le := by rw [hw.position, hw.size]; omega
  size_le := by rw [hw.size, hw.capacity]; have := h.size_le; omega
  cur := hw.cur

theorem write_ok {s : ByteArray} (h : WF s) {buf : List UInt8} (hbuf : 0 < buf.length)
    (hroom : Room s.baseSize s.getRemainCapacity buf.length) :
    ∃ s', write buf s = .ok () s' ∧ Wrote (s.addCapacity buf.length) buf s' ∧ WF s' := by
  have hwf := addCapacity_wf h buf.length
  have hremain := remain_addCapacity h buf.length
  have hfit := (room_iff h.base_pos).mpr hroom
  rw [← hremain] at hfit
  have hb := h.base_pos
  unfold write
  rw [if_neg (by omega), if_neg (by omega)]
  generalize s.addCapacity buf.length = t at hwf hfit
  have hle : t.position + buf.length ≤ t.capacity := by
    unfold getRemainCapacity at hfit; omega
  obtain ⟨hk, hn, hpos⟩ := position_split (p := t.position) hwf.base_pos
    (by rw [← hwf.capacity]; omega)
  have hchain : t.position + buf.length ≤ t.baseSize * t.nodes.length := by
    rw [← hwf.capacity]
    exact hle
  obtain ⟨s', hrun, hw⟩ := writeLoop_ok hwf.uniform hk (hwf.cur_inside (by omega)) hpos.symm hn
    hchain
  refine ⟨s', ?_, hw, hw.wf hwf hle⟩
  simp only [hwf.chain_inside (by omega)]
  exact hrun

theorem write_fault {s : ByteArray} (h : WF s) {buf : List UInt8} (hbuf : 0 < buf.length)
    (hroom : ¬ Room s.baseSize s.getRemainCapacity buf.length) :
    write buf s = .fault .nullPointer := by
  have hwf := addCapacity_wf h buf.length
  have hremain := remain_addCapacity h buf.length
  have hfit := mt (room_iff h.base_pos).mp hroom
  rw [← hremain] at hfit
  have hb := h.base_pos
  unfold write
  rw [if_neg (by omega), if_neg (by omega)]
  generalize s.addCapacity buf.length = t at hwf hfit
  have hle := Nat.le_trans hwf.position_le hwf.size_le
  have hcap := hwf.capacity
  unfold getRemainCapacity at hfit
  rcases Nat.lt_or_eq_of_le hle with hin | hend
  · obtain ⟨hk, hn, hpos⟩ := position_split (p := t.position) hwf.base_pos (by omega)
    simp only [hwf.chain_inside hin]
    exact writeLoop_fault (fun n hm => (hwf.uniform n hm).1) (by omega) (by omega) t
  · simp only [hwf.chain_end hend, writeLoop]

theorem getWriteBuffers_cases {s : ByteArray} (h : WF s) {n : Nat} (hn : 0 < n) :
    (Room s.baseSize s.getRemainCapacity n ∧
      ∃ bufs, getWriteBuffers n s = .ok bufs (s.addCapacity n)) ∨
    (¬ Room s.baseSize s.getRemainCapacity n ∧ getWriteBuffers n s = .fault .nullPointer) := by
  have hwf := addCapacity_wf h n
  have hremain := remain_addCapacity h n
  have hfit := room_iff (r := s.getRemainCapacity) (n := n) h.base_pos
  rw [← hremain] at hfit
  rw [← hfit]
  have hb := h.base_pos
  unfold getWriteBuffers
  rw [if_neg (by omega), if_neg (by omega)]
  generalize s.addCapacity n = t at hwf
  have hle := Nat.le_trans hwf.position_le hwf.size_le
  have hcap := hwf.capacity
  rcases Nat.lt_or_eq_of_le hle with hin | hend
  · obtain ⟨hk, hmod, hpos⟩ := position_split (p := t.position) hwf.base_pos (by omega)
    have hdrop : (t.nodes.drop (t.position / t.baseSize)).length =
        t.nodes.length - t.position / t.baseSize := List.length_drop
    have hiov : (iovLoop (t.nodes.drop (t.position / t.baseSize)) (t.position / t.baseSize)
        (t.position % t.baseSize) n).isSome ↔ t.position % t.baseSize + n ≤
          t.baseSize * (t.nodes.drop (t.position / t.baseSize)).length :=
      iovLoop_isSome (fun m hm => (hwf.uniform m (List.mem_of_mem_drop hm)).1) (by omega) hn
    rw [hdrop, Nat.mul_sub] at hiov
    simp only [hwf.cur_inside hin, hwf.chain_inside hin, getRemainCapacity]
    cases hbufs : iovLoop (t.nodes.drop (t.position / t.baseSize)) (t.position / t.baseSize)
        (t.position % t.baseSize) n with
    | none =>
      rw [hbufs] at hiov
      simp only [Option.isSome_none, Bool.false_eq_true, false_iff] at hiov
      exact Or.inr ⟨by omega, rfl⟩
    | some bufs =>
      rw [hbufs] at hiov
      simp only [Option.isSome_some, true_iff] at hiov
      exact Or.inl ⟨by omega, bufs, rfl⟩
  · refine Or.inr ⟨by unfold getRemainCapacity; omega, ?_⟩
    simp only [hwf.cur_eq_none.mpr hend]

/-! ## Reading, moving and clearing -/

theorem read_ok {s : ByteArray} (h : WF s) {n : Nat} (hn : 0 < n) (hfit : n ≤ s.getReadSize) :
    read n s = .ok (slice s.bytes s.position n)
      { s with position := s.position + n, cur := s.cursorAt (s.position + n) } := by
  unfold getReadSize at hfit
  have := h.position_le
  have := h.size_le
  have hcap := h.capacity
  have hin : s.position < s.capacity := by omega
  obtain ⟨hk, hmod, hpos⟩ := position_split (p := s.position) h.base_pos (by omega)
  have hrun := readLoop_ok (n := n) h.uniform hk (h.cur_inside hin) hpos.symm hmod (by omega)
  rw [List.drop_eq_getElem_cons hk] at hrun
  have hb := h.base_pos
  unfold read
  rw [if_neg (by unfold getReadSize; omega), if_neg (by omega)]
  simp only [h.chain_inside hin, List.drop_eq_getElem_cons hk]
  rw [if_neg (by omega), hrun]

theorem read_throws {s : ByteArray} {n : Nat} (h : s.getReadSize < n) :
    read n s = .throw "ByteArray::read not enough len" s := by
  unfold read
  rw [if_pos h]

theorem read_zero {s : ByteArray} (h : WF s) :
    read 0 s = if s.position = s.capacity then .fault .nullPointer else .ok [] s := by
  have hle := Nat.le_trans h.position_le h.size_le
  have hb := h.base_pos
  unfold read
  rw [if_neg (Nat.not_lt_zero _), if_neg (by omega)]
  by_cases hend : s.position = s.capacity
  · simp only [h.chain_end hend, hend, ↓reduceIte]
  · have hcap := h.capacity
    obtain ⟨hk, -, -⟩ := position_split (p := s.position) h.base_pos (by omega)
    simp only [h.chain_inside (by omega), List.drop_eq_getElem_cons hk, hend, ↓reduceIte]

theorem setPosition_ok {s : ByteArray} (h : WF s) {v : Nat} (hv : v ≤ s.capacity) :
    setPosition v s = .ok () { s with
      position := v, size := max s.size v, cur := s.cursorAt v } := by
  have hcap := h.capacity
  have hseek := seekLoop_ok (s := s) (k := 0) (v := v) h.uniform h.base_pos h.nodes_pos (by omega)
  rw [List.drop_zero, Nat.mul_zero, Nat.zero_add] at hseek
  unfold setPosition
  rw [if_neg (by omega), hseek]
  simp only [Nat.max_def]
  congr 2
  split <;> split <;> omega

theorem setPosition_throws {s : ByteArray} {v : Nat} (h : s.capacity < v) :
    setPosition v s = .throw "set_positon out of range" s := by
  unfold setPosition
  rw [if_pos h]

theorem clear_ok {s : ByteArray} (h : WF s) :
    ∃ s', clear s = .ok () s' ∧ WF s' ∧ s'.position = 0 ∧ s'.size = 0 ∧
      s'.capacity = s.baseSize ∧ s'.baseSize = s.baseSize ∧
      s'.bytes = s.bytes.take s.baseSize := by
  have hn := h.nodes_pos
  have hlen : (s.nodes.take 1).length = 1 := by rw [List.length_take]; omega
  obtain ⟨node, rest, hnodes⟩ : ∃ node rest, s.nodes = node :: rest :=
    List.exists_cons_of_length_pos hn
  have hnode := h.uniform node (by rw [hnodes]; exact List.mem_cons_self)
  refine ⟨_, rfl, ⟨h.base_pos, ?_, ?_, ?_, Nat.le_refl _, Nat.zero_le _, ?_⟩, rfl, rfl, rfl, rfl, ?_⟩
  · show 0 < (s.nodes.take 1).length
    omega
  · intro n hm
    exact h.uniform n (List.mem_of_mem_take hm)
  · show s.baseSize = s.baseSize * (s.nodes.take 1).length
    rw [hlen, Nat.mul_one]
  · show some 0 = cursorAt _ 0
    have := h.base_pos
    unfold cursorAt
    simp only [hlen, Nat.mul_one, Nat.zero_div]
    rw [if_neg (by omega)]
  · simp only [bytes, hnodes, List.take_succ_cons, List.take_zero, List.flatMap_cons,
      List.flatMap_nil, List.append_nil]
    rw [← hnode.2, List.take_left]

/-! ## The invariant over the five primitive operations -/

section Keeps
open Program
variable {base : Nat}

theorem keeps_write (buf : List UInt8) : Keeps (WFAt base) (write buf) := by
  intro s h
  rcases Nat.eq_zero_or_pos buf.length with hbuf | hbuf
  · unfold write
    rw [if_pos hbuf]
    exact (Outcome.leaves_ok _ () s).mpr h
  · by_cases hroom : Room s.baseSize s.getRemainCapacity buf.length
    · obtain ⟨s', hrun, hw, hwf⟩ := write_ok h.toWF hbuf hroom
      have hbase := (addCapacity_extended h.toWF buf.length).baseSize
      rw [hrun]
      exact (Outcome.leaves_ok _ () s').mpr ⟨hwf, by rw [hw.baseSize, hbase, h.base_eq]⟩
    · rw [write_fault h.toWF hbuf hroom]
      exact Outcome.leaves_fault _ _

theorem keeps_read (n : Nat) : Keeps (WFAt base) (read n) := by
  intro s h
  by_cases hfit : n ≤ s.getReadSize
  · rcases Nat.eq_zero_or_pos n with rfl | hn
    · rw [read_zero h.toWF]
      split
      · exact Outcome.leaves_fault _ _
      · exact (Outcome.leaves_ok _ [] s).mpr h
    · rw [read_ok h.toWF hn hfit, Outcome.leaves_ok]
      unfold getReadSize at hfit
      have hle : s.position + n ≤ s.size := by omega
      exact ⟨⟨h.base_pos, h.nodes_pos, h.uniform, h.capacity, hle, h.size_le, rfl⟩, h.base_eq⟩
  · rw [read_throws (by omega), Outcome.leaves_throw]
    exact h

theorem keeps_setPosition (v : Nat) : Keeps (WFAt base) (setPosition v) := by
  intro s h
  by_cases hv : v ≤ s.capacity
  · rw [setPosition_ok h.toWF hv, Outcome.leaves_ok]
    exact ⟨⟨h.base_pos, h.nodes_pos, h.uniform, h.capacity, Nat.le_max_right _ _,
      Nat.max_le.mpr ⟨h.size_le, hv⟩, rfl⟩, h.base_eq⟩
  · rw [setPosition_throws (by omega), Outcome.leaves_throw]
    exact h

theorem keeps_clear : Keeps (WFAt base) clear := by
  intro s h
  obtain ⟨s', hrun, hwf, -, -, -, hbase, -⟩ := clear_ok h.toWF
  rw [hrun]
  exact (Outcome.leaves_ok _ () s').mpr ⟨hwf, by rw [hbase, h.base_eq]⟩

theorem keeps_getWriteBuffers (n : Nat) : Keeps (WFAt base) (getWriteBuffers n) := by
  intro s h
  have hbase := (addCapacity_extended h.toWF n).baseSize
  rcases Nat.eq_zero_or_pos n with rfl | hn
  · exact (Outcome.leaves_ok _ [] s).mpr h
  · rcases getWriteBuffers_cases h.toWF hn with ⟨-, bufs, hrun⟩ | ⟨-, hrun⟩
    · rw [hrun]
      exact (Outcome.leaves_ok _ bufs _).mpr
        ⟨addCapacity_wf h.toWF n, by rw [hbase, h.base_eq]⟩
    · rw [hrun]
      exact Outcome.leaves_fault _ _

end Keeps

end ByteArray
end TwServer
