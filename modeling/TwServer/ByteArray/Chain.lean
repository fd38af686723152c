import TwServer.ByteArray.Model

/-! The representation invariant of `ByteArray` and what its loops over the
chain compute, in terms of the concatenated nodes. -/

namespace TwServer
open Programs Blocks

namespace ByteArray

/-- Every node has `m_baseSize` bytes. -/
def Uniform (s : ByteArray) : Prop :=
  ∀ n ∈ s.nodes, n.size = s.baseSize ∧ n.ptr.length = s.baseSize

/-- Where `m_cur` belongs for position `p`: at node `p / m_baseSize`, or at
null when the chain ends there. -/
def cursorAt (s : ByteArray) (p : Nat) : Option Nat :=
  if p = s.baseSize * s.nodes.length then none else some (p / s.baseSize)

structure WF (s : ByteArray) : Prop where
  base_pos : 0 < s.baseSize
  nodes_pos : 0 < s.nodes.length
  uniform : Uniform s
  capacity : s.capacity = s.baseSize * s.nodes.length
  position_le : s.position ≤ s.size
  size_le : s.size ≤ s.capacity
  cur : s.cur = s.cursorAt s.position

/-- The invariant of a `ByteArray(base)`. -/
structure WFAt (base : Nat) (s : ByteArray) : Prop extends WF s where
  base_eq : s.baseSize = base

/-! ## The cursor -/

theorem mul_lt_chain {s : ByteArray} {k r : Nat} (hk : k < s.nodes.length) (hr : r < s.baseSize) :
    s.baseSize * k + r < s.baseSize * s.nodes.length := by
  have h : s.baseSize * (k + 1) ≤ s.baseSize * s.nodes.length := Nat.mul_le_mul_left _ hk
  rw [Nat.mul_succ] at h
  omega

theorem cursorAt_inside {s : ByteArray} {k r : Nat} (hk : k < s.nodes.length)
    (hr : r < s.baseSize) : s.cursorAt (s.baseSize * k + r) = some k := by
  have hlt := mul_lt_chain hk hr
  unfold cursorAt
  rw [if_neg (by omega), Nat.mul_add_div (by omega), Nat.div_eq_of_lt hr, Nat.add_zero]

theorem cursorAt_next {s : ByteArray} {k : Nat} (hb : 0 < s.baseSize) (hk : k < s.nodes.length) :
    s.cursorAt (s.baseSize * (k + 1)) = s.nextOf k := by
  unfold nextOf
  by_cases hn : k + 1 < s.nodes.length
  · rw [if_pos hn]
    simpa using cursorAt_inside (r := 0) hn hb
  · have he : k + 1 = s.nodes.length := by omega
    rw [if_neg hn, cursorAt, he, if_pos rfl]

/-- A position inside the chain is `r` bytes into node `k`. -/
theorem position_split {s : ByteArray} {p : Nat} (hb : 0 < s.baseSize)
    (hp : p < s.baseSize * s.nodes.length) :
    p / s.baseSize < s.nodes.length ∧ p % s.baseSize < s.baseSize ∧
      s.baseSize * (p / s.baseSize) + p % s.baseSize = p :=
  ⟨Nat.div_lt_of_lt_mul hp, Nat.mod_lt _ hb, Nat.div_add_mod _ _⟩

theorem WF.cur_inside {s : ByteArray} (h : WF s) (hp : s.position < s.capacity) :
    s.cur = some (s.position / s.baseSize) := by
  rw [h.cur, cursorAt, if_neg]
  have := h.capacity
  omega

theorem WF.cur_eq_none {s : ByteArray} (h : WF s) : s.cur = none ↔ s.position = s.capacity := by
  rw [h.cur, cursorAt, h.capacity]
  split <;> simp_all

/-! ## The bytes of the chain -/

theorem Uniform.length_flatMap {base : Nat} {nodes : List Node}
    (h : ∀ n ∈ nodes, n.size = base ∧ n.ptr.length = base) :
    (nodes.flatMap Node.ptr).length = base * nodes.length := by
  induction nodes with
  | nil => simp
  | cons n nodes ih =>
    have hn := (h n (by simp)).2
    have hr := ih (fun m hm => h m (by simp [hm]))
    simp only [List.flatMap_cons, List.length_append, List.length_cons, hn, hr, Nat.mul_succ]
    omega

theorem Uniform.length_bytes {s : ByteArray} (h : Uniform s) :
    s.bytes.length = s.baseSize * s.nodes.length :=
  Uniform.length_flatMap h

theorem WF.length_bytes {s : ByteArray} (h : WF s) : s.bytes.length = s.capacity := by
  rw [h.uniform.length_bytes, h.capacity]

/-- The chain around node `k`. -/
theorem Uniform.split {s : ByteArray} (h : Uniform s) {k : Nat} (hk : k < s.nodes.length) :
    ∃ node, s.nodes.drop k = node :: s.nodes.drop (k + 1) ∧ node.size = s.baseSize ∧
      node.ptr.length = s.baseSize ∧
      s.nodes = s.nodes.take k ++ node :: s.nodes.drop (k + 1) ∧
      ((s.nodes.take k).flatMap Node.ptr).length = s.baseSize * k := by
  have hd : s.nodes.drop k = s.nodes[k] :: s.nodes.drop (k + 1) := List.drop_eq_getElem_cons hk
  have hn := h s.nodes[k] (List.getElem_mem hk)
  refine ⟨s.nodes[k], hd, hn.1, hn.2, ?_, ?_⟩
  · rw [← hd, List.take_append_drop]
  · rw [Uniform.length_flatMap (fun n hm => h n (List.mem_of_mem_take hm)), List.length_take,
      Nat.min_eq_left (by omega)]

theorem store_bytes {s : ByteArray} (h : Uniform s) {k npos : Nat} {buf : List UInt8}
    (hc : s.cur = some k) (hk : k < s.nodes.length) (hf : npos + buf.length ≤ s.baseSize) :
    (s.store npos buf).bytes = overwrite s.bytes (s.baseSize * k + npos) buf := by
  obtain ⟨node, hd, hs, hp, hsplit, hpre⟩ := h.split hk
  have hm : s.nodes.modify k (·.store npos buf) =
      s.nodes.take k ++ node.store npos buf :: s.nodes.drop (k + 1) := by
    rw [List.modify_eq_take_drop, hd, List.modifyHead_cons]
  have hb : s.bytes = (s.nodes.take k).flatMap Node.ptr ++
      (node.ptr ++ (s.nodes.drop (k + 1)).flatMap Node.ptr) := by
    conv => lhs; rw [bytes, hsplit]
    simp
  rw [hb, ← hpre, overwrite_append_right, overwrite_append_left (by omega)]
  simp only [store, hc, bytes, hm]
  simp [Node.store]

theorem store_uniform {s : ByteArray} (h : Uniform s) {k npos : Nat} {buf : List UInt8}
    (hc : s.cur = some k) (hf : npos + buf.length ≤ s.baseSize) :
    Uniform (s.store npos buf) := by
  intro n hn
  simp only [store, hc] at hn ⊢
  obtain ⟨j, hj, rfl⟩ := List.mem_iff_getElem.mp hn
  rw [List.length_modify] at hj
  have hu := h s.nodes[j] (List.getElem_mem hj)
  rw [List.getElem_modify]
  split
  · refine ⟨hu.1, ?_⟩
    simp only [Node.store]
    rw [length_overwrite (by omega)]
    exact hu.2
  · exact hu

@[simp] theorem store_frame (s : ByteArray) (npos : Nat) (buf : List UInt8) :
    (s.store npos buf).baseSize = s.baseSize ∧ (s.store npos buf).position = s.position ∧
      (s.store npos buf).capacity = s.capacity ∧ (s.store npos buf).size = s.size ∧
      (s.store npos buf).cur = s.cur ∧ (s.store npos buf).heap = s.heap ∧
      (s.store npos buf).nodes.length = s.nodes.length := by
  unfold store
  split <;> simp

/-! ## Writing down the chain -/

/-- What a finished `write` of `buf` has done to `s`. -/
structure Wrote (s : ByteArray) (buf : List UInt8) (s' : ByteArray) : Prop where
  uniform : Uniform s'
  baseSize : s'.baseSize = s.baseSize
  nodes : s'.nodes.length = s.nodes.length
  capacity : s'.capacity = s.capacity
  heap : s'.heap = s.heap
  bytes : s'.bytes = overwrite s.bytes s.position buf
  position : s'.position = s.position + buf.length
  size : s'.size = max s.size (s.position + buf.length)
  cur : s'.cur = s'.cursorAt s'.position

@[simp] theorem pass_frame (s : ByteArray) (n : Nat) :
    (s.pass n).baseSize = s.baseSize ∧ (s.pass n).nodes = s.nodes ∧
      (s.pass n).capacity = s.capacity ∧ (s.pass n).cur = s.cur ∧ (s.pass n).heap = s.heap ∧
      (s.pass n).position = s.position + n ∧ (s.pass n).size = max s.size (s.position + n) := by
  simp only [pass, Nat.max_def]
  refine ⟨trivial, trivial, trivial, trivial, trivial, trivial, ?_⟩
  split <;> split <;> omega

/-- One round of the loop: `piece` goes into the current node, at offset `npos`,
and the cursor ends where `m_position` says. -/
theorem round_wrote {s s' : ByteArray} {k npos : Nat} {piece : List UInt8} (h : Uniform s)
    (hk : k < s.nodes.length) (hc : s.cur = some k) (hpos : s.position = s.baseSize * k + npos)
    (hf : npos + piece.length ≤ s.baseSize)
    (hs : s' = { (s.store npos piece).pass piece.length with
      cur := s.cursorAt (s.position + piece.length) }) : Wrote s piece s' := by
  have hb := store_bytes h hc hk hf
  rw [← hpos] at hb
  have hu := store_uniform h hc hf
  subst hs
  constructor <;> simp_all [Uniform, ByteArray.bytes, cursorAt]

theorem Wrote.trans {s t u : ByteArray} {b c : List UInt8} (h : Wrote s b t) (h' : Wrote t c u)
    (hs : Uniform s) (hf : s.position + b.length + c.length ≤ s.baseSize * s.nodes.length) :
    Wrote s (b ++ c) u where
  uniform := h'.uniform
  baseSize := h'.baseSize.trans h.baseSize
  nodes := h'.nodes.trans h.nodes
  capacity := h'.capacity.trans h.capacity
  heap := h'.heap.trans h.heap
  bytes := by
    rw [h'.bytes, h.bytes, h.position, overwrite_overwrite]
    rw [hs.length_bytes]
    exact hf
  position := by rw [h'.position, h.position, List.length_append]; omega
  size := by rw [h'.size, h.size, h.position, List.length_append]; omega
  cur := h'.cur

@[simp] theorem store_next (s : ByteArray) (npos : Nat) (buf : List UInt8) :
    (s.store npos buf).next = s.next := by
  simp only [next, store_frame]
  unfold nextOf
  simp

/-- Storing into node `k` leaves the nodes after it alone. -/
theorem store_drop {s : ByteArray} {k npos : Nat} {buf : List UInt8} (hc : s.cur = some k) :
    (s.store npos buf).nodes.drop (k + 1) = s.nodes.drop (k + 1) := by
  simp only [store, hc]
  exact List.drop_modify_of_lt _ _ _ _ (Nat.lt_succ_self k)

theorem next_eq_cursorAt {s : ByteArray} {k : Nat} (hb : 0 < s.baseSize)
    (hk : k < s.nodes.length) (hc : s.cur = some k) :
    s.next = s.cursorAt (s.baseSize * (k + 1)) := by
  rw [cursorAt_next hb hk, next, hc, Option.bind_some]

/-- The state after a round that fills the current node to its end with `piece`. -/
def filled (s : ByteArray) (npos : Nat) (piece : List UInt8) : ByteArray :=
  { s.store npos piece with cur := (s.store npos piece).next }.pass piece.length

theorem filled_spec {s : ByteArray} {k npos : Nat} {piece : List UInt8} (h : Uniform s)
    (hk : k + 1 < s.nodes.length) (hc : s.cur = some k)
    (hpos : s.position = s.baseSize * k + npos) (hb : 0 < s.baseSize)
    (hf : npos + piece.length = s.baseSize) :
    Wrote s piece (s.filled npos piece) ∧ (s.filled npos piece).cur = some (k + 1) ∧
      (s.filled npos piece).position = s.baseSize * (k + 1) ∧
      (s.filled npos piece).nodes.drop (k + 1) = s.nodes.drop (k + 1) := by
  have he : s.position + piece.length = s.baseSize * (k + 1) := by
    rw [Nat.mul_succ]; omega
  have hnext := next_eq_cursorAt hb (by omega) hc
  have hcur : s.cursorAt (s.baseSize * (k + 1)) = some (k + 1) := by
    simpa using cursorAt_inside (r := 0) hk hb
  refine ⟨round_wrote h (by omega) hc hpos (by omega) ?_, ?_, ?_, ?_⟩
  · rw [he, ← hnext]
    simp [filled, pass]
  · rw [← hcur, ← hnext]
    simp [filled]
  · rw [← he]
    simp [filled]
  · simpa [filled] using store_drop hc

/-- With room for `buf` behind the cursor, the loop writes it there. -/
theorem writeLoop_ok {buf : List UInt8} {s : ByteArray} {k npos : Nat} (h : Uniform s)
    (hk : k < s.nodes.length) (hc : s.cur = some k) (hpos : s.position = s.baseSize * k + npos)
    (hn : npos < s.baseSize) (hf : s.position + buf.length ≤ s.baseSize * s.nodes.length) :
    ∃ s', writeLoop (s.nodes.drop k) npos buf s = .ok () s' ∧ Wrote s buf s' := by
  induction hlen : s.nodes.length - k generalizing s k npos buf with
  | zero => omega
  | succ m ih =>
    obtain ⟨node, hd, hsize, -, -, -⟩ := h.split hk
    rw [hd]
    simp only [writeLoop, hsize]
    by_cases hfit : buf.length ≤ s.baseSize - npos
    · rw [if_pos hfit]
      refine ⟨_, rfl, round_wrote h hk hc hpos (by omega) ?_⟩
      by_cases hend : s.baseSize = npos + buf.length
      · have hnext := next_eq_cursorAt (s := s) (by omega) hk hc
        have he : s.position + buf.length = s.baseSize * (k + 1) := by
          rw [Nat.mul_succ]; omega
        rw [if_pos hend, he, ← hnext]
        simp [pass]
      · have hin := cursorAt_inside (r := npos + buf.length) hk (by omega)
        rw [if_neg hend, hpos, Nat.add_assoc, hin, ← hc]
        simp [pass]
    · rw [if_neg hfit]
      -- the node is filled to its end and the rest goes into the following ones
      have hpiece : (buf.take (s.baseSize - npos)).length = s.baseSize - npos := by
        rw [List.length_take]; omega
      have hrest : (buf.drop (s.baseSize - npos)).length = buf.length - (s.baseSize - npos) :=
        List.length_drop
      have hk' : k + 1 < s.nodes.length := by
        have : s.baseSize * (k + 1) < s.baseSize * s.nodes.length := by
          rw [Nat.mul_succ]; omega
        exact Nat.lt_of_mul_lt_mul_left this
      have hfull : npos + (buf.take (s.baseSize - npos)).length = s.baseSize := by omega
      obtain ⟨hw, hc', hpos', hd'⟩ := filled_spec h hk' hc hpos (by omega) hfull
      have hroom : (s.filled npos (buf.take (s.baseSize - npos))).position +
          (buf.drop (s.baseSize - npos)).length ≤
          (s.filled npos (buf.take (s.baseSize - npos))).baseSize *
            (s.filled npos (buf.take (s.baseSize - npos))).nodes.length := by
        rw [hw.position, hw.baseSize, hw.nodes, hpiece, hrest]
        omega
      have hzero : 0 < (s.filled npos (buf.take (s.baseSize - npos))).baseSize := by
        rw [hw.baseSize]
        omega
      obtain ⟨s', hrun, hw'⟩ := ih hw.uniform (by rw [hw.nodes]; exact hk') hc'
        (by rw [hpos', hw.baseSize]; rfl) hzero hroom (by rw [hw.nodes]; omega)
      rw [hd', filled, hpiece] at hrun
      refine ⟨s', hrun, ?_⟩
      have := hw.trans hw' h (by rw [hpiece, hrest]; omega)
      rwa [List.take_append_drop] at this

/-- Without that room, it ends at the null pointer behind the last node. -/
theorem writeLoop_fault {buf : List UInt8} {s : ByteArray} {k npos : Nat}
    (h : ∀ n ∈ s.nodes, n.size = s.baseSize)
    (hn : npos ≤ s.baseSize)
    (hf : s.baseSize * s.nodes.length < s.baseSize * k + npos + buf.length) (s' : ByteArray) :
    writeLoop (s.nodes.drop k) npos buf s' = .fault .nullPointer := by
  induction hlen : s.nodes.length - k generalizing k npos buf s' with
  | zero => rw [List.drop_eq_nil_of_le (by omega)]; rfl
  | succ m ih =>
    have hk : k < s.nodes.length := by omega
    have hm : s.baseSize * (k + 1) ≤ s.baseSize * s.nodes.length := Nat.mul_le_mul_left _ hk
    rw [Nat.mul_succ] at hm
    rw [List.drop_eq_getElem_cons hk]
    simp only [writeLoop, h _ (List.getElem_mem hk)]
    rw [if_neg (by omega)]
    refine ih (Nat.zero_le _) ?_ _ (by omega)
    rw [List.length_drop, Nat.mul_succ]
    omega

/-! ## Reading down the chain -/

theorem slice_bytes {s : ByteArray} (h : Uniform s) {k npos n : Nat} (hk : k < s.nodes.length)
    (hf : npos + n ≤ s.baseSize) :
    slice s.bytes (s.baseSize * k + npos) n = slice (s.nodes[k]).ptr npos n := by
  obtain ⟨node, hd, -, hp, hsplit, hpre⟩ := h.split hk
  have hnode : s.nodes[k] = node := by
    rw [List.drop_eq_getElem_cons hk] at hd
    exact (List.cons.inj hd).1
  have hb : s.bytes = (s.nodes.take k).flatMap Node.ptr ++
      (node.ptr ++ (s.nodes.drop (k + 1)).flatMap Node.ptr) := by
    conv => lhs; rw [bytes, hsplit]
    simp
  rw [hb, ← hpre, slice_append_right, slice_append_left (by omega), hnode]

/-- The loop of `read` returns the bytes at the position and moves only the cursor. -/
theorem readLoop_ok {s : ByteArray} {k npos n : Nat} (h : Uniform s)
    (hk : k < s.nodes.length) (hc : s.cur = some k) (hpos : s.position = s.baseSize * k + npos)
    (hn : npos < s.baseSize) (hf : s.position + n ≤ s.baseSize * s.nodes.length) :
    readLoop (s.nodes.drop k) npos n s = .ok (slice s.bytes s.position n)
      { s with position := s.position + n, cur := s.cursorAt (s.position + n) } := by
  induction hlen : s.nodes.length - k generalizing s k npos n with
  | zero => omega
  | succ m ih =>
    have hsize := (h _ (List.getElem_mem hk)).1
    rw [List.drop_eq_getElem_cons hk]
    simp only [readLoop, hsize]
    by_cases hfit : n ≤ s.baseSize - npos
    · rw [if_pos hfit, hpos, slice_bytes h hk (by omega)]
      by_cases hend : s.baseSize = npos + n
      · have hnext := next_eq_cursorAt (s := s) (by omega) hk hc
        have he : s.baseSize * k + npos + n = s.baseSize * (k + 1) := by
          rw [Nat.mul_succ]; omega
        rw [if_pos hend, he, ← hnext]
      · have hin := cursorAt_inside (r := npos + n) hk (by omega)
        rw [if_neg hend, Nat.add_assoc, hin, ← hc]
        simp [hpos, Nat.add_assoc]
    · rw [if_neg hfit]
      have he : s.position + (s.baseSize - npos) = s.baseSize * (k + 1) := by
        rw [Nat.mul_succ]; omega
      have hk' : k + 1 < s.nodes.length := by
        have : s.baseSize * (k + 1) < s.baseSize * s.nodes.length := by omega
        exact Nat.lt_of_mul_lt_mul_left this
      have hnext : s.next = some (k + 1) := by
        rw [next_eq_cursorAt (by omega) hk hc]
        simpa using cursorAt_inside (r := 0) hk' (by omega)
      have hroom : s.position + (s.baseSize - npos) + (n - (s.baseSize - npos)) ≤
          s.baseSize * s.nodes.length := by omega
      have hleft : s.nodes.length - (k + 1) = m := by omega
      have hzero : 0 < s.baseSize := Nat.zero_lt_of_lt hn
      have hrun := ih (n := n - (s.baseSize - npos)) (k := k + 1)
        (s := { s with cur := s.next, position := s.position + (s.baseSize - npos) })
        h hk' hnext he hzero hroom hleft
      rw [hrun]
      have hsplit := slice_add s.bytes s.position (s.baseSize - npos) (n - (s.baseSize - npos))
      have hhead : slice s.bytes s.position (s.baseSize - npos) =
          slice (s.nodes[k]).ptr npos (s.baseSize - npos) := by
        rw [hpos, slice_bytes h hk (by omega)]
      rw [show s.baseSize - npos + (n - (s.baseSize - npos)) = n by omega] at hsplit
      rw [hsplit, hhead]
      simp only [bytes, cursorAt, Nat.add_assoc]
      rw [show s.baseSize - npos + (n - (s.baseSize - npos)) = n by omega]

/-! ## Walking to a position -/

theorem seekLoop_ok {s : ByteArray} {k v : Nat} (hu : Uniform s) (hb : 0 < s.baseSize)
    (hk : k < s.nodes.length) (hv : s.baseSize * k + v ≤ s.baseSize * s.nodes.length) :
    seekLoop s (s.nodes.drop k) k v = some (s.cursorAt (s.baseSize * k + v)) := by
  induction hlen : s.nodes.length - k generalizing k v with
  | zero => omega
  | succ m ih =>
    rw [List.drop_eq_getElem_cons hk]
    simp only [seekLoop, (hu _ (List.getElem_mem hk)).1]
    by_cases hfar : v > s.baseSize
    · have he : s.baseSize * (k + 1) + (v - s.baseSize) = s.baseSize * k + v := by
        rw [Nat.mul_succ]; omega
      have hk' : k + 1 < s.nodes.length := by
        have : s.baseSize * (k + 1) < s.baseSize * s.nodes.length := by omega
        exact Nat.lt_of_mul_lt_mul_left this
      rw [if_pos hfar, ih hk' (by omega) (by omega), he]
    · rw [if_neg hfar]
      by_cases hend : v = s.baseSize
      · rw [if_pos hend, hend, ← Nat.mul_succ, cursorAt_next hb hk]
      · rw [if_neg hend, cursorAt_inside hk (by omega)]

/-! ## Collecting buffers -/

theorem iovLoop_isSome {base : Nat} {nodes : List Node} {k npos len : Nat}
    (h : ∀ n ∈ nodes, n.size = base) (hn : npos ≤ base) (hl : 0 < len) :
    (iovLoop nodes k npos len).isSome ↔ npos + len ≤ base * nodes.length := by
  induction nodes generalizing k npos len with
  | nil => simp [iovLoop]; omega
  | cons node nodes ih =>
    have hsize := h node (by simp)
    have hrest : ∀ n ∈ nodes, n.size = base := fun n hm => h n (by simp [hm])
    simp only [iovLoop, hsize, List.length_cons, Nat.mul_succ]
    by_cases hfit : len ≤ base - npos
    · rw [if_pos hfit]
      simp only [Option.isSome_some, true_iff]
      omega
    · rw [if_neg hfit, Option.isSome_map, ih hrest (by omega) (by omega)]
      omega

end ByteArray
end TwServer
