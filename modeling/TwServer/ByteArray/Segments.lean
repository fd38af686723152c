import Mathlib.Tactic.ByContra
import TwServer.ByteArray.Positional

/-! Segments of the chain in place of copies. What `getReadBuffers` gathers is what
`read` returns. What a caller puts into the segments of `getWriteBuffers` is, behind
`setPosition`, what `write` would have stored, unless `write` asks `addCapacity` for
a number of bytes that it rounds down. -/

namespace TwServer
open Programs Program Blocks Runs

namespace ByteArray

/-! ## Segments -/

def Iovec.Disjoint (v w : Iovec) : Prop :=
  v.node ≠ w.node ∨ v.base + v.len ≤ w.base ∨ w.base + w.len ≤ v.base

/-- Disjoint, non-empty pieces of consecutive nodes. -/
structure WellPlaced (s : ByteArray) (buffers : List Iovec) : Prop where
  disjoint : buffers.Pairwise Iovec.Disjoint
  consecutive : ∃ k, buffers.map Iovec.node = List.range' k buffers.length
  nonempty : ∀ v ∈ buffers, 0 < v.len
  inside : ∀ v ∈ buffers, ∃ node, s.nodes[v.node]? = some node ∧ v.base + v.len ≤ node.size

theorem wellPlaced_nil (s : ByteArray) : WellPlaced s [] :=
  ⟨List.Pairwise.nil, ⟨0, rfl⟩, by simp, by simp⟩

/-- Numbers that go up one by one are all different. -/
theorem disjoint_of_consecutive {buffers : List Iovec} {k : Nat}
    (h : buffers.map Iovec.node = List.range' k buffers.length) :
    buffers.Pairwise Iovec.Disjoint := by
  have hnodes : (buffers.map Iovec.node).Pairwise (· < ·) := by
    rw [h]
    exact List.pairwise_lt_range'
  exact (List.pairwise_map.mp hnodes).imp fun hvw => Or.inl (Nat.ne_of_lt hvw)

theorem iovLoop_pieces {base : Nat} {nodes : List Node} {k npos len : Nat} {buffers : List Iovec}
    (h : ∀ n ∈ nodes, n.size = base) (hn : npos < base) (hlen : 0 < len)
    (hrun : iovLoop nodes k npos len = some buffers) :
    buffers.map Iovec.node = List.range' k buffers.length ∧
      ∀ v ∈ buffers, v.node < k + nodes.length ∧ 0 < v.len ∧ v.base + v.len ≤ base := by
  induction nodes generalizing k npos len buffers with
  | nil => cases hrun
  | cons node nodes ih =>
    rw [iovLoop, h node (by simp)] at hrun
    by_cases hfit : len ≤ base - npos
    · rw [if_pos hfit] at hrun
      cases hrun
      refine ⟨rfl, fun v hv => ?_⟩
      obtain rfl := List.mem_singleton.mp hv
      refine ⟨?_, hlen, ?_⟩
      · simp
      · dsimp only
        omega
    · rw [if_neg hfit] at hrun
      obtain ⟨rest, hrest, rfl⟩ := Option.map_eq_some_iff.mp hrun
      obtain ⟨hnodes, hall⟩ :=
        ih (fun n hn => h n (List.mem_cons_of_mem _ hn)) (by omega) (by omega) hrest
      refine ⟨?_, fun v hv => ?_⟩
      · rw [List.map_cons, hnodes, List.length_cons, List.range'_succ]
      · rw [List.length_cons]
        rcases List.mem_cons.mp hv with rfl | hv
        · refine ⟨?_, ?_, ?_⟩
          all_goals
            dsimp only
            omega
        · obtain ⟨hlt, hrest⟩ := hall v hv
          exact ⟨by omega, hrest⟩

theorem iovLoop_wellPlaced {s : ByteArray} (h : Uniform s) {k npos len : Nat}
    {buffers : List Iovec} (hn : npos < s.baseSize) (hlen : 0 < len)
    (hrun : iovLoop (s.nodes.drop k) k npos len = some buffers) : WellPlaced s buffers := by
  have hsize : ∀ n ∈ s.nodes.drop k, n.size = s.baseSize :=
    fun n hm => (h n (List.mem_of_mem_drop hm)).1
  obtain ⟨hnodes, hall⟩ := iovLoop_pieces hsize hn hlen hrun
  have hk : k < s.nodes.length := by
    refine Nat.lt_of_not_le fun hout => ?_
    rw [List.drop_eq_nil_of_le hout] at hrun
    cases hrun
  refine ⟨disjoint_of_consecutive hnodes, ⟨k, hnodes⟩, fun v hv => (hall v hv).2.1, fun v hv => ?_⟩
  obtain ⟨hlt, -, hfit⟩ := hall v hv
  rw [List.length_drop] at hlt
  have hnode : v.node < s.nodes.length := by omega
  refine ⟨s.nodes[v.node], List.getElem?_eq_getElem hnode, ?_⟩
  rw [(h _ (List.getElem_mem hnode)).1]
  exact hfit

/-! ## Gathering -/

/-- `getReadBuffers(buffers, len)` is `read` without the copy. -/
def Gathers (s : ByteArray) (len : Nat) : Prop :=
  ∃ buffers, getReadBuffers len s = .ok (min len s.getReadSize, buffers) s ∧
    WellPlaced s buffers ∧
    ∃ s', read (min len s.getReadSize) s = .ok (buffers.flatMap s.segment) s'

theorem getReadBuffers_none {s : ByteArray} {len : Nat} (h : min len s.getReadSize = 0) :
    getReadBuffers len s = .ok (0, []) s := by
  have hmin : (if len > s.getReadSize then s.getReadSize else len) = 0 := by split <;> omega
  rw [getReadBuffers]
  simp only [hmin, ↓reduceIte]

/-- The buffers behind the cursor, when there is something to read. -/
theorem getReadBuffers_some {s : ByteArray} (h : WF s) {len : Nat}
    (hn : 0 < min len s.getReadSize) :
    ∃ buffers, getReadBuffers len s = .ok (min len s.getReadSize, buffers) s ∧
      iovLoop (s.nodes.drop (s.position / s.baseSize)) (s.position / s.baseSize)
        (s.position % s.baseSize) (min len s.getReadSize) = some buffers := by
  have hmin : (if len > s.getReadSize then s.getReadSize else len) = min len s.getReadSize := by
    split <;> omega
  have hb := h.base_pos
  have hsize := h.size_le
  have hcap := h.capacity
  have hin : s.position < s.capacity := by
    unfold getReadSize at hn
    omega
  obtain ⟨hk, hmod, hpos⟩ := position_split (p := s.position) hb (by omega)
  have hroom : s.position % s.baseSize + min len s.getReadSize ≤
      s.baseSize * (s.nodes.drop (s.position / s.baseSize)).length := by
    rw [List.length_drop, Nat.mul_sub]
    unfold getReadSize
    omega
  have hsome := (iovLoop_isSome (k := s.position / s.baseSize)
    (fun m hm => (h.uniform m (List.mem_of_mem_drop hm)).1) (Nat.le_of_lt hmod) hn).mpr hroom
  obtain ⟨buffers, hloop⟩ := Option.isSome_iff_exists.mp hsome
  refine ⟨buffers, ?_, hloop⟩
  rw [getReadBuffers]
  simp only [hmin]
  rw [if_neg (by omega), if_neg (by omega), h.cur_inside hin, h.chain_inside hin]
  simp only [hloop]

theorem gathers_iff {s : ByteArray} (h : WF s) (len : Nat) :
    Gathers s len ↔ ¬ (min len s.getReadSize = 0 ∧ s.position = s.capacity) := by
  by_cases hzero : min len s.getReadSize = 0
  · rw [Gathers, hzero, getReadBuffers_none hzero, ByteArray.read_zero h]
    by_cases hend : s.position = s.capacity
    · rw [if_pos hend]
      exact iff_of_false (fun ⟨_, _, _, _, hrun⟩ => by cases hrun) (not_not_intro ⟨rfl, hend⟩)
    · rw [if_neg hend]
      exact iff_of_true ⟨[], rfl, wellPlaced_nil s, s, rfl⟩ fun hc => hend hc.2
  · obtain ⟨buffers, hrun, hloop⟩ := getReadBuffers_some h (Nat.pos_of_ne_zero hzero)
    have hmod := Nat.mod_lt s.position h.base_pos
    have hbytes := (segments_spec h (Nat.pos_of_ne_zero hzero) hloop).1
    rw [Nat.div_add_mod] at hbytes
    refine iff_of_true ⟨buffers, hrun, ?_, ?_⟩ fun hc => hzero hc.1
    · exact iovLoop_wellPlaced h.uniform hmod (Nat.pos_of_ne_zero hzero) hloop
    · rw [hbytes]
      exact ⟨_, read_ok h (Nat.pos_of_ne_zero hzero) (Nat.min_le_right _ _)⟩

/-! ## Scattering -/

/-- `memcpy` into node `k`. -/
def storeAt (k npos : Nat) (buf : List UInt8) (s : ByteArray) : ByteArray :=
  { s with nodes := s.nodes.modify k (·.store npos buf) }

/-- The bytes go into the segments one after the other. -/
def scatter : List Iovec → List UInt8 → ByteArray → ByteArray
  | [], _, s => s
  | v :: rest, buf, s => scatter rest (buf.drop v.len) (s.storeAt v.node v.base (buf.take v.len))

/-- From `s` to `s'` the bytes `buf` were put at `pos`; the cursor is left alone. -/
structure Placed (s : ByteArray) (pos : Nat) (buf : List UInt8) (s' : ByteArray) : Prop where
  uniform : Uniform s'
  baseSize : s'.baseSize = s.baseSize
  nodes : s'.nodes.length = s.nodes.length
  capacity : s'.capacity = s.capacity
  position : s'.position = s.position
  size : s'.size = s.size
  cur : s'.cur = s.cur
  bytes : s'.bytes = overwrite s.bytes pos buf

theorem Placed.nil_at {s s' : ByteArray} {pos : Nat} (h : Placed s pos [] s') (pos' : Nat) :
    Placed s pos' [] s' :=
  ⟨h.uniform, h.baseSize, h.nodes, h.capacity, h.position, h.size, h.cur, by
    rw [h.bytes, overwrite_nil, overwrite_nil]⟩

theorem storeAt_placed {s : ByteArray} (h : Uniform s) {k npos : Nat} {buf : List UInt8}
    (hk : k < s.nodes.length) (hfit : npos + buf.length ≤ s.baseSize) :
    Placed s (s.baseSize * k + npos) buf (s.storeAt k npos buf) where
  uniform := store_uniform (s := { s with cur := some k }) h rfl hfit
  baseSize := rfl
  nodes := List.length_modify _ _ _
  capacity := rfl
  position := rfl
  size := rfl
  cur := rfl
  bytes := store_bytes (s := { s with cur := some k }) h rfl hk hfit

theorem Placed.trans {s t u : ByteArray} {pos : Nat} {b c : List UInt8} (h : Placed s pos b t)
    (h' : Placed t (pos + b.length) c u) (hs : pos + b.length + c.length ≤ s.bytes.length) :
    Placed s pos (b ++ c) u where
  uniform := h'.uniform
  baseSize := h'.baseSize.trans h.baseSize
  nodes := h'.nodes.trans h.nodes
  capacity := h'.capacity.trans h.capacity
  position := h'.position.trans h.position
  size := h'.size.trans h.size
  cur := h'.cur.trans h.cur
  bytes := by rw [h'.bytes, h.bytes, overwrite_overwrite hs]

/-- The segments of the loop are filled like one buffer. -/
theorem scatter_placed {nodes : List Node} {s : ByteArray} (h : Uniform s) {k npos len : Nat}
    {buffers : List Iovec} {buf : List UInt8} (hsize : ∀ n ∈ nodes, n.size = s.baseSize)
    (hk : k + nodes.length = s.nodes.length) (hn : npos < s.baseSize) (hlen : 0 < len)
    (hbuf : buf.length ≤ len) (hrun : iovLoop nodes k npos len = some buffers) :
    Placed s (s.baseSize * k + npos) buf (scatter buffers buf s) := by
  induction nodes generalizing s k npos len buffers buf with
  | nil => cases hrun
  | cons node nodes ih =>
    have hfull : npos + len ≤ s.baseSize * (nodes.length + 1) := by
      refine (iovLoop_isSome (k := k) hsize (Nat.le_of_lt hn) hlen).mp ?_
      rw [hrun]
      rfl
    rw [iovLoop, hsize node (by simp)] at hrun
    rw [List.length_cons] at hk
    by_cases hfit : len ≤ s.baseSize - npos
    · rw [if_pos hfit] at hrun
      cases hrun
      show Placed s _ buf (s.storeAt k npos (buf.take len))
      rw [List.take_of_length_le hbuf]
      exact storeAt_placed h (by omega) (by omega)
    · rw [if_neg hfit] at hrun
      obtain ⟨rest, hrest, rfl⟩ := Option.map_eq_some_iff.mp hrun
      have htake : (buf.take (s.baseSize - npos)).length = min (s.baseSize - npos) buf.length :=
        List.length_take
      have hfirst : Placed s (s.baseSize * k + npos) (buf.take (s.baseSize - npos))
          (s.storeAt k npos (buf.take (s.baseSize - npos))) :=
        storeAt_placed h (by omega) (by omega)
      have hmore : Placed (s.storeAt k npos (buf.take (s.baseSize - npos)))
          (s.baseSize * (k + 1) + 0) (buf.drop (s.baseSize - npos)) _ :=
        ih hfirst.uniform (fun n hn => hsize n (List.mem_cons_of_mem _ hn))
          (by rw [hfirst.nodes]; omega) (Nat.lt_of_le_of_lt (Nat.zero_le _) hn) (by omega)
          (by rw [List.length_drop]; omega) hrest
      have hroom : s.baseSize * k + npos + buf.length ≤ s.bytes.length := by
        rw [h.length_bytes, ← hk, Nat.mul_add]
        omega
      show Placed s _ buf (scatter rest (buf.drop (s.baseSize - npos)) _)
      rcases Nat.le_total buf.length (s.baseSize - npos) with hshort | hlong
      · rw [List.drop_eq_nil_of_le hshort] at hmore ⊢
        rw [List.take_of_length_le hshort] at hfirst hmore ⊢
        have hall := hfirst.trans (hmore.nil_at _) hroom
        rwa [List.append_nil] at hall
      · have hpos : s.baseSize * (k + 1) + 0 =
            s.baseSize * k + npos + (buf.take (s.baseSize - npos)).length := by
          rw [htake, Nat.mul_succ]
          omega
        rw [hpos] at hmore
        have hall := hfirst.trans hmore (by rw [List.length_drop, htake]; omega)
        rwa [List.take_append_drop] at hall

/-! ## Segments filled, or `write` -/

/-- `getWriteBuffers(buffers, len)`, the bytes `buf` put into the segments, and
`setPosition` behind them leave what `write` of these bytes does. -/
def Scatters (s : ByteArray) (len : Nat) (buf : List UInt8) : Prop :=
  ∃ buffers t u w, getWriteBuffers len s = .ok buffers t ∧
    setPosition (t.position + buf.length) (scatter buffers buf t) = .ok () u ∧
    write buf s = .ok () w ∧ u.position = w.position ∧ u.size = w.size ∧
    u.bytes.take u.size = w.bytes.take w.size

theorem getWriteBuffers_some {s : ByteArray} (h : WF s) {len : Nat} (hlen : 0 < len)
    (hroom : len ≤ (s.addCapacity len).getRemainCapacity) :
    ∃ buffers, getWriteBuffers len s = .ok buffers (s.addCapacity len) ∧
      iovLoop ((s.addCapacity len).nodes.drop (s.position / s.baseSize))
        (s.position / s.baseSize) (s.position % s.baseSize) len = some buffers := by
  have hwf := addCapacity_wf h len
  have he := addCapacity_extended h len
  have hfit := hroom
  rw [remain_addCapacity h] at hfit
  have hb := h.base_pos
  rcases getWriteBuffers_cases h hlen with ⟨-, buffers, hrun⟩ | ⟨hno, -⟩
  · refine ⟨buffers, hrun, ?_⟩
    have hin : (s.addCapacity len).position < (s.addCapacity len).capacity := by
      unfold getRemainCapacity at hroom
      omega
    rw [getWriteBuffers, if_neg (by omega), if_neg (by omega)] at hrun
    simp only [hwf.cur_inside hin, hwf.chain_inside hin, he.position, he.baseSize] at hrun
    split at hrun
    · cases hrun
    · rename_i hloop
      cases hrun
      exact hloop
  · exact absurd ((room_iff hb).mp hfit) hno

theorem Placed.wf {s s' : ByteArray} {pos : Nat} {buf : List UInt8} (h : WF s)
    (hp : Placed s pos buf s') : WF s' where
  base_pos := by rw [hp.baseSize]; exact h.base_pos
  nodes_pos := by rw [hp.nodes]; exact h.nodes_pos
  uniform := hp.uniform
  capacity := by rw [hp.capacity, hp.baseSize, hp.nodes]; exact h.capacity
  position_le := by rw [hp.position, hp.size]; exact h.position_le
  size_le := by rw [hp.size, hp.capacity]; exact h.size_le
  cur := by rw [hp.cur, h.cur, hp.position, cursorAt, cursorAt, hp.baseSize, hp.nodes]

/-- What the segments and `setPosition` leave. -/
theorem scatter_spec {s : ByteArray} (h : WF s) {len : Nat} {buf : List UInt8}
    (hroom : len ≤ (s.addCapacity len).getRemainCapacity) (hbuf : buf.length ≤ len) :
    ∃ buffers t u, getWriteBuffers len s = .ok buffers t ∧
      setPosition (t.position + buf.length) (scatter buffers buf t) = .ok () u ∧
      u.position = s.position + buf.length ∧ u.size = max s.size (s.position + buf.length) ∧
      ∃ fresh, u.bytes = overwrite (s.bytes ++ fresh) s.position buf := by
  have hpos := h.position_le
  have hsize := h.size_le
  rcases Nat.eq_zero_or_pos len with rfl | hlen
  · obtain rfl := List.length_eq_zero_iff.mp (Nat.le_zero.mp hbuf)
    refine ⟨[], s, _, rfl, setPosition_ok h (by simp; omega), rfl, rfl, [], ?_⟩
    rw [overwrite_nil, List.append_nil]
    rfl
  · have hwf := addCapacity_wf h len
    have he := addCapacity_extended h len
    obtain ⟨fresh, hfresh⟩ := he.bytes
    obtain ⟨buffers, hrun, hloop⟩ := getWriteBuffers_some h hlen hroom
    have hcap := hwf.capacity
    have hfit : s.position + len ≤ (s.addCapacity len).capacity := by
      unfold getRemainCapacity at hroom
      rw [he.position] at hroom
      omega
    obtain ⟨hk, hmod, hsplit⟩ := position_split (p := s.position) hwf.base_pos (by omega)
    rw [he.baseSize] at hk hmod hsplit
    have hplaced := scatter_placed hwf.uniform
      (fun n hn => (hwf.uniform n (List.mem_of_mem_drop hn)).1)
      (by rw [List.length_drop]; omega) (by rw [he.baseSize]; exact hmod) hlen hbuf hloop
    rw [he.baseSize, hsplit] at hplaced
    refine ⟨buffers, _, _, hrun, setPosition_ok (hplaced.wf hwf) ?_, ?_, ?_, fresh, ?_⟩
    · rw [hplaced.capacity, he.position]
      omega
    · show (s.addCapacity len).position + buf.length = _
      rw [he.position]
    · show max (scatter buffers buf (s.addCapacity len)).size _ = _
      rw [hplaced.size, he.size, he.position]
    · show (scatter buffers buf (s.addCapacity len)).bytes = _
      rw [hplaced.bytes, hfresh]

/-- Nodes that were added do not show in the stored bytes. -/
theorem take_overwrite_append {l m m' b : List UInt8} {pos n : Nat} (h : pos ≤ l.length)
    (hn : n ≤ max l.length (pos + b.length)) :
    (overwrite (l ++ m) pos b).take n = (overwrite (l ++ m') pos b).take n := by
  have hle := le_length_overwrite h hn
  rw [overwrite_append h, overwrite_append h, List.take_append_of_le_length hle,
    List.take_append_of_le_length hle]

theorem scatters_iff {s : ByteArray} (h : WF s) {len : Nat} {buf : List UInt8}
    (hroom : len ≤ (s.addCapacity len).getRemainCapacity) (hbuf : buf.length ≤ len) :
    Scatters s len buf ↔ Room s.baseSize s.getRemainCapacity buf.length := by
  have hpos := h.position_le
  have hsize := h.size_le
  have hlen := h.length_bytes
  obtain ⟨buffers, t, u, hrun, hset, hposition, husize, fresh, hbytes⟩ :=
    scatter_spec h hroom hbuf
  have hsame (fresh' : List UInt8) : u.bytes.take u.size =
      (overwrite (s.bytes ++ fresh') s.position buf).take u.size := by
    rw [hbytes]
    exact take_overwrite_append (by omega) (by omega)
  constructor
  · rintro ⟨-, -, -, w, -, -, hwrite, -⟩
    rcases Nat.eq_zero_or_pos buf.length with hzero | hn
    · rw [hzero]
      exact room_zero _ _
    · by_contra hno
      rw [write_fault h hn hno] at hwrite
      cases hwrite
  · intro hfind
    rcases Nat.eq_zero_or_pos buf.length with hzero | hn
    · obtain rfl := List.length_eq_zero_iff.mp hzero
      have hcontent := hsame []
      rw [overwrite_nil, List.append_nil] at hcontent
      have hle : u.size = s.size := by
        rw [husize]
        exact Nat.max_eq_left hpos
      refine ⟨buffers, t, u, s, hrun, hset, rfl, hposition, hle, ?_⟩
      rw [hcontent, hle]
    · obtain ⟨w, hwrite, hw, hwf⟩ := write_ok h hn hfind
      have he := addCapacity_extended h buf.length
      obtain ⟨fresh', hfresh⟩ := he.bytes
      have hwsize : u.size = w.size := by rw [husize, hw.size, he.size, he.position]
      refine ⟨buffers, t, u, w, hrun, hset, hwrite, ?_, hwsize, ?_⟩
      · rw [hposition, hw.position, he.position]
      · rw [hsame fresh', hw.bytes, hfresh, he.position, hwsize]

/-! ## Every reachable array -/

/-- An array of base size 0 keeps its first node. -/
theorem rooted_kept : Kept fun s => Degenerate s ∧ s.nodes ≠ [] where
  write buf s h := by
    rw [write]
    by_cases hbuf : buf.length = 0
    · rw [if_pos hbuf, Outcome.leaves_ok]
      exact h
    · rw [if_neg hbuf, if_pos h.1.baseSize]
      exact Outcome.leaves_fault _ _
  read n s h := by
    by_cases hn : n = 0
    · rw [hn, h.1.read_zero]
      exact Outcome.leaves_fault _ _
    · rw [read_throws (by rw [h.1.getReadSize]; omega), Outcome.leaves_throw]
      exact h
  setPosition v s h := by
    have hkeeps := keeps_setPosition_degenerate v s h.1
    unfold setPosition at hkeeps ⊢
    split
    · exact (Outcome.leaves_throw _ _ _).mpr h
    · rename_i hv
      rw [if_neg hv] at hkeeps
      cases hseek : seekLoop s s.nodes 0 v with
      | none => exact Outcome.leaves_fault _ _
      | some cur =>
        rw [hseek] at hkeeps
        exact (Outcome.leaves_ok _ _ _).mpr ⟨(Outcome.leaves_ok _ _ _).mp hkeeps, h.2⟩
  clear s h := by
    refine (Outcome.leaves_ok _ _ _).mpr ⟨⟨h.1.baseSize, rfl, h.1.baseSize, rfl⟩, ?_⟩
    show s.nodes.take 1 ≠ []
    simp [h.2]
  getWriteBuffers n s h := by
    rw [getWriteBuffers]
    by_cases hn : n = 0
    · rw [if_pos hn, Outcome.leaves_ok]
      exact h
    · rw [if_neg hn, if_pos h.1.baseSize]
      exact Outcome.leaves_fault _ _

theorem reachable_rooted {heap : Nat → UInt8} {s : ByteArray}
    (h : Reachable (machine 0 heap) s) : Degenerate s ∧ s.nodes ≠ [] := by
  have hI : (machine 0 heap).Inductive fun s => Degenerate s ∧ s.nodes ≠ [] :=
    { init := by rintro s rfl; exact ⟨⟨rfl, rfl, rfl, rfl⟩, by simp [new]⟩
      step := fun s op s' hs hstep => op.keeps rooted_kept s hs s' hstep }
  exact hI.reachable h

theorem addNodes_capacity (count : Nat) (s : ByteArray) :
    (s.addNodes count).capacity = s.capacity + s.baseSize * count := by
  induction count generalizing s with
  | zero => rfl
  | succ count ih =>
    rw [addNodes, ih, Nat.mul_succ]
    show s.capacity + s.baseSize + s.baseSize * count = _
    omega

theorem Degenerate.no_room {s : ByteArray} (h : Degenerate s) {len : Nat}
    (hroom : len ≤ (s.addCapacity len).getRemainCapacity) : len = 0 := by
  have hadded : (s.addNodes (addCount s.baseSize s.getRemainCapacity len)).capacity = 0 := by
    rw [addNodes_capacity, h.baseSize, h.capacity, Nat.zero_mul]
  have hcap : (s.addCapacity len).capacity = 0 := by
    unfold addCapacity
    split
    · exact h.capacity
    · dsimp only
      split
      · exact h.capacity
      · split
        · exact hadded
        · exact hadded
  rw [getRemainCapacity, hcap, Nat.zero_sub] at hroom
  exact Nat.le_zero.mp hroom

theorem Degenerate.scatters {s : ByteArray} (h : Degenerate s) (hne : s.nodes ≠ []) :
    Scatters s 0 [] := by
  obtain ⟨node, rest, hnodes⟩ := List.exists_cons_of_ne_nil hne
  have hseek : ∃ cur, seekLoop s s.nodes 0 0 = some cur := by
    rw [hnodes, seekLoop, if_neg (Nat.not_lt_zero _)]
    split
    · exact ⟨_, rfl⟩
    · exact ⟨_, rfl⟩
  obtain ⟨cur, hseek⟩ := hseek
  have hset : setPosition (s.position + 0) s =
      .ok () { s with position := 0, size := if 0 > s.size then 0 else s.size, cur := cur } := by
    rw [setPosition, h.position, if_neg (Nat.not_lt_zero _), hseek]
  exact ⟨[], s, _, s, rfl, hset, rfl, h.position.symm, rfl, rfl⟩

/-- In every reachable state `getReadBuffers` stands for `read` and `getWriteBuffers`
with `setPosition` for `write`, where these two come back. -/
theorem segments_iff {base : Nat} {heap : Nat → UInt8} {s : ByteArray}
    (h : Reachable (machine base heap) s) :
    (∀ len, Gathers s len ↔ ¬ (min len s.getReadSize = 0 ∧ s.position = s.capacity)) ∧
    ∀ len buf, len ≤ (s.addCapacity len).getRemainCapacity → buf.length ≤ len →
      (Scatters s len buf ↔ Room s.baseSize s.getRemainCapacity buf.length) := by
  rcases Nat.eq_zero_or_pos base with rfl | hb
  · obtain ⟨hd, hne⟩ := reachable_rooted h
    refine ⟨fun len => ?_, fun len buf hroom hbuf => ?_⟩
    · have hzero : min len s.getReadSize = 0 := by rw [hd.getReadSize, Nat.min_zero]
      rw [Gathers, hzero, hd.read_zero, hd.position, hd.capacity]
      exact iff_of_false (fun ⟨_, _, _, _, hrun⟩ => by cases hrun) (by simp)
    · obtain rfl := hd.no_room hroom
      obtain rfl := List.length_eq_zero_iff.mp (Nat.le_zero.mp hbuf)
      exact iff_of_true (hd.scatters hne) (room_zero _ _)
  · have hwf := ((machine_inductive hb heap).reachable h).toWF
    exact ⟨gathers_iff hwf, fun _ _ hroom hbuf => scatters_iff hwf hroom hbuf⟩

/-- A fresh array of base 4 has three bytes put into a segment of four. -/
theorem segments_iff_fresh : Scatters (new 4 fun _ => 0) 4 [1, 2, 3] :=
  ((segments_iff (Reachable.init (S := machine 4 fun _ => 0) rfl)).2 4 [1, 2, 3]
    (by decide) (by decide)).mpr (by decide)

/-- One byte of base 4: three bytes remain. -/
def oneByte : ByteArray := ⟨4, 1, 4, 1, [⟨[1, 0, 0, 0], 4⟩], some 0, fun _ => 0⟩

theorem oneByte_reachable : Reachable (machine 4 fun _ => 0) oneByte :=
  Reachable.step (s := new 4 fun _ => 0) (l := .write [1]) (Reachable.init rfl) rfl

/-- Seven bytes get a node. Five of them can be put into the segments, but `write` of
these five asks for two more than remain and gets no node. -/
theorem write_short_of_segments : ¬ ∀ (base : Nat) (heap : Nat → UInt8) (s : ByteArray),
    Reachable (machine base heap) s → (∀ len, Gathers s len) ∧
      ∀ len buf, len ≤ (s.addCapacity len).getRemainCapacity → buf.length ≤ len →
        Scatters s len buf := by
  intro hall
  obtain ⟨-, -, -, w, -, -, hwrite, -⟩ :=
    (hall 4 (fun _ => 0) oneByte oneByte_reachable).2 7 [2, 3, 4, 5, 6] (by decide) (by decide)
  cases hwrite

end ByteArray
end TwServer
