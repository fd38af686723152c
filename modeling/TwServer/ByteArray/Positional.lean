import TwServer.ByteArray.Stream

/-! Reading at the cursor and reading elsewhere, against the bytes of the chain.
`read` looks at its node before it asks whether there is anything to read; the
positional routines take the node of the cursor for the one they walked to. -/

namespace TwServer
open Programs Program Blocks Runs

namespace ByteArray

/-! ## Arrays of base size 0 -/

/-- With nodes of no bytes nothing is ever stored. -/
structure Degenerate (s : ByteArray) : Prop where
  baseSize : s.baseSize = 0
  position : s.position = 0
  capacity : s.capacity = 0
  size : s.size = 0

theorem Degenerate.getReadSize {s : ByteArray} (h : Degenerate s) : s.getReadSize = 0 := by
  rw [ByteArray.getReadSize, h.size, Nat.zero_sub]

theorem Degenerate.read_zero {s : ByteArray} (h : Degenerate s) :
    read 0 s = .fault .divisionByZero := by
  rw [ByteArray.read, if_neg (Nat.not_lt_zero _), if_pos h.baseSize]

theorem keeps_write_degenerate (buf : List UInt8) : Keeps Degenerate (write buf) := by
  intro s h
  rw [write]
  by_cases hbuf : buf.length = 0
  · rw [if_pos hbuf, Outcome.leaves_ok]
    exact h
  · rw [if_neg hbuf, if_pos h.baseSize]
    exact Outcome.leaves_fault _ _

theorem keeps_read_degenerate (n : Nat) : Keeps Degenerate (read n) := by
  intro s h
  by_cases hn : n = 0
  · rw [hn, h.read_zero]
    exact Outcome.leaves_fault _ _
  · rw [read_throws (by rw [h.getReadSize]; omega), Outcome.leaves_throw]
    exact h

theorem keeps_setPosition_degenerate (v : Nat) : Keeps Degenerate (setPosition v) := by
  intro s h
  have hcap := h.capacity
  have hsize := h.size
  by_cases hv : s.capacity < v
  · rw [setPosition_throws hv, Outcome.leaves_throw]
    exact h
  · obtain rfl : v = 0 := by omega
    rw [setPosition, if_neg hv]
    cases seekLoop s s.nodes 0 0 with
    | none => exact Outcome.leaves_fault _ _
    | some cur =>
      rw [Outcome.leaves_ok]
      exact ⟨h.baseSize, rfl, hcap, by simp [hsize]⟩

theorem keeps_getWriteBuffers_degenerate (n : Nat) :
    Keeps Degenerate (getWriteBuffers n) := by
  intro s h
  rw [getWriteBuffers]
  by_cases hn : n = 0
  · rw [if_pos hn, Outcome.leaves_ok]
    exact h
  · rw [if_neg hn, if_pos h.baseSize]
    exact Outcome.leaves_fault _ _

theorem degenerate_kept : Kept Degenerate where
  write := keeps_write_degenerate
  read := keeps_read_degenerate
  setPosition := keeps_setPosition_degenerate
  clear := fun _ h => (Outcome.leaves_ok _ () _).mpr ⟨h.baseSize, rfl, h.baseSize, rfl⟩
  getWriteBuffers := keeps_getWriteBuffers_degenerate

/-- A reachable array stores nothing or has the invariant of its base size. -/
theorem reachable_cases {base : Nat} {heap : Nat → UInt8} {s : ByteArray}
    (h : Reachable (machine base heap) s) : Degenerate s ∨ WF s := by
  rcases Nat.eq_zero_or_pos base with rfl | hb
  · have hI : (machine 0 heap).Inductive Degenerate :=
      { init := by rintro s rfl; exact ⟨rfl, rfl, rfl, rfl⟩
        step := fun s op s' hs hstep => op.keeps degenerate_kept s hs s' hstep }
    exact Or.inl (hI.reachable h)
  · exact Or.inr ((machine_inductive hb heap).reachable h).toWF

/-! ## Reading at the cursor -/

/-- `read(buf, n)` throws where fewer bytes are left and otherwise returns the
next `n` bytes and moves past them. -/
def ReadsRight (s : ByteArray) (n : Nat) : Prop :=
  if n > s.getReadSize then read n s = .throw "ByteArray::read not enough len" s
  else ∃ s', read n s = .ok (slice s.bytes s.position n) s' ∧ s'.position = s.position + n ∧
    s'.size = s.size ∧ s'.bytes = s.bytes

theorem WF.readsRight_pos {s : ByteArray} (h : WF s) {n : Nat} (hn : 0 < n)
    (hfit : n ≤ s.getReadSize) : ReadsRight s n := by
  rw [ReadsRight, if_neg (by omega), read_ok h hn hfit]
  exact ⟨_, rfl, rfl, rfl, rfl⟩

theorem WF.readsRight_zero {s : ByteArray} (h : WF s) :
    ReadsRight s 0 ↔ s.position ≠ s.capacity := by
  rw [ReadsRight, if_neg (Nat.not_lt_zero _), ByteArray.read_zero h]
  by_cases hend : s.position = s.capacity
  · rw [if_pos hend]
    exact iff_of_false (fun ⟨_, hrun, _⟩ => by cases hrun) (not_not_intro hend)
  · rw [if_neg hend]
    exact iff_of_true ⟨s, by rw [slice_zero], rfl, rfl, rfl⟩ hend

/-- In every reachable state `read(buf, n)` is right, except for the empty read
at the very end of the chain. -/
theorem reads_right_iff {base : Nat} {heap : Nat → UInt8} {s : ByteArray}
    (h : Reachable (machine base heap) s) (n : Nat) :
    ReadsRight s n ↔ ¬ (n = 0 ∧ s.position = s.capacity) := by
  by_cases hfit : n > s.getReadSize
  · rw [ReadsRight, if_pos hfit, read_throws hfit]
    exact iff_of_true rfl (by omega)
  · rcases reachable_cases h with hd | hwf
    · have hn : n = 0 := by have := hd.getReadSize; omega
      subst hn
      rw [ReadsRight, if_neg hfit, hd.read_zero, hd.position, hd.capacity]
      exact iff_of_false (fun ⟨_, hrun, _⟩ => by cases hrun) (by simp)
    · rcases Nat.eq_zero_or_pos n with rfl | hn
      · rw [hwf.readsRight_zero]
        simp
      · exact iff_of_true (hwf.readsRight_pos hn (by omega)) (by omega)

/-- Four bytes written into one node of four. -/
def filledNode : ByteArray := ⟨4, 4, 4, 4, [⟨[1, 2, 3, 4], 4⟩], none, fun _ => 0⟩

theorem filledNode_reachable : Reachable (machine 4 fun _ => 0) filledNode :=
  Reachable.step (s := new 4 fun _ => 0) (l := .write [1, 2, 3, 4]) (Reachable.init rfl) rfl

/-- They are read again from the second byte on. -/
def firstRead : ByteArray := { filledNode with position := 1, cur := some 0 }

theorem firstRead_reachable : Reachable (machine 4 fun _ => 0) firstRead :=
  filledNode_reachable.step (l := .setPosition 1) rfl

/-- Two bytes of the three are there, four are not. -/
theorem reads_right_iff_firstRead :
    read 2 firstRead = .ok [2, 3] { firstRead with position := 3 } ∧
      ReadsRight firstRead 2 ∧ ReadsRight firstRead 4 :=
  ⟨rfl, (reads_right_iff firstRead_reachable 2).mpr (by decide),
    (reads_right_iff firstRead_reachable 4).mpr (by decide)⟩

/-- There the read of an empty string runs into null. -/
theorem empty_read_faults : ¬ ∀ (base : Nat) (heap : Nat → UInt8) (s : ByteArray) (n : Nat),
    Reachable (machine base heap) s → ReadsRight s n := by
  intro hall
  obtain ⟨s', hrun, -⟩ := hall 4 (fun _ => 0) filledNode 0 filledNode_reachable
  cases hrun

/-! ## Walking from the root -/

theorem walk_ok {s : ByteArray} {count k : Nat} (hk : k + count < s.nodes.length) :
    s.walk count (some k) = some (some (k + count)) := by
  induction count generalizing k with
  | zero => rfl
  | succ count ih =>
    rw [walk, nextOf, if_pos (by omega), ih (by omega)]
    congr 2
    omega

theorem walk_end {s : ByteArray} {count k : Nat} (hk : k + count = s.nodes.length)
    (hlt : k < s.nodes.length) : s.walk count (some k) = some none := by
  induction count generalizing k with
  | zero => omega
  | succ count ih =>
    rw [walk, nextOf]
    by_cases hnext : k + 1 < s.nodes.length
    · rw [if_pos hnext]
      exact ih (by omega) hnext
    · obtain rfl : count = 0 := by omega
      rw [if_neg hnext]
      rfl

/-- A position inside the chain is walked to, its end included. -/
theorem WF.walk {s : ByteArray} (h : WF s) {p : Nat} (hp : p ≤ s.capacity) :
    s.walk (p / s.baseSize) (some 0) = some (s.cursorAt p) := by
  have hb := h.base_pos
  have hcap := h.capacity
  unfold cursorAt
  by_cases hend : p = s.baseSize * s.nodes.length
  · rw [if_pos hend, hend, Nat.mul_div_cancel_left _ hb]
    exact walk_end (Nat.zero_add _) h.nodes_pos
  · obtain ⟨hk, -, -⟩ := position_split (p := p) hb (by omega)
    rw [if_neg hend, walk_ok (by omega), Nat.zero_add]

/-! ## What the positional read copies -/

/-- The rounds end by following a null `cur`. -/
def Stuck (s : ByteArray) (cur : Option Nat) (base npos size : Nat) : Prop :=
  0 < size ∧ (npos + size) % base = 0 ∧ if npos + size ≤ base then cur = none else s.next = none

/-- The last round follows `cur` when it copies up to the end of the node. -/
theorem stuck_last {s : ByteArray} {cur : Option Nat} {base npos size : Nat} (hn : npos < base)
    (hsize : 0 < size) (hfit : size ≤ base - npos) :
    Stuck s cur base npos size ↔ base = npos + size ∧ cur = none := by
  unfold Stuck
  rw [if_pos (by omega)]
  by_cases hend : base = npos + size
  · simp [← hend]
    omega
  · rw [Nat.mod_eq_of_lt (by omega)]
    omega

/-- Another round goes on from the start of the node. -/
theorem stuck_again {s : ByteArray} {cur : Option Nat} {base npos size : Nat} (hn : npos < base)
    (hlong : base - npos < size) :
    Stuck s cur base npos size ↔ Stuck s s.next base 0 (size - (base - npos)) := by
  have hlater : (npos + size) % base = (0 + (size - (base - npos))) % base := by
    rw [show npos + size = 0 + (size - (base - npos)) + base by omega, Nat.add_mod_right]
  unfold Stuck
  rw [hlater, if_neg (by omega), ite_self]
  exact and_congr (by omega) Iff.rfl

/-- The rounds copy `size` bytes out of the one node, starting over at its end. -/
theorem readAtLoop_spec {s : ByteArray} {node : Node} {base : Nat} (hsize : node.size = base)
    (hptr : node.ptr.length = base) {rounds : Nat} (cur : Option Nat) (npos size : Nat)
    (hn : npos < base) (hr : size < rounds) :
    (Stuck s cur base npos size ∧
      readAtLoop s node rounds cur npos (base - npos) size = none) ∨
    ¬ Stuck s cur base npos size ∧
      ∃ bytes, readAtLoop s node rounds cur npos (base - npos) size = some bytes ∧
        bytes.length = size ∧ ∀ i < size, bytes[i]? = node.ptr[(npos + i) % base]? := by
  induction rounds generalizing cur npos size with
  | zero => omega
  | succ rounds ih =>
    unfold readAtLoop
    by_cases hzero : size = 0
    · rw [if_pos hzero]
      exact Or.inr ⟨fun hs => by have := hs.1; omega, [], rfl, hzero.symm, by omega⟩
    · rw [if_neg hzero, hsize]
      by_cases hfit : size ≤ base - npos
      · rw [if_pos hfit]
        have hstuck : Stuck s cur base npos size ↔ base = npos + size ∧ cur = none :=
          stuck_last hn (Nat.pos_of_ne_zero hzero) hfit
        by_cases hs : base = npos + size ∧ cur = none
        · rw [if_pos hs]
          exact Or.inl ⟨hstuck.mpr hs, rfl⟩
        · rw [if_neg hs]
          refine Or.inr ⟨mt hstuck.mp hs, _, rfl, length_slice (by omega), ?_⟩
          intro i hi
          rw [getElem?_slice hi, Nat.mod_eq_of_lt (by omega)]
      · rw [if_neg hfit]
        -- the rest is copied from the start of the same node
        have hstuck : Stuck s cur base npos size ↔
            Stuck s s.next base 0 (size - (base - npos)) := stuck_again hn (Nat.lt_of_not_le hfit)
        have hrest := ih s.next 0 (size - (base - npos)) (by omega) (by omega)
        rw [Nat.sub_zero] at hrest
        rcases hrest with ⟨hs, hnone⟩ | ⟨hs, bytes, hsome, hlen, hbytes⟩
        · exact Or.inl ⟨hstuck.mpr hs, by rw [hnone]; rfl⟩
        · refine Or.inr ⟨mt hstuck.mp hs, _, by rw [hsome]; rfl, ?_, ?_⟩
          · rw [List.length_append, length_slice (by omega), hlen]
            omega
          · intro i hi
            have hhead : (slice node.ptr npos (base - npos)).length = base - npos :=
              length_slice (by omega)
            by_cases hin : i < base - npos
            · rw [List.getElem?_append_left (by omega), getElem?_slice hin,
                Nat.mod_eq_of_lt (by omega)]
            · rw [List.getElem?_append_right (by omega), hhead, hbytes _ (by omega),
                show npos + i = 0 + (i - (base - npos)) + base by omega, Nat.add_mod_right]

theorem node_byte {s : ByteArray} (h : Uniform s) {k r : Nat} (hk : k < s.nodes.length)
    (hr : r < s.baseSize) : (s.nodes[k]).ptr[r]? = s.bytes[s.baseSize * k + r]? := by
  have hslice : slice s.bytes (s.baseSize * k + r) 1 = slice (s.nodes[k]).ptr r 1 :=
    slice_bytes h hk (by omega)
  have hbyte := congrArg (fun l : List UInt8 => l[0]?) hslice
  simp only [getElem?_slice Nat.one_pos, Nat.add_zero] at hbyte
  exact hbyte.symm

/-- `m_cur` is a node that holds, at the same offsets, the `n` bytes from `p` on. -/
def Mirrors (s : ByteArray) (n p : Nat) : Prop :=
  ∃ k, s.cur = some k ∧
    ∀ i < n, s.bytes[p + i]? = s.bytes[s.baseSize * k + (p + i) % s.baseSize]?

theorem mirrors_iff {s : ByteArray} {n p k : Nat} (hc : s.cur = some k) :
    Mirrors s n p ↔
      ∀ i < n, s.bytes[p + i]? = s.bytes[s.baseSize * k + (p + i) % s.baseSize]? := by
  constructor
  · rintro ⟨k', hk', hall⟩
    obtain rfl : k = k' := by
      rw [hc] at hk'
      exact Option.some.inj hk'
    exact hall
  · exact fun hall => ⟨k, hc, hall⟩

/-- `cur` is followed past the last node. -/
def Overruns (s : ByteArray) (n p : Nat) : Prop :=
  s.next = none ∧ s.baseSize < p % s.baseSize + n ∧ (p + n) % s.baseSize = 0

theorem WF.cur_lt {s : ByteArray} (h : WF s) {k : Nat} (hc : s.cur = some k) :
    k < s.nodes.length := by
  have hcur := h.cur
  have hle := Nat.le_trans h.position_le h.size_le
  have hcap := h.capacity
  unfold cursorAt at hcur
  split at hcur
  · rw [hc] at hcur
    cases hcur
  · rw [hc] at hcur
    cases hcur
    exact (position_split h.base_pos (by omega)).1

theorem sizeFrom_inside {s : ByteArray} {n p : Nat} (hfit : p + n ≤ s.size) :
    ¬ n > s.sizeFrom p := by
  unfold sizeFrom
  rw [if_pos (by omega)]
  omega

theorem readAt_null {s : ByteArray} (h : WF s) {n p : Nat} (hfit : p + n ≤ s.size)
    (hc : s.cur = none) : readAt n p s = .fault .nullPointer := by
  have hb := h.base_pos
  rw [readAt, if_neg (sizeFrom_inside hfit), if_neg (by omega), chain, hc]

/-- Inside the stored bytes the positional read copies from the cursor's node. -/
theorem readAt_cases {s : ByteArray} (h : WF s) {n p k : Nat} (hfit : p + n ≤ s.size)
    (hc : s.cur = some k) :
    (Overruns s n p ∧ readAt n p s = .fault .nullPointer) ∨
    ¬ Overruns s n p ∧ ∃ bytes, readAt n p s = .ok bytes s ∧ bytes.length = n ∧
      ∀ i < n, bytes[i]? = s.bytes[s.baseSize * k + (p + i) % s.baseSize]? := by
  have hb := h.base_pos
  have hk := h.cur_lt hc
  have hnode := h.uniform s.nodes[k] (List.getElem_mem hk)
  have hle : p ≤ s.capacity := Nat.le_trans (by omega) h.size_le
  have hcap := h.capacity
  have hcur : 0 < n → s.cursorAt p ≠ none := by
    intro hn
    have := h.size_le
    unfold cursorAt
    rw [if_neg (by omega)]
    exact Option.some_ne_none _
  have hstuck : Stuck s (s.cursorAt p) s.baseSize (p % s.baseSize) n ↔ Overruns s n p := by
    have hmod := Nat.mod_lt p hb
    unfold Stuck Overruns
    rw [Nat.mod_add_mod]
    split
    · exact iff_of_false (fun hs => hcur hs.1 hs.2.2) (by omega)
    · exact ⟨fun ⟨_, hend, hnext⟩ => ⟨hnext, by omega, hend⟩,
        fun ⟨hnext, _, hend⟩ => ⟨by omega, hend, hnext⟩⟩
  have hspec := readAtLoop_spec (s := s) hnode.1 hnode.2 (s.cursorAt p) (p % s.baseSize) n
    (Nat.mod_lt p hb) (Nat.lt_succ_self n)
  rw [hstuck] at hspec
  rw [readAt, if_neg (sizeFrom_inside hfit), if_neg (by omega), chain, hc, h.walk hle]
  simp only [List.drop_eq_getElem_cons hk, hnode.1]
  rcases hspec with ⟨hover, hnone⟩ | ⟨hover, bytes, hsome, hlen, hbytes⟩
  · exact Or.inl ⟨hover, by rw [hnone]⟩
  · refine Or.inr ⟨hover, bytes, by rw [hsome], hlen, fun i hi => ?_⟩
    rw [hbytes i hi, Nat.mod_add_mod, node_byte h.uniform hk (Nat.mod_lt _ hb)]

/-! ## Positional against sequential -/

/-- `read(buf, n, p)` throws where fewer than `n` bytes lie behind `p`, and otherwise
returns what `setPosition(p)` and `read(buf, n)` return. -/
def ReadAgrees (s : ByteArray) (n p : Nat) : Prop :=
  if s.size < p + n then readAt n p s = .throw "ByteArray::read not enough len" s
  else ∃ bytes t, (do setPosition p; read n) s = .ok bytes t ∧ readAt n p s = .ok bytes s

/-- `getReadBuffers(buffers, n, p)` gathers the bytes from `p` on. -/
def BuffersAgree (s : ByteArray) (n p : Nat) : Prop :=
  ∃ size buffers, getReadBuffersAt n p s = .ok (size, buffers) s ∧
    buffers.flatMap s.segment = slice s.bytes p (min n (s.size - p))

/-- `toString()` is the unread bytes. -/
def StringAgrees (s : ByteArray) : Prop :=
  toString s = .ok (slice s.bytes s.position s.getReadSize) s

theorem seek_read {s : ByteArray} (h : WF s) {n p : Nat} (hfit : p + n ≤ s.size) :
    (n = 0 ∧ p = s.capacity ∧ (do setPosition p; read n) s = .fault .nullPointer) ∨
    ¬ (n = 0 ∧ p = s.capacity) ∧
      ∃ t, (do setPosition p; read n) s = .ok (slice s.bytes p n) t := by
  have hseek := setPosition_seek h (v := p) (by omega)
  have hwf := seek_wf h (v := p) (by omega)
  rw [bind_ok hseek]
  rcases Nat.eq_zero_or_pos n with rfl | hn
  · rw [read_zero hwf]
    by_cases hend : p = s.capacity
    · exact Or.inl ⟨rfl, hend, if_pos hend⟩
    · refine Or.inr ⟨by simp [hend], s.seek p, ?_⟩
      rw [slice_zero]
      exact if_neg hend
  · have hleft : n ≤ (s.seek p).getReadSize := by
      show n ≤ s.size - p
      omega
    exact Or.inr ⟨by omega, _, read_ok hwf hn hleft⟩

/-- The positional read past the stored bytes throws unless the difference wraps. -/
theorem readAgrees_outside {s : ByteArray} {n p : Nat} (hout : s.size < p + n) :
    ReadAgrees s n p ↔ p ≤ s.size ∨ 2 ^ 64 - (p - s.size) < n := by
  rw [ReadAgrees, if_pos hout]
  have hthrows : (readAt n p s = .throw "ByteArray::read not enough len" s) ↔
      n > s.sizeFrom p := by
    rw [readAt]
    by_cases hn : n > s.sizeFrom p
    · rw [if_pos hn]
      exact iff_of_true rfl hn
    · rw [if_neg hn]
      refine iff_of_false ?_ hn
      split
      · exact fun hrun => by cases hrun
      · split
        · simp only
          split <;> exact fun hrun => by cases hrun
        · exact fun hrun => by cases hrun
  rw [hthrows, sizeFrom]
  split <;> omega

theorem readAgrees_inside {s : ByteArray} (h : WF s) {n p : Nat} (hfit : p + n ≤ s.size) :
    ReadAgrees s n p ↔
      ¬ (n = 0 ∧ p = s.capacity) ∧ Mirrors s n p ∧ ¬ Overruns s n p := by
  rw [ReadAgrees, if_neg (by omega)]
  rcases seek_read h hfit with ⟨rfl, hend, hseq⟩ | ⟨hne, t, hseq⟩
  · rw [hseq]
    exact iff_of_false (fun ⟨_, _, hrun, _⟩ => by cases hrun) (fun hc => hc.1 ⟨rfl, hend⟩)
  · rw [hseq]
    cases hc : s.cur with
    | none =>
      rw [readAt_null h hfit hc]
      refine iff_of_false (fun ⟨_, _, _, hrun⟩ => by cases hrun) fun hcond => ?_
      obtain ⟨k, hk, -⟩ := hcond.2.1
      rw [hc] at hk
      cases hk
    | some k =>
      rcases readAt_cases h hfit hc with ⟨hover, hrun⟩ | ⟨hover, bytes, hrun, hn, hbytes⟩
      · rw [hrun]
        exact iff_of_false (fun ⟨_, _, _, hok⟩ => by cases hok) (fun hcond => hcond.2.2 hover)
      · rw [hrun]
        constructor
        · rintro ⟨_, _, hfirst, hsecond⟩
          cases hfirst
          injection hsecond with hsame
          refine ⟨hne, (mirrors_iff hc).mpr fun i hi => ?_, hover⟩
          rw [← hbytes i hi, hsame, getElem?_slice hi]
        · rintro ⟨-, hmirrors, -⟩
          have hroom : p + n ≤ s.bytes.length := by
            rw [h.length_bytes]
            exact Nat.le_trans hfit h.size_le
          have hsame : bytes = slice s.bytes p n := by
            refine (eq_slice_iff hn hroom).mpr fun i hi => ?_
            rw [hbytes i hi, (mirrors_iff hc).mp hmirrors i hi]
          exact ⟨_, t, rfl, by rw [hsame]⟩

/-! ## Segments -/

/-- `ncap` is the room behind `npos` when it is taken from the node itself. -/
theorem segmentLoop_eq (node : Node) (rest : List Node) (k npos len : Nat) :
    segmentLoop (node :: rest) k npos (node.size - npos) len =
      iovLoop (node :: rest) k npos len := by
  induction rest generalizing node k npos len with
  | nil => rfl
  | cons next rest ih =>
    have hrest := ih next (k + 1) 0 (len - (node.size - npos))
    rw [Nat.sub_zero] at hrest
    rw [segmentLoop, iovLoop]
    simp only [hrest]

theorem segment_eq {s : ByteArray} (h : Uniform s) {k npos len : Nat} (hk : k < s.nodes.length)
    (hfit : npos + len ≤ s.baseSize) :
    s.segment ⟨k, npos, len⟩ = slice s.bytes (s.baseSize * k + npos) len := by
  rw [slice_bytes h hk hfit, segment, List.getElem?_eq_getElem hk]

theorem iovLoop_bytes {s : ByteArray} (h : Uniform s) {k npos len : Nat}
    {buffers : List Iovec} (hn : npos ≤ s.baseSize) (hlen : 0 < len)
    (hrun : iovLoop (s.nodes.drop k) k npos len = some buffers) :
    buffers.flatMap s.segment = slice s.bytes (s.baseSize * k + npos) len := by
  induction hm : s.nodes.length - k generalizing k npos len buffers with
  | zero =>
    rw [List.drop_eq_nil_of_le (by omega)] at hrun
    cases hrun
  | succ m ih =>
    have hk : k < s.nodes.length := by omega
    have hnode := h s.nodes[k] (List.getElem_mem hk)
    rw [List.drop_eq_getElem_cons hk] at hrun
    simp only [iovLoop, hnode.1] at hrun
    by_cases hfit : len ≤ s.baseSize - npos
    · rw [if_pos hfit] at hrun
      cases hrun
      rw [List.flatMap_singleton, segment_eq h hk (by omega)]
    · rw [if_neg hfit] at hrun
      obtain ⟨rest, hrest, rfl⟩ := Option.map_eq_some_iff.mp hrun
      have hnext : s.baseSize * (k + 1) + 0 = s.baseSize * k + npos + (s.baseSize - npos) := by
        rw [Nat.mul_succ]
        omega
      rw [List.flatMap_cons, segment_eq h hk (by omega),
        ih (Nat.zero_le _) (by omega) hrest (by omega), hnext, ← slice_add]
      congr 1
      omega

/-- In a chain of equal nodes the `ncap` of `m_cur` is the right one. -/
theorem segmentLoop_uniform {s : ByteArray} (h : Uniform s) (k npos len : Nat) :
    segmentLoop (s.nodes.drop k) k npos (s.baseSize - npos) len =
      iovLoop (s.nodes.drop k) k npos len := by
  cases hdrop : s.nodes.drop k with
  | nil => rfl
  | cons node rest =>
    have hmem : node ∈ s.nodes := List.mem_of_mem_drop (by rw [hdrop]; exact List.mem_cons_self)
    rw [← (h node hmem).1]
    exact segmentLoop_eq node rest k npos len

/-- The segments that come back are as many bytes as were asked for. -/
theorem segments_spec {s : ByteArray} (h : WF s) {k p len : Nat} (hlen : 0 < len)
    {buffers : List Iovec}
    (hrun : iovLoop (s.nodes.drop k) k (p % s.baseSize) len = some buffers) :
    buffers.flatMap s.segment = slice s.bytes (s.baseSize * k + p % s.baseSize) len ∧
      (buffers.flatMap s.segment).length = len := by
  have hmod := Nat.mod_lt p h.base_pos
  have hbytes := iovLoop_bytes h.uniform (by omega) hlen hrun
  have hsome : p % s.baseSize + len ≤ s.baseSize * (s.nodes.drop k).length := by
    refine (iovLoop_isSome (fun n hm => (h.uniform n (List.mem_of_mem_drop hm)).1)
      (Nat.le_of_lt hmod) hlen (k := k)).mp ?_
    exact Option.isSome_of_mem hrun
  rw [List.length_drop, Nat.mul_sub] at hsome
  refine ⟨hbytes, ?_⟩
  rw [hbytes]
  apply length_slice
  rw [h.uniform.length_bytes]
  omega

theorem getReadBuffersAt_none {s : ByteArray} {n p : Nat} (hn : min n s.getReadSize = 0) :
    getReadBuffersAt n p s = .ok (0, []) s := by
  have hmin : (if n > s.getReadSize then s.getReadSize else n) = 0 := by split <;> omega
  rw [getReadBuffersAt]
  simp only [hmin, ↓reduceIte]

theorem getReadBuffersAt_some {s : ByteArray} (h : WF s) {n p : Nat}
    (hn : min n s.getReadSize ≠ 0) :
    getReadBuffersAt n p s =
      match s.walk (p / s.baseSize) (some 0) with
      | some (some k) =>
        match iovLoop (s.nodes.drop k) k (p % s.baseSize) (min n s.getReadSize) with
        | none => .fault .nullPointer
        | some buffers => .ok (min n s.getReadSize, buffers) s
      | _ => .fault .nullPointer := by
  have hmin : (if n > s.getReadSize then s.getReadSize else n) = min n s.getReadSize := by
    split <;> omega
  have hb := h.base_pos
  have hsize := h.size_le
  have hc := h.cur_inside (by unfold getReadSize at hn; omega)
  have hk := h.cur_lt hc
  have hnode := h.uniform _ (List.getElem_mem hk)
  rw [getReadBuffersAt]
  simp only [hmin]
  rw [if_neg hn, if_neg (by omega), chain, hc]
  simp only [List.drop_eq_getElem_cons hk]
  cases s.walk (p / s.baseSize) (some 0) with
  | none => rfl
  | some cur =>
    cases cur with
    | none => rfl
    | some k' =>
      have hloop : segmentLoop (s.nodes.drop k') k' (p % s.baseSize)
          ((s.nodes[s.position / s.baseSize]).size - p % s.baseSize) (min n s.getReadSize) =
            iovLoop (s.nodes.drop k') k' (p % s.baseSize) (min n s.getReadSize) := by
        rw [hnode.1, segmentLoop_uniform h.uniform]
      exact congrArg (fun o => match o with
        | none => Outcome.fault .nullPointer
        | some buffers => .ok (min n s.getReadSize, buffers) s) hloop

theorem length_slice_size {s : ByteArray} (h : WF s) (n p : Nat) :
    (slice s.bytes p (min n (s.size - p))).length = min n (s.size - p) := by
  have hsize := h.size_le
  by_cases hp : p ≤ s.size
  · apply length_slice
    rw [h.length_bytes]
    omega
  · rw [show s.size - p = 0 by omega, Nat.min_zero, slice_zero]
    rfl

/-- The buffers from a position inside the chain are found and hold what they were asked for. -/
theorem getReadBuffersAt_inside {s : ByteArray} (h : WF s) {n p : Nat}
    (hn : min n s.getReadSize ≠ 0) (hfit : p + min n s.getReadSize ≤ s.capacity) :
    ∃ buffers, getReadBuffersAt n p s = .ok (min n s.getReadSize, buffers) s ∧
      buffers.flatMap s.segment = slice s.bytes p (min n s.getReadSize) := by
  have hcap := h.capacity
  have hp : p < s.capacity := by omega
  obtain ⟨hk, hmod, hpos⟩ := position_split (p := p) h.base_pos (by omega)
  have hcursor : s.cursorAt p = some (p / s.baseSize) := by
    rw [cursorAt, if_neg (by omega)]
  have hroom : p % s.baseSize + min n s.getReadSize ≤
      s.baseSize * (s.nodes.drop (p / s.baseSize)).length := by
    rw [List.length_drop, Nat.mul_sub]
    omega
  have hsome := (iovLoop_isSome (k := p / s.baseSize)
    (fun m hm => (h.uniform m (List.mem_of_mem_drop hm)).1) (Nat.le_of_lt hmod)
    (Nat.pos_of_ne_zero hn)).mpr hroom
  obtain ⟨buffers, hloop⟩ := Option.isSome_iff_exists.mp hsome
  have hspec := (segments_spec h (Nat.pos_of_ne_zero hn) hloop).1
  refine ⟨buffers, ?_, by rw [hspec, hpos]⟩
  rw [getReadBuffersAt_some h hn, h.walk (Nat.le_of_lt hp), hcursor]
  simp only [hloop]

theorem buffersAgree_iff {s : ByteArray} (h : WF s) (n p : Nat) :
    BuffersAgree s n p ↔ min n s.getReadSize = min n (s.size - p) := by
  have hwant := length_slice_size h n p
  unfold BuffersAgree
  by_cases hzero : min n s.getReadSize = 0
  · rw [getReadBuffersAt_none hzero, hzero]
    constructor
    · rintro ⟨_, _, hrun, hbytes⟩
      cases hrun
      rw [← hwant, ← hbytes]
      rfl
    · intro hnone
      exact ⟨0, [], rfl, by rw [← hnone, slice_zero]; rfl⟩
  · constructor
    · rintro ⟨len, buffers, hrun, hbytes⟩
      rw [getReadBuffersAt_some h hzero] at hrun
      split at hrun
      · split at hrun
        · cases hrun
        · rename_i hloop
          cases hrun
          have hlen := (segments_spec h (Nat.pos_of_ne_zero hzero) hloop).2
          rw [← hwant, ← hbytes, hlen]
      · cases hrun
    · intro hsame
      have hsize := h.size_le
      obtain ⟨buffers, hrun, hbytes⟩ := getReadBuffersAt_inside h (p := p) hzero (by omega)
      exact ⟨_, buffers, hrun, by rw [hbytes, hsame]⟩

/-! ## The string of the unread bytes -/

theorem stringAgrees_iff {s : ByteArray} (h : WF s) :
    StringAgrees s ↔ s.getReadSize = 0 ∨ Mirrors s s.getReadSize s.position := by
  unfold StringAgrees ByteArray.toString
  by_cases hzero : s.getReadSize = 0
  · rw [if_pos hzero, hzero, slice_zero]
    exact iff_of_true rfl (Or.inl rfl)
  · rw [if_neg hzero, or_iff_right hzero]
    have hsize := h.size_le
    have hcap := h.capacity
    have hle : s.position + s.getReadSize = s.size := by
      unfold getReadSize at hzero ⊢
      omega
    have hc := h.cur_inside (by omega)
    have hover : ¬ Overruns s s.getReadSize s.position := by
      rintro ⟨hnext, hlong, -⟩
      -- the last node ends the capacity, so the unread bytes are all in it
      have hk := h.cur_lt hc
      rw [next, hc, Option.bind_some, nextOf] at hnext
      split at hnext
      · cases hnext
      · have hlast : s.position / s.baseSize + 1 = s.nodes.length := by omega
        rw [← hlast, Nat.mul_succ] at hcap
        have := Nat.div_add_mod s.position s.baseSize
        omega
    rw [mirrors_iff hc]
    rcases readAt_cases h (Nat.le_of_eq hle) hc with ⟨hyes, -⟩ | ⟨-, bytes, hrun, hn, hbytes⟩
    · exact absurd hyes hover
    · have hroom : s.position + s.getReadSize ≤ s.bytes.length := by
        rw [h.length_bytes]
        omega
      have hiff := eq_slice_iff hn hroom
      rw [hrun, Outcome.ok.injEq, and_iff_left rfl, hiff]
      constructor
      · intro hall i hi
        rw [← hall i hi, hbytes i hi]
      · intro hall i hi
        rw [hbytes i hi, hall i hi]

/-! ## Every reachable array -/

theorem readAt_unchanged (s : ByteArray) (n p : Nat) : (readAt n p s).Leaves (· = s) := by
  unfold readAt
  split
  · exact (Outcome.leaves_throw _ _ _).mpr rfl
  · split
    · exact Outcome.leaves_fault _ _
    · split
      · dsimp only
        split
        · exact Outcome.leaves_fault _ _
        · exact (Outcome.leaves_ok _ _ _).mpr rfl
      · exact Outcome.leaves_fault _ _

theorem getReadBuffersAt_unchanged (s : ByteArray) (n p : Nat) :
    (getReadBuffersAt n p s).Leaves (· = s) := by
  unfold getReadBuffersAt
  generalize (if n > s.getReadSize then s.getReadSize else n) = len
  dsimp only
  split
  · exact (Outcome.leaves_ok _ _ _).mpr rfl
  · split
    · exact Outcome.leaves_fault _ _
    · split
      · split
        · exact Outcome.leaves_fault _ _
        · exact (Outcome.leaves_ok _ _ _).mpr rfl
      · exact Outcome.leaves_fault _ _

theorem toString_unchanged (s : ByteArray) : (toString s).Leaves (· = s) := by
  unfold ByteArray.toString
  split
  · exact (Outcome.leaves_ok _ _ _).mpr rfl
  · exact readAt_unchanged _ _ _

/-- When the positional read of `n` bytes at `p` is right. Past the stored bytes it
must not wrap; inside them the cursor's node must hold the same bytes. -/
def Positional (s : ByteArray) (n p : Nat) : Prop :=
  if s.size < p + n then p ≤ s.size ∨ 2 ^ 64 - (p - s.size) < n
  else ¬ (n = 0 ∧ p = s.capacity) ∧ Mirrors s n p ∧ ¬ Overruns s n p

theorem Degenerate.readAgrees_iff {s : ByteArray} (h : Degenerate s) (n p : Nat) :
    ReadAgrees s n p ↔ Positional s n p := by
  unfold Positional
  by_cases hout : s.size < p + n
  · rw [if_pos hout]
    exact readAgrees_outside hout
  · have hsize := h.size
    obtain ⟨rfl, rfl⟩ : n = 0 ∧ p = 0 := by omega
    have hfault : readAt 0 0 s = .fault .divisionByZero := by
      rw [readAt, if_neg (Nat.not_lt_zero _), if_pos h.baseSize]
    rw [ReadAgrees, if_neg hout, if_neg hout, hfault, h.capacity]
    exact iff_of_false (fun ⟨_, _, _, hrun⟩ => by cases hrun) (fun hc => hc.1 ⟨rfl, rfl⟩)

theorem Degenerate.buffersAgree {s : ByteArray} (h : Degenerate s) (n p : Nat) :
    BuffersAgree s n p := by
  have hnone : min n s.getReadSize = 0 := by rw [h.getReadSize, Nat.min_zero]
  refine ⟨0, [], getReadBuffersAt_none hnone, ?_⟩
  rw [h.size, Nat.zero_sub, Nat.min_zero, slice_zero]
  rfl

/-- Exactly when the positional routines agree with reading in sequence, in every
reachable state; they never change it. -/
theorem positional_iff {base : Nat} {heap : Nat → UInt8} {s : ByteArray}
    (h : Reachable (machine base heap) s) :
    (∀ n p, ReadAgrees s n p ↔ Positional s n p) ∧
    (∀ n p, BuffersAgree s n p ↔ min n s.getReadSize = min n (s.size - p)) ∧
    (StringAgrees s ↔ s.getReadSize = 0 ∨ Mirrors s s.getReadSize s.position) ∧
    ∀ n p, (readAt n p s).Leaves (· = s) ∧ (getReadBuffersAt n p s).Leaves (· = s) ∧
      (toString s).Leaves (· = s) := by
  refine ⟨fun n p => ?_, fun n p => ?_, ?_, fun n p =>
    ⟨readAt_unchanged s n p, getReadBuffersAt_unchanged s n p, toString_unchanged s⟩⟩
  · rcases reachable_cases h with hd | hwf
    · exact hd.readAgrees_iff n p
    · unfold Positional
      by_cases hout : s.size < p + n
      · rw [if_pos hout]
        exact readAgrees_outside hout
      · rw [if_neg hout]
        exact readAgrees_inside hwf (by omega)
  · rcases reachable_cases h with hd | hwf
    · refine iff_of_true (hd.buffersAgree n p) ?_
      rw [hd.getReadSize, hd.size, Nat.zero_sub]
    · exact buffersAgree_iff hwf n p
  · rcases reachable_cases h with hd | hwf
    · refine iff_of_true ?_ (Or.inl hd.getReadSize)
      unfold StringAgrees ByteArray.toString
      rw [if_pos hd.getReadSize, hd.getReadSize, slice_zero]
    · exact stringAgrees_iff hwf

/-- Two nodes of four bytes, written and with the cursor at `position`. -/
def written8 (position : Nat) (cur : Option Nat) : ByteArray :=
  ⟨4, position, 8, 8, [⟨[1, 2, 3, 4], 4⟩, ⟨[5, 6, 7, 8], 4⟩], cur, fun _ => 0⟩

theorem written8_reachable : Reachable (machine 4 fun _ => 0) (written8 8 none) :=
  Reachable.step (s := new 4 fun _ => 0) (l := .write [1, 2, 3, 4, 5, 6, 7, 8])
    (Reachable.init rfl) rfl

/-- Two bytes before the end, in the second node. -/
def atSixth : ByteArray := written8 6 (some 1)

theorem atSixth_reachable : Reachable (machine 4 fun _ => 0) atSixth :=
  written8_reachable.step (l := .setPosition 6) rfl

/-- Its own node is read at any offset and the two unread bytes are a string; the
first node is not read, the segments are found. -/
theorem positional_iff_atSixth :
    readAt 2 4 atSixth = .ok [5, 6] atSixth ∧ ReadAgrees atSixth 2 4 ∧
      ¬ ReadAgrees atSixth 2 0 ∧ BuffersAgree atSixth 2 0 ∧ StringAgrees atSixth := by
  obtain ⟨hread, hbuffers, hstring, -⟩ := positional_iff atSixth_reachable
  refine ⟨rfl,
    (hread 2 4).mpr ⟨by decide, (mirrors_iff rfl).mpr (by decide),
      fun hover => absurd hover.2.1 (by decide)⟩,
    fun hagree => ?_, (hbuffers 2 0).mpr (by decide),
    hstring.mpr (Or.inr ((mirrors_iff rfl).mpr (by decide)))⟩
  have hmirrors : Mirrors atSixth 2 0 := ((hread 2 0).mp hagree).2.1
  exact absurd ((mirrors_iff rfl).mp hmirrors) (by decide)

def rewound : ByteArray := written8 0 (some 0)

theorem rewound_reachable : Reachable (machine 4 fun _ => 0) rewound :=
  written8_reachable.step (l := .setPosition 0) rfl

/-- Their string is the first four bytes twice. -/
theorem string_repeats_node : ¬ ∀ (base : Nat) (heap : Nat → UInt8) (s : ByteArray),
    Reachable (machine base heap) s →
    (∀ n p, ReadAgrees s n p) ∧ (∀ n p, BuffersAgree s n p) ∧ StringAgrees s := by
  intro hall
  have hstring := (hall 4 (fun _ => 0) rewound rewound_reachable).2.2
  have hrun : toString rewound = .ok [1, 2, 3, 4, 1, 2, 3, 4] rewound := rfl
  rw [StringAgrees, hrun] at hstring
  injection hstring with hbytes
  exact absurd hbytes (by decide)

end ByteArray
end TwServer
