import TwServer.ByteArray.Writers

/-! Bytes written one after another and read back from where they start, for any
writers and readers made of `write` and `read`. -/

namespace TwServer
open Programs Program Blocks

namespace ByteArray

/-! ## Writing -/

/-- From `s` to `s'` the bytes `bs` were written at the position. -/
structure Written (s : ByteArray) (bs : List UInt8) (s' : ByteArray) : Prop where
  wf : WF s'
  baseSize : s'.baseSize = s.baseSize
  position : s'.position = s.position + bs.length
  size : s'.size = max s.size s'.position
  before : s'.bytes.take s.position = s.bytes.take s.position
  bytes : slice s'.bytes s.position bs.length = bs

theorem Written.refl {s : ByteArray} (h : WF s) : Written s [] s :=
  ⟨h, rfl, rfl, (Nat.max_eq_left h.position_le).symm, rfl, slice_zero _ _⟩

theorem slice_take {l : List UInt8} {pos n k : Nat} (h : pos + n ≤ k) :
    slice (l.take k) pos n = slice l pos n := by
  unfold slice
  rw [List.drop_take, List.take_take, Nat.min_eq_left (by omega)]

theorem Written.trans {s t u : ByteArray} {bs cs : List UInt8} (h : Written s bs t)
    (h' : Written t cs u) : Written s (bs ++ cs) u where
  wf := h'.wf
  baseSize := h'.baseSize.trans h.baseSize
  position := by rw [h'.position, h.position, List.length_append, Nat.add_assoc]
  size := by
    have := h'.position
    rw [h'.size, h.size]
    omega
  before := by
    have hle : s.position ≤ t.position := by
      rw [h.position]
      exact Nat.le_add_right _ _
    have := congrArg (List.take s.position) h'.before
    rw [List.take_take, List.take_take, Nat.min_eq_left hle] at this
    exact this.trans h.before
  bytes := by
    have hfirst : slice u.bytes s.position bs.length = bs := by
      have hle : s.position + bs.length ≤ t.position := Nat.le_of_eq h.position.symm
      rw [← slice_take hle, h'.before, slice_take hle, h.bytes]
    rw [List.length_append, slice_add, hfirst, ← h.position, h'.bytes]

theorem written_write {s s' : ByteArray} {buf : List UInt8} (h : WF s)
    (hw : Wrote (s.addCapacity buf.length) buf s') (hwf : WF s') : Written s buf s' := by
  have he := addCapacity_extended h buf.length
  obtain ⟨fresh, hfresh⟩ := he.bytes
  have hpos : s'.position = s.position + buf.length := by rw [hw.position, he.position]
  have hlen : s.position ≤ s.bytes.length := by
    rw [h.length_bytes]
    exact Nat.le_trans h.position_le h.size_le
  have hfit : s.position + buf.length ≤ (s.bytes ++ fresh).length := by
    rw [← hpos, ← hfresh, (addCapacity_wf h _).length_bytes, ← hw.capacity]
    exact Nat.le_trans hwf.position_le hwf.size_le
  have hbytes : s'.bytes = overwrite (s.bytes ++ fresh) s.position buf := by
    rw [hw.bytes, hfresh, he.position]
  refine ⟨hwf, by rw [hw.baseSize, he.baseSize], hpos, ?_, ?_, ?_⟩
  · rw [hw.size, he.size, hpos, he.position]
  · rw [hbytes, overwrite, List.append_assoc, List.take_append_of_le_length, List.take_take,
      Nat.min_self, List.take_append_of_le_length hlen]
    rw [List.length_take]
    omega
  · rw [hbytes]
    exact slice_overwrite_self hfit

/-- Payloads that all find room are written one behind the other. -/
theorem forM_write_written {base : Nat} {s : ByteArray} {ps : List (List UInt8)}
    (h : WFAt base s) (hroom : RoomSeq base s.getRemainCapacity (ps.map List.length)) :
    ∃ s', ps.forM ByteArray.write s = .ok () s' ∧ Written s ps.flatten s' ∧
      s'.getRemainCapacity = (ps.map List.length).foldl (remainAfter base) s.getRemainCapacity := by
  induction ps generalizing s with
  | nil => exact ⟨s, rfl, Written.refl h.toWF, rfl⟩
  | cons buf ps ih =>
    obtain ⟨hfirst, hrest⟩ := hroom
    rcases Nat.eq_zero_or_pos buf.length with hbuf | hbuf
    · obtain rfl := List.length_eq_zero_iff.mp hbuf
      have hskip : ByteArray.write [] s = .ok () s := rfl
      rw [List.length_nil, remainAfter_zero] at hrest
      obtain ⟨s', hrun, hwritten, hremain⟩ := ih h hrest
      refine ⟨s', (bind_ok hskip).trans hrun, hwritten, ?_⟩
      rw [List.map_cons, List.foldl_cons, List.length_nil, remainAfter_zero]
      exact hremain
    · obtain ⟨t, hrun, hw, hwf⟩ := write_ok h.toWF hbuf (by rw [h.base_eq]; exact hfirst)
      have hwritten := written_write h.toWF hw hwf
      have hleft : WFAt base t := ⟨hwf, by rw [hwritten.baseSize, h.base_eq]⟩
      have hremain := write_remain h.toWF hw
      rw [h.base_eq] at hremain
      rw [← hremain] at hrest
      obtain ⟨s', hrun', hwritten', hremain'⟩ := ih hleft hrest
      refine ⟨s', (bind_ok hrun).trans hrun', hwritten.trans hwritten', ?_⟩
      rw [List.map_cons, List.foldl_cons, ← hremain]
      exact hremain'

/-- `write` calls that come back have found room. -/
theorem room_of_forM_write {base : Nat} {s s' : ByteArray} {ps : List (List UInt8)}
    (h : WFAt base s) (hrun : ps.forM ByteArray.write s = .ok () s') :
    RoomSeq base s.getRemainCapacity (ps.map List.length) := by
  apply (forM_write_completes h ps).mp
  rw [hrun]
  rfl

/-! ## Reading -/

/-- The cursor moved forward by `n` bytes. -/
def advance (n : Nat) (s : ByteArray) : ByteArray :=
  { s with position := s.position + n, cur := s.cursorAt (s.position + n) }

/-- The cursor at `v`. -/
def seek (v : Nat) (s : ByteArray) : ByteArray :=
  { s with position := v, cur := s.cursorAt v }

section
variable {s : ByteArray} {n m v : Nat}

theorem advance_zero (h : WF s) : s.advance 0 = s := by
  unfold advance
  rw [Nat.add_zero, ← h.cur]

theorem advance_advance : (s.advance n).advance m = s.advance (n + m) := by
  unfold advance
  simp only [Nat.add_assoc]
  rfl

theorem advance_seek : (s.seek v).advance n = s.seek (v + n) := rfl

theorem seek_self (h : WF s) : s.seek s.position = s := by
  unfold seek
  rw [← h.cur]

theorem seek_wf (h : WF s) (hv : v ≤ s.size) : WF (s.seek v) :=
  ⟨h.base_pos, h.nodes_pos, h.uniform, h.capacity, hv, h.size_le, rfl⟩

theorem advance_wf (h : WF s) (hn : s.position + n ≤ s.size) : WF (s.advance n) :=
  ⟨h.base_pos, h.nodes_pos, h.uniform, h.capacity, hn, h.size_le, rfl⟩

theorem setPosition_seek (h : WF s) (hv : v ≤ s.size) :
    setPosition v s = .ok () (s.seek v) := by
  rw [setPosition_ok h (Nat.le_trans hv h.size_le), Nat.max_eq_left hv]
  rfl

/-- `bs` lies at the position. -/
def Next (s : ByteArray) (bs : List UInt8) : Prop :=
  slice s.bytes s.position bs.length = bs ∧ s.position + bs.length ≤ s.size

theorem Next.left {bs cs : List UInt8} (h : Next s (bs ++ cs)) : Next s bs := by
  obtain ⟨hslice, hfit⟩ := h
  rw [List.length_append] at hslice hfit
  rw [slice_add] at hslice
  have hlen : (slice s.bytes s.position bs.length).length = bs.length := by
    have hle : bs.length ≤ (bs ++ cs).length := by simp
    have htotal := congrArg List.length hslice
    simp only [slice, List.length_append, List.length_take, List.length_drop] at htotal ⊢
    omega
  exact ⟨(List.append_inj hslice hlen).1, by omega⟩

theorem Next.right {bs cs : List UInt8} (h : Next s (bs ++ cs)) : Next (s.advance bs.length) cs := by
  have hleft := h.left.1
  obtain ⟨hslice, hfit⟩ := h
  rw [List.length_append] at hslice hfit
  rw [slice_add, hleft] at hslice
  exact ⟨List.append_cancel_left hslice, Nat.le_trans (Nat.le_of_eq (Nat.add_assoc _ _ _)) hfit⟩

/-- What was written is what comes next from where it starts. -/
theorem Written.next {s' : ByteArray} {bs : List UInt8} (h : Written s bs s') :
    Next (s'.seek s.position) bs := by
  refine ⟨h.bytes, ?_⟩
  show s.position + bs.length ≤ s'.size
  rw [← h.position]
  exact h.wf.position_le

theorem Written.setPosition {s' : ByteArray} {bs : List UInt8} (h : Written s bs s') :
    WF (s'.seek s.position) ∧ ByteArray.setPosition s.position s' = .ok () (s'.seek s.position) := by
  have hle : s.position ≤ s'.size := by
    have := h.position
    have := h.wf.position_le
    omega
  exact ⟨seek_wf h.wf hle, setPosition_seek h.wf hle⟩

end

/-- Wherever `bs` comes next, `m` consumes exactly it and returns `a`. -/
def Reads {α : Type} (m : Program ByteArray α) (bs : List UInt8) (a : α) : Prop :=
  ∀ s, WF s → Next s bs → m s = .ok a (s.advance bs.length)

section
variable {α β : Type} {m : Program ByteArray α} {a : α} {bs cs : List UInt8}

theorem reads_read (h : bs ≠ []) : Reads (read bs.length) bs bs := by
  intro s hs hnext
  have hfit : bs.length ≤ s.getReadSize := by
    have := hnext.2
    unfold getReadSize
    omega
  rw [read_ok hs (List.length_pos_iff.mpr h) hfit, hnext.1]
  rfl

theorem reads_pure (a : α) : Reads (Pure.pure a) [] a := by
  intro s hs _
  rw [List.length_nil, advance_zero hs]
  rfl

theorem Reads.bind {f : α → Program ByteArray β} {b : β} (hm : Reads m bs a)
    (hf : Reads (f a) cs b) : Reads (m >>= f) (bs ++ cs) b := by
  intro s hs hnext
  have hleft := hnext.left
  rw [bind_ok (hm s hs hleft), hf _ (advance_wf hs hleft.2) hnext.right, advance_advance,
    List.length_append]

theorem Reads.map (hm : Reads m bs a) (f : α → β) : Reads (do return f (← m)) bs (f a) := by
  have hbind := hm.bind (f := fun a => Pure.pure (f a)) (reads_pure (f a))
  rwa [List.append_nil] at hbind

end

end ByteArray
end TwServer
