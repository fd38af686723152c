import TwServer.ByteArray.Capacity

/-! The reachable states of a `ByteArray`, and exactly when its writers
complete. Every writer is a list of payloads handed to `write` in turn; it runs
off the chain at the first payload for which `addCapacity` rounded down. -/

namespace TwServer
open Programs Program Runs

namespace ByteArray

/-! ## Every public operation keeps the invariant -/

/-- `I` is kept by the five operations the others are made of. -/
structure Kept (I : ByteArray → Prop) : Prop where
  write : ∀ buf, Keeps I (write buf)
  read : ∀ n, Keeps I (read n)
  setPosition : ∀ v, Keeps I (setPosition v)
  clear : Keeps I clear
  getWriteBuffers : ∀ n, Keeps I (getWriteBuffers n)

theorem wf_kept (base : Nat) : Kept (WFAt base) :=
  ⟨keeps_write, keeps_read, keeps_setPosition, keeps_clear, keeps_getWriteBuffers⟩

section Keeps
variable {I : ByteArray → Prop}

theorem keeps_drop {α : Type} {m : Program ByteArray α} (hm : Keeps I m) :
    Keeps I (drop m) :=
  keeps_bind hm fun _ => keeps_pure _ ()

theorem keeps_map {α β : Type} {m : Program ByteArray α} (hm : Keeps I m) (f : α → β) :
    Keeps I (do return f (← m)) :=
  keeps_bind hm fun _ => keeps_pure _ _

theorem keeps_writeVarint (h : Kept I) {w : Nat} (room : Nat) (v : BitVec w) :
    Keeps I (writeVarint room v) := by
  unfold writeVarint
  split
  · exact keeps_crash _ _
  · exact h.write _

theorem keeps_prefixed (h : Kept I) {m : Program ByteArray Unit} (hm : Keeps I m)
    (value : List UInt8) : Keeps I (do m; write value) :=
  keeps_bind hm fun _ => h.write value

theorem keeps_readObject (h : Kept I) (k : Nat) : Keeps I (readObject k) :=
  keeps_map (h.read k) (ofObject k)

theorem keeps_readVarintLoop (h : Kept I) (w rounds i : Nat) (result : BitVec w) :
    Keeps I (readVarintLoop w rounds i result) := by
  induction rounds generalizing i result with
  | zero => exact keeps_pure _ result
  | succ rounds ih =>
    refine keeps_bind (keeps_readObject h 1) fun b => ?_
    exact keeps_ite (keeps_pure _ _) (ih _ _)

theorem keeps_readInt32 (depth : Nat) : Keeps I (readInt32 depth) := by
  induction depth with
  | zero => exact keeps_crash _ _
  | succ depth ih => exact keeps_map ih decodeZigzag32

theorem keeps_readString (h : Kept I) {k : Nat} {m : Program ByteArray (BitVec k)}
    (hm : Keeps I m) : Keeps I (do read (← m).toNat) :=
  keeps_bind hm fun _ => h.read _

theorem Op.keeps (h : Kept I) (op : Op) : Keeps I op.run := by
  cases op with
  | write buf => exact h.write buf
  | read size => exact keeps_drop (h.read size)
  | setPosition v => exact h.setPosition v
  | clear => exact h.clear
  | getWriteBuffers len => exact keeps_drop (h.getWriteBuffers len)
  | readFromFile chunks => exact keeps_forM h.write chunks
  | writeFint8 | writeFuin8 | writeFint16 | writeFuint16 | writeFint32 | writeFuint32
  | writeFint64 | writeFuint64 | writeStringWithoutLength =>
    dsimp only [Op.run]
    exact h.write _
  | writeFloat v => exact h.write (object 4 (htonl v))
  | writeDouble v => exact h.write (object 8 (htonll v))
  | writeInt32 | wirteUint32 | writeInt64 | writeUint64 =>
    dsimp only [Op.run]
    exact keeps_writeVarint h _ _
  | writeStringF16 v | writeStringF32 v | writeStringF64 v =>
    exact keeps_prefixed h (h.write _) v
  | writeStringVint v => exact keeps_prefixed h (keeps_writeVarint h _ _) v
  | readFint8 | readFuint8 => exact keeps_drop (keeps_readObject h 1)
  | readFint16 | readFuint16 => exact keeps_drop (keeps_map (keeps_readObject h 2) ntohs)
  | readFint32 | readFuint32 | readFloat =>
    exact keeps_drop (keeps_map (keeps_readObject h 4) ntohl)
  | readFint64 | readFuint64 | readDouble =>
    exact keeps_drop (keeps_map (keeps_readObject h 8) ntohll)
  | readInt32 depth => exact keeps_drop (keeps_readInt32 depth)
  | readUint32 => exact keeps_drop (keeps_readVarintLoop h 32 5 0 0)
  | readInt64 => exact keeps_drop (keeps_map (keeps_readVarintLoop h 64 10 0 0) decodeZigzag64)
  | readUint64 => exact keeps_drop (keeps_readVarintLoop h 64 10 0 0)
  | readStringF16 => exact keeps_drop (keeps_readString h (keeps_map (keeps_readObject h 2) ntohs))
  | readStringF32 => exact keeps_drop (keeps_readString h (keeps_map (keeps_readObject h 4) ntohl))
  | readStringF64 => exact keeps_drop (keeps_readString h (keeps_map (keeps_readObject h 8) ntohll))
  | readStringVint => exact keeps_drop (keeps_readString h (keeps_readVarintLoop h 64 10 0 0))

end Keeps

/-! ## Reachable states -/

/-- A fresh `ByteArray(base)` and the calls that come back, also by a throw. -/
def machine (base : Nat) (heap : Nat → UInt8) : System ByteArray Op where
  init s := s = new base heap
  step s op s' := (op.run s).state? = some s'

theorem new_wf {base : Nat} (hb : 0 < base) (heap : Nat → UInt8) :
    WFAt base (new base heap) where
  base_pos := hb
  nodes_pos := Nat.one_pos
  uniform := by
    intro n hn
    obtain rfl := List.mem_singleton.mp hn
    exact ⟨rfl, Node.new_length _ _⟩
  capacity := (Nat.mul_one base).symm
  position_le := Nat.le_refl _
  size_le := Nat.zero_le _
  cur := by
    show some 0 = cursorAt _ 0
    unfold cursorAt
    rw [if_neg (by simp only [new, List.length_singleton]; omega), Nat.zero_div]
  base_eq := rfl

theorem machine_inductive {base : Nat} (hb : 0 < base) (heap : Nat → UInt8) :
    (machine base heap).Inductive (WFAt base) where
  init := by rintro s rfl; exact new_wf hb heap
  step s op s' h hstep := op.keeps (wf_kept base) s h s' hstep

/-! ## What the writers hand to `write` -/

/-- The successive arguments of `write` in a writer; `none` for the other operations. -/
def Op.payloads : Op → Option (List (List UInt8))
  | write buf => some [buf]
  | readFromFile chunks => some chunks
  | writeFint8 v | writeFuin8 v => some [object 1 v]
  | writeFint16 v | writeFuint16 v => some [object 2 (htons v)]
  | writeFint32 v | writeFuint32 v | writeFloat v => some [object 4 (htonl v)]
  | writeFint64 v | writeFuint64 v | writeDouble v => some [object 8 (htonll v)]
  | wirteUint32 v => (varintLoop 5 v).map ([·])
  | writeInt32 v => (varintLoop 5 (decodeZigzag32 v)).map ([·])
  | writeUint64 v => (varintLoop 10 v).map ([·])
  | writeInt64 v => (varintLoop 10 (decodeZigzag64 v)).map ([·])
  | writeStringF16 v => some [object 2 (htons (BitVec.ofNat 16 v.length)), v]
  | writeStringF32 v => some [object 4 (htonl (BitVec.ofNat 32 v.length)), v]
  | writeStringF64 v => some [object 8 (htonll (BitVec.ofNat 64 v.length)), v]
  | writeStringVint v => (varintLoop 10 (BitVec.ofNat 64 v.length)).map ([·, v])
  | writeStringWithoutLength v => some [v]
  | _ => none

def Op.isWriter : Op → Bool
  | write _ | readFromFile _ | writeFint8 _ | writeFuin8 _ | writeFint16 _ | writeFuint16 _
  | writeFint32 _ | writeFuint32 _ | writeFint64 _ | writeFuint64 _ | writeInt32 _
  | wirteUint32 _ | writeInt64 _ | writeUint64 _ | writeFloat _ | writeDouble _
  | writeStringF16 _ | writeStringF32 _ | writeStringF64 _ | writeStringVint _
  | writeStringWithoutLength _ => true
  | _ => false

/-- `tmp` is long enough for `room` groups of seven bits. -/
theorem varintLoop_isSome {w : Nat} {room : Nat} {v : BitVec w} (h : v.toNat < 128 ^ room)
    (hroom : 0 < room) : ∃ tmp, varintLoop room v = some tmp := by
  induction room generalizing v with
  | zero => omega
  | succ room ih =>
    unfold varintLoop
    by_cases hbig : v.toNat ≥ 0x80
    · rw [if_pos hbig]
      have hroom' : 0 < room := by
        rcases Nat.eq_zero_or_pos room with rfl | h0
        · simp at h; omega
        · exact h0
      have hv : (v >>> 7).toNat < 128 ^ room := by
        rw [BitVec.toNat_ushiftRight, Nat.shiftRight_eq_div_pow]
        exact Nat.div_lt_of_lt_mul (by rwa [Nat.pow_succ, Nat.mul_comm] at h)
      obtain ⟨tmp, htmp⟩ := ih hv hroom'
      exact ⟨_, by rw [htmp]; rfl⟩
    · rw [if_neg hbig]
      exact ⟨_, rfl⟩

theorem varint32_isSome (v : BitVec 32) : ∃ tmp, varintLoop 5 v = some tmp :=
  varintLoop_isSome (Nat.lt_trans v.isLt (by decide)) (by decide)

theorem varint64_isSome (v : BitVec 64) : ∃ tmp, varintLoop 10 v = some tmp :=
  varintLoop_isSome (Nat.lt_trans v.isLt (by decide)) (by decide)

theorem forM_one (buf : List UInt8) : [buf].forM ByteArray.write = ByteArray.write buf :=
  bind_unit _

theorem forM_two (b c : List UInt8) :
    [b, c].forM ByteArray.write = (do ByteArray.write b; ByteArray.write c) := by
  show (ByteArray.write b >>= fun _ => [c].forM ByteArray.write) = _
  rw [forM_one]

theorem writeVarint_eq {w room : Nat} {v : BitVec w} {tmp : List UInt8}
    (h : varintLoop room v = some tmp) : writeVarint room v = ByteArray.write tmp := by
  rw [writeVarint, h]

/-- A writer is the `write` calls of its payloads. -/
theorem Op.run_writer {op : Op} (h : op.isWriter) :
    ∃ ps, op.payloads = some ps ∧ op.run = ps.forM ByteArray.write := by
  cases op with
  | write | writeFint8 | writeFuin8 | writeFint16 | writeFuint16 | writeFint32 | writeFuint32
  | writeFint64 | writeFuint64 | writeFloat | writeDouble | writeStringWithoutLength =>
    exact ⟨_, rfl, by rw [forM_one]; rfl⟩
  | readFromFile chunks => exact ⟨chunks, rfl, rfl⟩
  | wirteUint32 v =>
    obtain ⟨tmp, htmp⟩ := varint32_isSome v
    exact ⟨[tmp], by rw [payloads, htmp]; rfl, by rw [forM_one]; exact writeVarint_eq htmp⟩
  | writeInt32 v =>
    obtain ⟨tmp, htmp⟩ := varint32_isSome (decodeZigzag32 v)
    exact ⟨[tmp], by rw [payloads, htmp]; rfl, by rw [forM_one]; exact writeVarint_eq htmp⟩
  | writeUint64 v =>
    obtain ⟨tmp, htmp⟩ := varint64_isSome v
    exact ⟨[tmp], by rw [payloads, htmp]; rfl, by rw [forM_one]; exact writeVarint_eq htmp⟩
  | writeInt64 v =>
    obtain ⟨tmp, htmp⟩ := varint64_isSome (decodeZigzag64 v)
    exact ⟨[tmp], by rw [payloads, htmp]; rfl, by rw [forM_one]; exact writeVarint_eq htmp⟩
  | writeStringF16 | writeStringF32 | writeStringF64 => exact ⟨_, rfl, by rw [forM_two]; rfl⟩
  | writeStringVint v =>
    obtain ⟨tmp, htmp⟩ := varint64_isSome (BitVec.ofNat 64 v.length)
    refine ⟨[tmp, v], by rw [payloads, htmp]; rfl, ?_⟩
    rw [forM_two, ← writeVarint_eq htmp]
    rfl
  | _ => exact absurd h Bool.false_ne_true

/-! ## When the writers complete -/

/-- Every payload length finds room at its turn, starting from `r` remaining bytes. -/
def RoomSeq (base : Nat) : Nat → List Nat → Prop
  | _, [] => True
  | r, n :: ns => Room base r n ∧ RoomSeq base (remainAfter base r n) ns

theorem write_remain {s s' : ByteArray} {buf : List UInt8} (h : WF s)
    (hw : Wrote (s.addCapacity buf.length) buf s') :
    s'.getRemainCapacity = remainAfter s.baseSize s.getRemainCapacity buf.length := by
  rw [remainAfter, ← remain_addCapacity h, getRemainCapacity, hw.capacity, hw.position,
    getRemainCapacity]
  omega

theorem room_zero (base r : Nat) : Room base r 0 := Or.inl (Nat.zero_le r)

theorem remainAfter_zero (base r : Nat) : remainAfter base r 0 = r := by
  simp [remainAfter, addedNodes]

theorem forM_write_completes {base : Nat} {s : ByteArray} (h : WFAt base s)
    (ps : List (List UInt8)) :
    (ps.forM ByteArray.write s).isFault = false ↔
      RoomSeq base s.getRemainCapacity (ps.map List.length) := by
  induction ps generalizing s with
  | nil => exact iff_of_true rfl trivial
  | cons buf ps ih =>
    have hstep : (buf :: ps).forM ByteArray.write s =
        Program.bind (ByteArray.write buf) (fun _ => ps.forM ByteArray.write) s := rfl
    rw [hstep, Program.bind, List.map_cons, RoomSeq]
    rcases Nat.eq_zero_or_pos buf.length with hbuf | hbuf
    · have hskip : ByteArray.write buf s = .ok () s := by
        rw [ByteArray.write, if_pos hbuf]
      rw [hskip, hbuf, remainAfter_zero]
      exact (ih h).trans (and_iff_right (room_zero _ _)).symm
    · by_cases hroom : Room base s.getRemainCapacity buf.length
      · obtain ⟨s', hrun, hw, hwf⟩ := write_ok h.toWF hbuf (by rw [h.base_eq]; exact hroom)
        have hleft := keeps_write buf s h s' (by rw [hrun]; rfl)
        have hremain := write_remain h.toWF hw
        rw [h.base_eq] at hremain
        rw [hrun, ← hremain]
        exact (ih hleft).trans (and_iff_right hroom).symm
      · rw [write_fault h.toWF hbuf (by rw [h.base_eq]; exact hroom)]
        exact iff_of_false Bool.noConfusion fun hc => hroom hc.1

/-- In every reachable state `addCapacity(n)`, and with it `write` of `n` bytes
and `getWriteBuffers(n)`, serves exactly the `n` with `Room`, and a writer
completes exactly when each of its payloads has room. -/
theorem writers_complete_iff {base : Nat} {heap : Nat → UInt8} (hb : 1 ≤ base) {s : ByteArray}
    (h : Reachable (machine base heap) s) :
    (∀ n, 1 ≤ n →
      ((n ≤ (s.addCapacity n).getRemainCapacity ∧
        (∀ buf : List UInt8, buf.length = n → (ByteArray.write buf s).isFault = false) ∧
        (ByteArray.getWriteBuffers n s).isFault = false) ↔ Room base s.getRemainCapacity n)) ∧
    ∀ op : Op, op.isWriter →
      ((op.run s).isFault = false ↔
        RoomSeq base s.getRemainCapacity ((op.payloads.getD []).map List.length)) := by
  have hwf : WFAt base s := (machine_inductive hb heap).reachable h
  constructor
  · intro n hn
    have hiff := room_iff (r := s.getRemainCapacity) (n := n) hwf.base_pos
    rw [← remain_addCapacity hwf.toWF, hwf.base_eq] at hiff
    refine ⟨fun hc => hiff.mp hc.1, fun hroom => ⟨hiff.mpr hroom, ?_, ?_⟩⟩
    · rintro buf rfl
      obtain ⟨s', hrun, -⟩ := write_ok hwf.toWF hn (by rw [hwf.base_eq]; exact hroom)
      rw [hrun]
      rfl
    · rcases getWriteBuffers_cases hwf.toWF hn with ⟨-, bufs, hrun⟩ | ⟨hno, -⟩
      · rw [hrun]
        rfl
      · rw [hwf.base_eq] at hno
        exact absurd hroom hno
  · intro op hop
    obtain ⟨ps, hps, hrun⟩ := Op.run_writer hop
    rw [hrun, hps, Option.getD_some]
    exact forM_write_completes hwf ps

/-- A fresh array of base 4 that is asked for 8 bytes gets them: one node is added. -/
theorem writers_complete_iff_base4 :
    8 ≤ ((new 4 fun _ => 0).addCapacity 8).getRemainCapacity :=
  (((writers_complete_iff (by decide) (Reachable.init (S := machine 4 fun _ => 0) rfl)).1
    8 (by decide)).mpr (by decide)).1

/-- A fresh array of base 4 that is asked for 6 bytes gets no node: of the two
bytes missing none is rounded up, and `write` runs into null. -/
theorem addCapacity_short : ¬ ∀ (base : Nat) (heap : Nat → UInt8) (s : ByteArray) (n : Nat),
    1 ≤ base → Reachable (machine base heap) s → 1 ≤ n →
    n ≤ (s.addCapacity n).getRemainCapacity ∧
      (∀ buf : List UInt8, buf.length = n → (ByteArray.write buf s).isFault = false) ∧
      (ByteArray.getWriteBuffers n s).isFault = false := by
  intro h
  have hshort := (h 4 (fun _ => 0) (new 4 fun _ => 0) 6 (by decide) (Reachable.init rfl)
    (by decide)).1
  exact absurd hshort (by decide)

end ByteArray
end TwServer
