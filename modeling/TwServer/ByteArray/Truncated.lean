import TwServer.ByteArray.Strings
import TwServer.ByteArray.Positional

/-! Compound readers on too few bytes. Each is a sequence of reads that are atomic one
by one, so what the first of them has consumed stays consumed when a later one throws;
a string is allocated at its declared length before its bytes are asked for. -/

namespace TwServer
open Programs Program Blocks Runs

namespace ByteArray

/-! ## The readers with their allocation -/

/-- `buff.resize(len)`; `alloc` is what the allocator throws at a length, if it does. -/
def resize (alloc : Nat → Option String) (len : Nat) : Program ByteArray Unit :=
  match alloc len with
  | none => Pure.pure ()
  | some what => raise what

namespace Format

def readLength : (format : Format) → Program ByteArray (BitVec format.width)
  | f16 => readFuint16
  | f32 => readFuint32
  | f64 => readFuint64
  | vint => readUint64

/-- `readString...` with the allocation between its two reads. -/
def readAllocating (alloc : Nat → Option String) (format : Format) :
    Program ByteArray (List UInt8) := do
  let len ← format.readLength
  resize alloc len.toNat
  ByteArray.read len.toNat

/-- With an allocator that serves every length this is the reader. -/
theorem readAllocating_served (format : Format) :
    format.readAllocating (fun _ => none) = format.read := by
  have hserved {w : Nat} (m : Program ByteArray (BitVec w)) :
      (m >>= fun len => resize (fun _ => none) len.toNat >>= fun _ => ByteArray.read len.toNat) =
        m >>= fun len => ByteArray.read len.toNat := rfl
  cases format with
  | f16 => exact hserved readFuint16
  | f32 => exact hserved readFuint32
  | f64 => exact hserved readFuint64
  | vint => exact hserved readUint64

end Format

inductive Compound where
  | uint32
  | uint64
  | string (format : Format)

namespace Compound

def run (alloc : Nat → Option String) : Compound → Program ByteArray Unit
  | uint32 => drop readUint32
  | uint64 => drop readUint64
  | string format => drop (format.readAllocating alloc)

/-- The bytes of the first `read` call. -/
def width : Compound → Nat
  | uint32 | uint64 | string .vint => 1
  | string .f16 => 2
  | string .f32 => 4
  | string .f64 => 8

end Compound

/-! ## Values that are not there in full -/

def unread (s : ByteArray) : List UInt8 := slice s.bytes s.position s.getReadSize

/-- All unread bytes belong to a varint of at most `rounds` bytes, and none ends it. -/
def TruncatedVarint (rounds : Nat) (s : ByteArray) : Prop :=
  s.getReadSize < rounds ∧ ∀ b ∈ s.unread, 128 ≤ b.toNat

def Format.TruncatedLength : Format → ByteArray → Prop
  | f16, s => s.getReadSize < 2
  | f32, s => s.getReadSize < 4
  | f64, s => s.getReadSize < 8
  | vint, s => TruncatedVarint 10 s

/-- The unread bytes do not contain a complete value. -/
def Compound.Incomplete : Compound → ByteArray → Prop
  | uint32, s => TruncatedVarint 5 s
  | uint64, s => TruncatedVarint 10 s
  | string format, s => format.TruncatedLength s ∨
    ∃ len t, format.readLength s = .ok len t ∧ t.getReadSize < len.toNat

/-- The reader throws, changes nothing, and does not depend on the allocator. -/
def Compound.FailsCleanly (r : Compound) (s : ByteArray) : Prop :=
  ∀ alloc, r.run alloc s = .throw "ByteArray::read not enough len" s

/-! ## The first read decides -/

section
variable {α β : Type}

/-- With the first `k` bytes there, the program ends behind its start. -/
def Advances (k : Nat) (m : Program ByteArray α) : Prop :=
  ∀ s, WF s → k ≤ s.getReadSize → (m s).Leaves fun t => WF t ∧ s.position < t.position

def Onward (m : Program ByteArray α) : Prop :=
  ∀ p, Keeps (fun t => WF t ∧ p ≤ t.position) m

theorem onward_pure (a : α) : Onward (Pure.pure a) := fun _ => keeps_pure _ a

theorem onward_raise (what : String) : Onward (raise what : Program ByteArray α) :=
  fun _ => keeps_raise _ what

theorem onward_bind {m : Program ByteArray α} {f : α → Program ByteArray β} (hm : Onward m)
    (hf : ∀ a, Onward (f a)) : Onward (m >>= f) :=
  fun p => keeps_bind (hm p) fun a => hf a p

theorem onward_read (n : Nat) : Onward (read n) := by
  rintro p s ⟨hs, hp⟩
  by_cases hfit : n ≤ s.getReadSize
  · rcases Nat.eq_zero_or_pos n with rfl | hn
    · rw [read_zero hs]
      split
      · exact Outcome.leaves_fault _ _
      · exact (Outcome.leaves_ok _ _ _).mpr ⟨hs, hp⟩
    · rw [read_ok hs hn hfit]
      have hle := hs.position_le
      refine (Outcome.leaves_ok _ _ _).mpr ⟨advance_wf hs ?_, Nat.le_add_right_of_le hp⟩
      unfold getReadSize at hfit
      omega
  · rw [read_throws (Nat.lt_of_not_le hfit)]
    exact (Outcome.leaves_throw _ _ _).mpr ⟨hs, hp⟩

theorem onward_readVarintLoop (w rounds i : Nat) (result : BitVec w) :
    Onward (readVarintLoop w rounds i result) := by
  induction rounds generalizing i result with
  | zero => exact onward_pure result
  | succ rounds ih =>
    refine onward_bind (onward_bind (onward_read 1) fun _ => onward_pure _) fun b => ?_
    split
    · exact onward_pure _
    · exact ih _ _

theorem onward_resize (alloc : Nat → Option String) (len : Nat) : Onward (resize alloc len) := by
  unfold resize
  split
  · exact onward_pure ()
  · exact onward_raise _

theorem advances_read {k : Nat} (hk : 0 < k) : Advances k (read k) := by
  intro s hs hfit
  rw [read_ok hs hk hfit]
  have hle := hs.position_le
  refine (Outcome.leaves_ok _ _ _).mpr ⟨advance_wf hs ?_, Nat.lt_add_of_pos_right hk⟩
  unfold getReadSize at hfit
  omega

theorem advances_bind {k : Nat} {m : Program ByteArray α} {f : α → Program ByteArray β}
    (hm : Advances k m) (hf : ∀ a, Onward (f a)) : Advances k (m >>= f) := by
  intro s hs hfit
  have hfirst := hm s hs hfit
  cases hrun : m s with
  | ok a t =>
    rw [hrun] at hfirst
    obtain ⟨ht, hlt⟩ := (Outcome.leaves_ok _ _ _).mp hfirst
    rw [bind_ok hrun]
    exact hf a (s.position + 1) t ⟨ht, hlt⟩
  | throw what t =>
    rw [hrun] at hfirst
    rw [bind_throw hrun]
    rwa [Outcome.leaves_throw] at hfirst ⊢
  | fault why =>
    rw [bind_fault hrun]
    exact Outcome.leaves_fault _ _

end

theorem advances_readVarintLoop (w rounds i : Nat) (result : BitVec w) :
    Advances 1 (readVarintLoop w (rounds + 1) i result) := by
  refine advances_bind (advances_bind (advances_read Nat.one_pos) fun _ => onward_pure _) fun b => ?_
  split
  · exact onward_pure _
  · exact onward_readVarintLoop _ _ _ _

theorem advances_fixed {k : Nat} (hk : 0 < k) (f : BitVec (8 * k) → BitVec (8 * k)) :
    Advances k (do return f (← readObject k)) :=
  advances_bind (advances_bind (advances_read hk) fun _ => onward_pure _) fun _ => onward_pure _

theorem Compound.advances (alloc : Nat → Option String) (r : Compound) :
    Advances r.width (r.run alloc) := by
  have hdrop {α : Type} {k : Nat} {m : Program ByteArray α} (hm : Advances k m) :
      Advances k (drop m) := advances_bind hm fun _ => onward_pure ()
  have hstring {w k : Nat} {m : Program ByteArray (BitVec w)} (hm : Advances k m) :
      Advances k (m >>= fun len =>
        resize alloc len.toNat >>= fun _ => ByteArray.read len.toNat) :=
    advances_bind hm fun len => onward_bind (onward_resize alloc _) fun _ => onward_read _
  cases r with
  | uint32 => exact hdrop (advances_readVarintLoop 32 4 0 0)
  | uint64 => exact hdrop (advances_readVarintLoop 64 9 0 0)
  | string format =>
    cases format with
    | f16 => exact hdrop (hstring (advances_fixed (k := 2) (by decide) ntohs))
    | f32 => exact hdrop (hstring (advances_fixed (k := 4) (by decide) ntohl))
    | f64 => exact hdrop (hstring (advances_fixed (k := 8) (by decide) ntohll))
    | vint => exact hdrop (hstring (advances_readVarintLoop 64 9 0 0))

/-! ## Nothing to start with -/

/-- The program throws where it is when fewer than `k` bytes are left. -/
def Refuses {α : Type} (k : Nat) (m : Program ByteArray α) : Prop :=
  ∀ s, s.getReadSize < k → m s = .throw "ByteArray::read not enough len" s

theorem refuses_read (k : Nat) : Refuses k (read k) := fun _ h => read_throws h

theorem refuses_bind {α β : Type} {k : Nat} {m : Program ByteArray α}
    {f : α → Program ByteArray β} (hm : Refuses k m) : Refuses k (m >>= f) :=
  fun s h => bind_throw (hm s h)

theorem refuses_readVarintLoop (w rounds i : Nat) (result : BitVec w) :
    Refuses 1 (readVarintLoop w (rounds + 1) i result) :=
  refuses_bind (refuses_bind (refuses_read 1))

theorem refuses_fixed (k : Nat) (f : BitVec (8 * k) → BitVec (8 * k)) :
    Refuses k (do return f (← readObject k)) :=
  refuses_bind (refuses_bind (refuses_read k))

theorem Compound.refuses (alloc : Nat → Option String) (r : Compound) :
    Refuses r.width (r.run alloc) := by
  cases r with
  | uint32 => exact refuses_bind (refuses_readVarintLoop 32 4 0 0)
  | uint64 => exact refuses_bind (refuses_readVarintLoop 64 9 0 0)
  | string format =>
    cases format with
    | f16 => exact refuses_bind (refuses_bind (refuses_fixed 2 ntohs))
    | f32 => exact refuses_bind (refuses_bind (refuses_fixed 4 ntohl))
    | f64 => exact refuses_bind (refuses_bind (refuses_fixed 8 ntohll))
    | vint => exact refuses_bind (refuses_bind (refuses_readVarintLoop 64 9 0 0))

/-! ## What an incomplete value does -/

def Short {α : Type} (o : Outcome ByteArray α) : Prop :=
  ∃ t, o = .throw "ByteArray::read not enough len" t

theorem short_bind {α β : Type} {m : Program ByteArray α} {f : α → Program ByteArray β}
    {s : ByteArray} (h : Short (m s)) : Short ((m >>= f) s) := by
  obtain ⟨t, ht⟩ := h
  exact ⟨t, bind_throw ht⟩

theorem length_unread {s : ByteArray} (h : WF s) : s.unread.length = s.getReadSize := by
  have hpos := h.position_le
  refine length_slice ?_
  rw [h.length_bytes]
  exact Nat.le_trans (by unfold getReadSize; omega) h.size_le

theorem next_unread {s : ByteArray} (h : WF s) : Next s s.unread := by
  have hpos := h.position_le
  rw [Next, length_unread h]
  exact ⟨rfl, by unfold getReadSize; omega⟩

theorem unread_advance (n : Nat) (s : ByteArray) : (s.advance n).unread = s.unread.drop n := by
  show slice s.bytes (s.position + n) (s.size - (s.position + n)) =
    (slice s.bytes s.position (s.size - s.position)).drop n
  unfold slice
  rw [List.drop_take, List.drop_drop, Nat.sub_sub]

/-- A varint that does not end throws at the end of the unread bytes. -/
theorem short_readVarintLoop {w rounds i : Nat} {result : BitVec w} {s : ByteArray} (h : WF s)
    (htruncated : TruncatedVarint rounds s) : Short (readVarintLoop w rounds i result s) := by
  induction rounds generalizing i result s with
  | zero => exact absurd htruncated.1 (Nat.not_lt_zero _)
  | succ rounds ih =>
    obtain ⟨hfew, hbytes⟩ := htruncated
    have hnext := next_unread h
    have hlen := length_unread h
    have hmore := unread_advance 1 s
    cases hunread : s.unread with
    | nil =>
      rw [hunread, List.length_nil] at hlen
      exact ⟨s, refuses_readVarintLoop w rounds i result s (by omega)⟩
    | cons x rest =>
      rw [hunread] at hnext hbytes hlen hmore
      have hfit := hnext.2
      rw [List.length_cons] at hlen hfit
      have hadvance : WF (s.advance 1) := advance_wf h (by omega)
      have hbig : ¬ (BitVec.ofNat 8 x.toNat).toNat < 0x80 := by
        have hx := hbytes x List.mem_cons_self
        have hlt := x.toNat_lt
        rw [BitVec.toNat_ofNat]
        omega
      have hstep : readVarintLoop w (rounds + 1) i result s = readVarintLoop w rounds (i + 7)
          (result ||| ((BitVec.ofNat 8 x.toNat &&& 0x7f).setWidth w <<< i)) (s.advance 1) := by
        rw [← List.singleton_append] at hnext
        refine (bind_ok (reads_readFuint8 x s h hnext.left)).trans ?_
        rw [if_neg hbig]
        rfl
      rw [hstep]
      refine ih hadvance ⟨?_, ?_⟩
      · rw [← length_unread hadvance, hmore, List.drop_one, List.tail_cons]
        omega
      · rw [hmore]
        exact fun b hb => hbytes b (List.mem_cons_of_mem _ hb)

theorem short_of_few {α : Type} {k : Nat} {m : Program ByteArray α} (hm : Refuses k m)
    {s : ByteArray} (h : s.getReadSize < k) : Short (m s) := ⟨s, hm s h⟩

theorem Format.short_readLength {format : Format} {s : ByteArray} (h : WF s)
    (htruncated : format.TruncatedLength s) : Short (format.readLength s) := by
  cases format with
  | f16 => exact short_of_few (refuses_fixed 2 ntohs) htruncated
  | f32 => exact short_of_few (refuses_fixed 4 ntohl) htruncated
  | f64 => exact short_of_few (refuses_fixed 8 ntohll) htruncated
  | vint => exact short_readVarintLoop h htruncated

/-- With an allocator that serves every length an incomplete value is not read. -/
theorem Compound.short {r : Compound} {s : ByteArray} (h : WF s) (hinc : r.Incomplete s) :
    Short (r.run (fun _ => none) s) := by
  cases r with
  | uint32 => exact short_bind (short_readVarintLoop h hinc)
  | uint64 => exact short_bind (short_readVarintLoop h hinc)
  | string format =>
    refine short_bind ?_
    rcases hinc with htruncated | ⟨len, t, hlen, hfew⟩
    · exact short_bind (format.short_readLength h htruncated)
    · have hread : Short (ByteArray.read len.toNat t) := ⟨t, read_throws hfew⟩
      rw [Format.readAllocating, Short, bind_ok hlen]
      exact hread

/-! ## Every reachable array -/

theorem failsCleanly_iff {s : ByteArray} (h : WF s) (r : Compound) :
    r.FailsCleanly s ↔ s.getReadSize < r.width := by
  constructor
  · intro hclean
    refine Nat.lt_of_not_le fun hfit => ?_
    have hleaves := r.advances (fun _ => none) s h hfit
    rw [hclean, Outcome.leaves_throw] at hleaves
    exact Nat.lt_irrefl _ hleaves.2
  · exact fun hfew alloc => r.refuses alloc s hfew

theorem Compound.width_pos (r : Compound) : 0 < r.width := by
  cases r with
  | uint32 | uint64 => exact Nat.one_pos
  | string format => cases format <;> decide

/-- In every reachable state an incomplete value makes its reader throw; it leaves the
array as it was, with nothing allocated, exactly where the first read already throws. -/
theorem truncated_reads_iff {base : Nat} {heap : Nat → UInt8} {s : ByteArray}
    (h : Reachable (machine base heap) s) (r : Compound) :
    (r.Incomplete s → Short (r.run (fun _ => none) s)) ∧
      ((r.Incomplete s → r.FailsCleanly s) ↔ (r.Incomplete s → s.getReadSize < r.width)) := by
  rcases reachable_cases h with hd | hwf
  · have hfew : s.getReadSize < r.width := by
      rw [hd.getReadSize]
      exact r.width_pos
    refine ⟨fun _ => short_of_few (r.refuses _) hfew, ?_⟩
    exact iff_of_true (fun _ alloc => r.refuses alloc s hfew) fun _ => hfew
  · exact ⟨Compound.short hwf, imp_congr_right fun _ => failsCleanly_iff hwf r⟩

/-- The first byte of a length of two. -/
def cutLength : ByteArray := ⟨4, 0, 4, 1, [⟨[5, 0, 0, 0], 4⟩], some 0, fun _ => 0⟩

theorem cutLength_reachable : Reachable (machine 4 fun _ => 0) cutLength := by
  have hwrite : Reachable (machine 4 fun _ => 0) { cutLength with position := 1 } :=
    Reachable.step (s := new 4 fun _ => 0) (l := .write [5]) (Reachable.init rfl) rfl
  exact hwrite.step (l := .setPosition 0) rfl

/-- It is left where it is. -/
theorem truncated_reads_iff_cutLength :
    cutLength.unread = [5] ∧ Compound.FailsCleanly (.string .f16) cutLength := by
  have hinc : Compound.Incomplete (.string .f16) cutLength :=
    Or.inl (show cutLength.getReadSize < 2 by decide)
  exact ⟨rfl, (truncated_reads_iff cutLength_reachable (.string .f16)).2.mpr
    (fun _ => by decide) hinc⟩

/-- The length 5 and one byte of the string. -/
def cutString : ByteArray := ⟨4, 0, 4, 3, [⟨[0, 5, 97, 0], 4⟩], some 0, fun _ => 0⟩

theorem cutString_reachable : Reachable (machine 4 fun _ => 0) cutString := by
  have hwrite : Reachable (machine 4 fun _ => 0) { cutString with position := 3 } :=
    Reachable.step (s := new 4 fun _ => 0) (l := .write [0, 5, 97]) (Reachable.init rfl) rfl
  exact hwrite.step (l := .setPosition 0) rfl

/-- The length is consumed by the read that throws, so that it is gone for the next try. -/
theorem length_consumed : ¬ ∀ (base : Nat) (heap : Nat → UInt8) (s : ByteArray) (r : Compound),
    Reachable (machine base heap) s → r.Incomplete s → r.FailsCleanly s := by
  intro hall
  have hinc : Compound.Incomplete (.string .f16) cutString :=
    Or.inr ⟨5, { cutString with position := 2 }, rfl, by decide⟩
  have hclean := hall 4 (fun _ => 0) cutString (.string .f16) cutString_reachable hinc
  have hrun := hclean fun _ => none
  injection hrun with _ hstate
  cases congrArg ByteArray.position hstate

end ByteArray
end TwServer
