import TwServer.ByteArray.Writers

/-! What a `ByteArray` is for: one flat file of bytes with a cursor. The flat
file knows no nodes and no pointer; the chain refines it call by call. -/

namespace TwServer
open Programs Program Blocks Runs

/-- Bytes with a position and a size inside them. -/
structure FlatFile where
  storage : List UInt8
  position : Nat
  size : Nat
  position_le : position ≤ size
  size_le : size ≤ storage.length

/-- The calls that move data or the cursor. -/
inductive Call where
  | write (buf : List UInt8)
  | read (size : Nat)
  | setPosition (v : Nat)
  | clear
  | getWriteBuffers (len : Nat)

/-- What the caller of one of them sees. -/
inductive Reply where
  | done
  | bytes (buf : List UInt8)
  | buffers (bufs : List ByteArray.Iovec)
  | thrown (what : String)

namespace FlatFile

/-- The steps of a flat file that grows by blocks. Writing and `getWriteBuffers`
may first append bytes of unknown content, and append none where the storage
is long enough already. -/
inductive Step (base : Nat) : FlatFile → Call × Reply → FlatFile → Prop
  | write {f f' : FlatFile} {buf : List UInt8} (fresh : List UInt8)
      (fits : f.position + buf.length ≤ f.storage.length + fresh.length)
      (grow : f.position + buf.length ≤ f.storage.length → fresh = [])
      (storage : f'.storage = overwrite (f.storage ++ fresh) f.position buf)
      (position : f'.position = f.position + buf.length)
      (size : f'.size = max f.size (f.position + buf.length)) :
      Step base f (.write buf, .done) f'
  | read {f f' : FlatFile} {n : Nat} (fits : f.position + n ≤ f.size)
      (storage : f'.storage = f.storage) (position : f'.position = f.position + n)
      (size : f'.size = f.size) :
      Step base f (.read n, .bytes (slice f.storage f.position n)) f'
  | readThrows {f : FlatFile} {n : Nat} {what : String} (short : f.size < f.position + n) :
      Step base f (.read n, .thrown what) f
  | setPosition {f f' : FlatFile} {v : Nat} (inside : v ≤ f.storage.length)
      (storage : f'.storage = f.storage) (position : f'.position = v)
      (size : f'.size = max f.size v) : Step base f (.setPosition v, .done) f'
  | setPositionThrows {f : FlatFile} {v : Nat} {what : String} (outside : f.storage.length < v) :
      Step base f (.setPosition v, .thrown what) f
  | clear {f f' : FlatFile} (storage : f'.storage = f.storage.take base)
      (position : f'.position = 0) (size : f'.size = 0) : Step base f (.clear, .done) f'
  | getWriteBuffers {f f' : FlatFile} {n : Nat} {bufs : List ByteArray.Iovec} (fresh : List UInt8)
      (fits : f.position + n ≤ f.storage.length + fresh.length)
      (grow : f.position + n ≤ f.storage.length → fresh = [])
      (storage : f'.storage = f.storage ++ fresh) (position : f'.position = f.position)
      (size : f'.size = f.size) : Step base f (.getWriteBuffers n, .buffers bufs) f'

/-- The empty file over `base` bytes of storage. -/
def machine (base : Nat) : System FlatFile (Call × Reply) where
  init f := f.storage.length = base ∧ f.position = 0 ∧ f.size = 0
  step := Step base

end FlatFile

namespace ByteArray

/-! ## The calls on the chain -/

def Call.run : Call → Program ByteArray Reply
  | .write buf => do ByteArray.write buf; return .done
  | .read size => do return .bytes (← ByteArray.read size)
  | .setPosition v => do ByteArray.setPosition v; return .done
  | .clear => do ByteArray.clear; return .done
  | .getWriteBuffers len => do return .buffers (← ByteArray.getWriteBuffers len)

/-- The reply and the state of a call that completes; a throw is a reply. -/
def answer : Outcome ByteArray Reply → Option (Reply × ByteArray)
  | .ok r s => some (r, s)
  | .throw what s => some (.thrown what, s)
  | .fault _ => none

/-- A fresh `ByteArray(base)` and the calls on it that complete. -/
def calls (base : Nat) (heap : Nat → UInt8) : System ByteArray (Call × Reply) where
  init s := s = new base heap
  step s l s' := answer (Call.run l.1 s) = some (l.2, s')

/-- The call finds its room after `addCapacity`, or its bytes, or throws. -/
def Fits (s : ByteArray) : Call → Prop
  | .write buf => buf.length ≤ (s.addCapacity buf.length).getRemainCapacity
  | .read n => 1 ≤ n ∧ n ≤ s.getReadSize ∨ s.getReadSize < n
  | .setPosition _ | .clear => True
  | .getWriteBuffers n => n ≤ (s.addCapacity n).getRemainCapacity

/-- The flat file a chain stands for. -/
def flat (s : ByteArray) (h : WF s) : FlatFile where
  storage := s.bytes
  position := s.position
  size := s.size
  position_le := h.position_le
  size_le := by rw [h.length_bytes]; exact h.size_le

def Represents (base : Nat) (s : ByteArray) (f : FlatFile) : Prop :=
  ∃ h : WFAt base s, s.flat h.toWF = f

/-! ## One call -/

section Answer
variable {α : Type} {m : Program ByteArray α} {f : α → Reply} {s s' : ByteArray} {r : Reply}

theorem answer_ok {a : α} {t : ByteArray} (hm : m s = .ok a t)
    (hr : answer ((do return f (← m)) s) = some (r, s')) : f a = r ∧ t = s' := by
  rw [bind_ok hm, pure_apply, answer, Option.some_inj] at hr
  exact ⟨congrArg Prod.fst hr, congrArg Prod.snd hr⟩

theorem answer_throw {what : String} {t : ByteArray} (hm : m s = .throw what t)
    (hr : answer ((do return f (← m)) s) = some (r, s')) : .thrown what = r ∧ t = s' := by
  rw [bind_throw hm, answer, Option.some_inj] at hr
  exact ⟨congrArg Prod.fst hr, congrArg Prod.snd hr⟩

theorem answer_fault {why : Fault} (hm : m s = .fault why) :
    answer ((do return f (← m)) s) = none := by
  rw [bind_fault hm, answer]

end Answer

theorem fresh_nil {s : ByteArray} (h : WF s) {n : Nat} {fresh : List UInt8}
    (hbytes : (s.addCapacity n).bytes = s.bytes ++ fresh)
    (hfit : s.position + n ≤ s.bytes.length) : fresh = [] := by
  have he := addCapacity_extended h n
  have hlen := (addCapacity_wf h n).length_bytes
  have hcap := h.length_bytes
  rw [hbytes, List.length_append, he.capacity, addedNodes,
    if_pos (by unfold getRemainCapacity; omega)] at hlen
  exact List.length_eq_zero_iff.mp (by omega)

/-- Where `addCapacity` makes room, the appended bytes reach far enough. -/
theorem fresh_fits {s : ByteArray} (h : WF s) {n : Nat} {fresh : List UInt8}
    (hbytes : (s.addCapacity n).bytes = s.bytes ++ fresh)
    (hroom : Room s.baseSize s.getRemainCapacity n) :
    s.position + n ≤ s.bytes.length + fresh.length := by
  have hfit := (room_iff h.base_pos).mpr hroom
  have hlen := (addCapacity_wf h n).length_bytes
  have hle := Nat.le_trans h.position_le h.size_le
  rw [hbytes, List.length_append, (addCapacity_extended h n).capacity] at hlen
  unfold getRemainCapacity at *
  omega

section Step
variable {base : Nat} {s s' : ByteArray} {r : Reply}

theorem step_write {buf : List UInt8} (h : WFAt base s)
    (hr : answer (Call.run (.write buf) s) = some (r, s')) :
    ∃ h' : WFAt base s', FlatFile.Step base (s.flat h.toWF) (.write buf, r) (s'.flat h'.toWF) := by
  rcases Nat.eq_zero_or_pos buf.length with hbuf | hbuf
  · have hrun : ByteArray.write buf s = .ok () s := by rw [ByteArray.write, if_pos hbuf]
    obtain rfl := List.length_eq_zero_iff.mp hbuf
    obtain ⟨rfl, rfl⟩ := answer_ok (f := fun _ => .done) hrun hr
    refine ⟨h, FlatFile.Step.write [] ?_ (fun _ => rfl) ?_ rfl ?_⟩
    · exact Nat.le_trans h.position_le (s.flat h.toWF).size_le
    · simp [flat]
    · exact (Nat.max_eq_left h.position_le).symm
  · by_cases hroom : Room s.baseSize s.getRemainCapacity buf.length
    · obtain ⟨t, hrun, hw, hwf⟩ := write_ok h.toWF hbuf hroom
      have he := addCapacity_extended h.toWF buf.length
      obtain ⟨fresh, hfresh⟩ := he.bytes
      obtain ⟨rfl, rfl⟩ := answer_ok (f := fun _ => .done) hrun hr
      refine ⟨⟨hwf, ?_⟩, FlatFile.Step.write fresh (fresh_fits h.toWF hfresh hroom)
        (fresh_nil h.toWF hfresh) ?_ ?_ ?_⟩
      · rw [hw.baseSize, he.baseSize, h.base_eq]
      · show t.bytes = overwrite (s.bytes ++ fresh) s.position buf
        rw [hw.bytes, hfresh, he.position]
      · show t.position = s.position + buf.length
        rw [hw.position, he.position]
      · show t.size = max s.size (s.position + buf.length)
        rw [hw.size, he.size, he.position]
    · have hnone := answer_fault (f := fun _ => .done) (write_fault h.toWF hbuf hroom)
      exact absurd (hnone.symm.trans hr) (by simp)

theorem step_read {n : Nat} (h : WFAt base s)
    (hr : answer (Call.run (.read n) s) = some (r, s')) :
    ∃ h' : WFAt base s', FlatFile.Step base (s.flat h.toWF) (.read n, r) (s'.flat h'.toWF) := by
  have hpos := h.position_le
  by_cases hfit : n ≤ s.getReadSize
  · have hle : s.position + n ≤ s.size := by unfold getReadSize at hfit; omega
    rcases Nat.eq_zero_or_pos n with rfl | hn
    · have hrun := read_zero h.toWF
      split at hrun
      · exact absurd ((answer_fault (f := .bytes) hrun).symm.trans hr) (by simp)
      · obtain ⟨rfl, rfl⟩ := answer_ok (f := .bytes) hrun hr
        have hstep : FlatFile.Step base (s.flat h.toWF)
            (.read 0, .bytes (slice s.bytes s.position 0)) (s.flat h.toWF) :=
          FlatFile.Step.read hle rfl rfl rfl
        rw [slice_zero] at hstep
        exact ⟨h, hstep⟩
    · obtain ⟨rfl, rfl⟩ := answer_ok (f := .bytes) (read_ok h.toWF hn hfit) hr
      exact ⟨⟨⟨h.base_pos, h.nodes_pos, h.uniform, h.capacity, hle, h.size_le, rfl⟩, h.base_eq⟩,
        FlatFile.Step.read hle rfl rfl rfl⟩
  · obtain ⟨rfl, rfl⟩ := answer_throw (f := .bytes) (read_throws (by omega)) hr
    refine ⟨h, FlatFile.Step.readThrows ?_⟩
    show s.size < s.position + n
    unfold getReadSize at hfit
    omega

theorem step_setPosition {v : Nat} (h : WFAt base s)
    (hr : answer (Call.run (.setPosition v) s) = some (r, s')) :
    ∃ h' : WFAt base s',
      FlatFile.Step base (s.flat h.toWF) (.setPosition v, r) (s'.flat h'.toWF) := by
  have hlen := h.length_bytes
  by_cases hv : v ≤ s.capacity
  · obtain ⟨rfl, rfl⟩ := answer_ok (f := fun _ => .done) (setPosition_ok h.toWF hv) hr
    refine ⟨⟨⟨h.base_pos, h.nodes_pos, h.uniform, h.capacity, Nat.le_max_right _ _,
      Nat.max_le.mpr ⟨h.size_le, hv⟩, rfl⟩, h.base_eq⟩, FlatFile.Step.setPosition ?_ rfl rfl rfl⟩
    exact hlen ▸ hv
  · obtain ⟨rfl, rfl⟩ := answer_throw (f := fun _ => .done) (setPosition_throws (by omega)) hr
    refine ⟨h, FlatFile.Step.setPositionThrows ?_⟩
    show s.bytes.length < v
    omega

theorem step_clear (h : WFAt base s) (hr : answer (Call.run .clear s) = some (r, s')) :
    ∃ h' : WFAt base s', FlatFile.Step base (s.flat h.toWF) (.clear, r) (s'.flat h'.toWF) := by
  obtain ⟨t, hrun, hwf, hpos, hsize, -, hbase, hbytes⟩ := clear_ok h.toWF
  obtain ⟨rfl, rfl⟩ := answer_ok (f := fun _ => .done) hrun hr
  refine ⟨⟨hwf, by rw [hbase, h.base_eq]⟩, FlatFile.Step.clear ?_ hpos hsize⟩
  show t.bytes = s.bytes.take base
  rw [hbytes, h.base_eq]

theorem step_getWriteBuffers {n : Nat} (h : WFAt base s)
    (hr : answer (Call.run (.getWriteBuffers n) s) = some (r, s')) :
    ∃ h' : WFAt base s',
      FlatFile.Step base (s.flat h.toWF) (.getWriteBuffers n, r) (s'.flat h'.toWF) := by
  rcases Nat.eq_zero_or_pos n with rfl | hn
  · have hrun : ByteArray.getWriteBuffers 0 s = .ok [] s := rfl
    obtain ⟨rfl, rfl⟩ := answer_ok (f := .buffers) hrun hr
    refine ⟨h, FlatFile.Step.getWriteBuffers [] ?_ (fun _ => rfl) ?_ rfl rfl⟩
    · exact Nat.le_trans h.position_le (s.flat h.toWF).size_le
    · exact (List.append_nil _).symm
  · have he := addCapacity_extended h.toWF n
    rcases getWriteBuffers_cases h.toWF hn with ⟨hroom, bufs, hrun⟩ | ⟨-, hrun⟩
    · obtain ⟨fresh, hfresh⟩ := he.bytes
      obtain ⟨rfl, rfl⟩ := answer_ok (f := .buffers) hrun hr
      exact ⟨⟨addCapacity_wf h.toWF n, by rw [he.baseSize, h.base_eq]⟩,
        FlatFile.Step.getWriteBuffers fresh (fresh_fits h.toWF hfresh hroom)
          (fresh_nil h.toWF hfresh) hfresh he.position he.size⟩
    · exact absurd ((answer_fault (f := .buffers) hrun).symm.trans hr) (by simp)

end Step

/-! ## Whole runs -/

theorem calls_simulation {base : Nat} (hb : 0 < base) (heap : Nat → UInt8) :
    Simulation (calls base heap) (FlatFile.machine base) (Represents base) where
  init := by
    rintro s rfl
    have h := new_wf hb heap
    refine ⟨_, ⟨?_, rfl, rfl⟩, h, rfl⟩
    exact h.length_bytes
  step := by
    rintro s ⟨c, r⟩ s' f ⟨h, rfl⟩ hr
    suffices hs : ∃ h' : WFAt base s', FlatFile.Step base (s.flat h.toWF) (c, r) (s'.flat h'.toWF) by
      obtain ⟨h', hstep⟩ := hs
      exact ⟨_, hstep, h', rfl⟩
    cases c with
    | write buf => exact step_write h hr
    | read n => exact step_read h hr
    | setPosition v => exact step_setPosition h hr
    | clear => exact step_clear h hr
    | getWriteBuffers n => exact step_getWriteBuffers h hr

/-- A call that fits completes. -/
theorem answers_of_fits {base : Nat} {s : ByteArray} (h : WFAt base s) {c : Call}
    (hfit : Fits s c) : ∃ r s', answer (Call.run c s) = some (r, s') := by
  cases c with
  | write buf =>
    rcases Nat.eq_zero_or_pos buf.length with hbuf | hbuf
    · have hrun : ByteArray.write buf s = .ok () s := by rw [ByteArray.write, if_pos hbuf]
      exact ⟨_, _, by rw [Call.run, bind_ok hrun]; rfl⟩
    · have hroom : buf.length ≤ (s.addCapacity buf.length).getRemainCapacity := hfit
      rw [remain_addCapacity h.toWF, room_iff h.base_pos] at hroom
      obtain ⟨t, hrun, -⟩ := write_ok h.toWF hbuf hroom
      exact ⟨_, _, by rw [Call.run, bind_ok hrun]; rfl⟩
  | read n =>
    rcases hfit with ⟨hn, hle⟩ | hshort
    · exact ⟨_, _, by rw [Call.run, bind_ok (read_ok h.toWF hn hle)]; rfl⟩
    · exact ⟨_, _, by rw [Call.run, bind_throw (read_throws hshort)]; rfl⟩
  | setPosition v =>
    rcases Nat.lt_or_ge s.capacity v with hv | hv
    · exact ⟨_, _, by rw [Call.run, bind_throw (setPosition_throws hv)]; rfl⟩
    · exact ⟨_, _, by rw [Call.run, bind_ok (setPosition_ok h.toWF hv)]; rfl⟩
  | clear =>
    obtain ⟨t, hrun, -⟩ := clear_ok h.toWF
    exact ⟨_, _, by rw [Call.run, bind_ok hrun]; rfl⟩
  | getWriteBuffers n =>
    rcases Nat.eq_zero_or_pos n with rfl | hn
    · exact ⟨_, _, rfl⟩
    · have hroom : n ≤ (s.addCapacity n).getRemainCapacity := hfit
      rw [remain_addCapacity h.toWF, room_iff h.base_pos] at hroom
      rcases getWriteBuffers_cases h.toWF hn with ⟨-, bufs, hrun⟩ | ⟨hno, -⟩
      · exact ⟨_, _, by rw [Call.run, bind_ok hrun]; rfl⟩
      · exact absurd hroom hno

/-- Only `read` and `setPosition` throw, both before they touch anything. -/
theorem thrown_unchanged {base : Nat} {s s' : ByteArray} (h : WFAt base s) {c : Call}
    {what : String} (hr : answer (Call.run c s) = some (.thrown what, s')) : s' = s := by
  cases c with
  | write buf =>
    obtain ⟨_, hstep⟩ := step_write h hr
    cases hstep
  | read n =>
    by_cases hfit : n ≤ s.getReadSize
    · rcases Nat.eq_zero_or_pos n with rfl | hn
      · have hrun := read_zero h.toWF
        split at hrun
        · exact absurd ((answer_fault (f := .bytes) hrun).symm.trans hr) (by simp)
        · exact absurd (answer_ok (f := .bytes) hrun hr).1 (by simp)
      · exact absurd (answer_ok (f := .bytes) (read_ok h.toWF hn hfit) hr).1 (by simp)
    · exact (answer_throw (f := .bytes) (read_throws (by omega)) hr).2.symm
  | setPosition v =>
    by_cases hv : v ≤ s.capacity
    · exact absurd (answer_ok (f := fun _ => .done) (setPosition_ok h.toWF hv) hr).1 (by simp)
    · exact (answer_throw (f := fun _ => .done) (setPosition_throws (by omega)) hr).2.symm
  | clear =>
    obtain ⟨_, hstep⟩ := step_clear h hr
    cases hstep
  | getWriteBuffers n =>
    obtain ⟨_, hstep⟩ := step_getWriteBuffers h hr
    cases hstep

/-- After every run of completing calls on a fresh array, the chain is in shape
and stands for the flat file that answered the same calls with the same
replies; a call that throws leaves the chain as it was, and every call that
fits can be made next. -/
theorem calls_refine_flatFile {base : Nat} {heap : Nat → UInt8} (hb : 1 ≤ base)
    {ls : List (Call × Reply)} {s : ByteArray} (h : Run (calls base heap) (new base heap) ls s) :
    s.capacity = base * s.nodes.length ∧ s.position ≤ s.size ∧ s.size ≤ s.capacity ∧
      s.cur = (if s.position = s.capacity then none else some (s.position / base)) ∧
      (∃ f₀ f, (FlatFile.machine base).init f₀ ∧ Represents base (new base heap) f₀ ∧
        Run (FlatFile.machine base) f₀ ls f ∧ Represents base s f) ∧
      (∀ c what s', (calls base heap).step s (c, .thrown what) s' → s' = s) ∧
      ∀ c, Fits s c → ∃ r s', (calls base heap).step s (c, r) s' := by
  have hsim := calls_simulation hb heap
  obtain ⟨f₀, hinit, hf₀⟩ := hsim.init _ rfl
  obtain ⟨f, hrun, hwf, hf⟩ := hsim.run h hf₀
  have hcur : s.cur = if s.position = s.capacity then none else some (s.position / base) := by
    rw [hwf.cur, cursorAt, ← hwf.capacity, hwf.base_eq]
  have hcap : s.capacity = base * s.nodes.length := by rw [← hwf.base_eq, hwf.capacity]
  refine ⟨hcap, hwf.position_le, hwf.size_le, hcur, ⟨f₀, f, hinit, hf₀, hrun, hwf, hf⟩, ?_, ?_⟩
  · intro c what s' hstep
    exact thrown_unchanged hwf hstep
  · intro c hfit
    exact answers_of_fits hwf hfit

/-- Eight bytes fill a fresh array of base 4 and a second node to its end. -/
theorem calls_refine_flatFile_base4 : ∃ s,
    Run (calls 4 fun _ => 0) (new 4 fun _ => 0) [(.write (List.replicate 8 1), .done)] s ∧
      s.cur = (if s.position = s.capacity then none else some (s.position / 4)) := by
  have hstep : (calls 4 fun _ => 0).step (new 4 fun _ => 0)
      (.write (List.replicate 8 1), .done) _ := rfl
  have hrun := Run.next hstep (Run.refl _)
  exact ⟨_, hrun, (calls_refine_flatFile (by decide) hrun).2.2.2.1⟩

end ByteArray
end TwServer
