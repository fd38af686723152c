import TwServer.ByteArray.Ownership

/-! The life of a `ByteArray`: constructed, used by any calls, destructed. The pointers answer
every call as the chain does, so no call reaches a node that is not live, and the destructor
deletes every node once. -/

namespace TwServer
open Programs Program LinkedLists

namespace ByteArray

/-- The calls that reach the nodes. -/
inductive Request where
  | write (buf : List UInt8)
  | read (size : Nat)
  | setPosition (v : Nat)
  | clear
  | getWriteBuffers (len : Nat)
  | getReadBuffers (len : Nat)
  | readAt (size position : Nat)
  | getReadBuffersAt (len position : Nat)

/-- What a caller sees; of scatter buffers the bytes they cover. -/
inductive Answer where
  | done
  | bytes (buf : List UInt8)
  | segments (segments : List (List UInt8))
  | unread (len : Nat) (segments : List (List UInt8))
  | thrown (what : String)
  deriving DecidableEq, Repr

def request : Request → Program ByteArray Answer
  | .write buf => fun s => (s.write buf).resolve fun _ _ => .done
  | .read size => fun s => (s.read size).resolve fun _ => .bytes
  | .setPosition v => fun s => (s.setPosition v).resolve fun _ _ => .done
  | .clear => fun s => s.clear.resolve fun _ _ => .done
  | .getWriteBuffers len => fun s =>
    (s.getWriteBuffers len).resolve fun s bufs => .segments (bufs.map s.segment)
  | .getReadBuffers len => fun s =>
    (s.getReadBuffers len).resolve fun s r => .unread r.1 (r.2.map s.segment)
  | .readAt size position => fun s => (s.readAt size position).resolve fun _ => .bytes
  | .getReadBuffersAt len position => fun s =>
    (s.getReadBuffersAt len position).resolve fun s r => .unread r.1 (r.2.map s.segment)

end ByteArray

namespace LinkedByteArray
open TwServer.ByteArray (Request Answer)

def request : Request → Program LinkedByteArray Answer
  | .write buf => fun s => (s.write buf).resolve fun _ _ => .done
  | .read size => fun s => (s.read size).resolve fun _ => .bytes
  | .setPosition v => fun s => (s.setPosition v).resolve fun _ _ => .done
  | .clear => fun s => s.clear.resolve fun _ _ => .done
  | .getWriteBuffers len => fun s =>
    (s.getWriteBuffers len).resolve fun s bufs => .segments (bufs.map s.segment)
  | .getReadBuffers len => fun s =>
    (s.getReadBuffers len).resolve fun s r => .unread r.1 (r.2.map s.segment)
  | .readAt size position => fun s => (s.readAt size position).resolve fun _ => .bytes
  | .getReadBuffersAt len position => fun s =>
    (s.getReadBuffersAt len position).resolve fun s r => .unread r.1 (r.2.map s.segment)

variable {others : Ptr → Option (Cell Node)} {p : LinkedByteArray} {s : ByteArray}

theorem stores_new (base : Nat) (heap : Nat → UInt8) (memory : Memory (Cell Node)) :
    Stores memory.cells (new base heap memory) (ByteArray.new base heap) :=
  ⟨[memory.fresh], 0, rfl, rfl, rfl, rfl, rfl, Chain.single memory _, rfl, rfl, Nat.zero_le _, rfl⟩

theorem Stores.destroy (h : Stores others p s) :
    ∃ freed, p.destroy = some freed ∧ freed.cells = others := by
  obtain ⟨addrs, k, h⟩ := h
  have hfree := h.chain.free h.rounds_gt
  rwa [h.root] at hfree

theorem Stores.request (h : Stores others p s) (r : Request) :
    (LinkedByteArray.request r p).Agrees (Stores others) (ByteArray.request r s) := by
  cases r with
  | write buf => exact (h.write buf).resolve _
  | read size => exact (h.read size).resolve _
  | setPosition v => exact (h.setPosition v).resolve _
  | clear => exact h.clear.resolve _
  | getWriteBuffers len => exact h.getWriteBuffers len _
  | getReadBuffers len => exact h.getReadBuffers len _
  | readAt size position => exact (h.readAt size position).resolve _
  | getReadBuffersAt len position => exact h.getReadBuffersAt len position _

end LinkedByteArray

namespace ByteArray

/-! ## The faults of the chain -/

/-- What can go wrong on a chain, where every node is live. -/
def Benign (why : Fault) : Prop := why = .nullPointer ∨ why = .divisionByZero

def Within {σ α : Type} (o : Outcome σ α) : Prop := ∀ why, o = .fault why → Benign why

section
variable {σ α β : Type}

@[simp] theorem within_ok (a : α) (s : σ) : Within (.ok a s) := fun _ h => by cases h
@[simp] theorem within_throw (what : String) (s : σ) : Within (.throw what s : Outcome σ α) :=
  fun _ h => by cases h
@[simp] theorem within_null : Within (.fault .nullPointer : Outcome σ α) :=
  fun _ h => .inl (Outcome.fault.inj h).symm
@[simp] theorem within_zero : Within (.fault .divisionByZero : Outcome σ α) :=
  fun _ h => .inr (Outcome.fault.inj h).symm

theorem Within.resolve {o : Outcome σ α} (h : Within o) (f : σ → α → β) : Within (o.resolve f) := by
  cases o with
  | ok a s => exact within_ok _ _
  | throw what s => exact within_throw what s
  | fault why => exact fun _ hw => h _ (congrArg _ (Outcome.fault.inj hw))

end

theorem within_writeLoop (nodes : List Node) (npos : Nat) (buf : List UInt8) (s : ByteArray) :
    Within (writeLoop nodes npos buf s) := by
  induction nodes generalizing npos buf s with
  | nil => exact within_null
  | cons node nodes ih =>
    rw [writeLoop]
    split
    · exact within_ok _ _
    · exact ih _ _ _

theorem within_readLoop (nodes : List Node) (npos n : Nat) (s : ByteArray) :
    Within (readLoop nodes npos n s) := by
  induction nodes generalizing npos n s with
  | nil => exact within_null
  | cons node nodes ih =>
    rw [readLoop]
    split
    · exact within_ok _ _
    · have hrest := ih 0 (n - (node.size - npos))
        { s with cur := s.next, position := s.position + (node.size - npos) }
      revert hrest
      cases readLoop nodes 0 _ _ with
      | ok bytes t => exact fun _ => within_ok _ _
      | throw what t => exact fun _ => within_throw _ _
      | fault why => exact fun hrest _ hw => hrest _ hw

theorem within_request (r : Request) (s : ByteArray) : Within (request r s) := by
  cases r with
  | write buf =>
    refine Within.resolve ?_ _
    unfold write
    split
    · exact within_ok _ _
    · split
      · exact within_zero
      · exact within_writeLoop _ _ _ _
  | read size =>
    refine Within.resolve ?_ _
    unfold read
    split
    · exact within_throw _ _
    · split
      · exact within_zero
      · split
        · exact within_null
        · split
          · exact within_ok _ _
          · exact within_readLoop _ _ _ _
  | clear => exact within_ok _ _
  | setPosition v =>
    refine Within.resolve ?_ _
    unfold setPosition
    repeat' split
    all_goals simp
  | getWriteBuffers len =>
    refine Within.resolve ?_ _
    unfold getWriteBuffers
    dsimp only
    repeat' split
    all_goals simp
  | getReadBuffers len =>
    refine Within.resolve ?_ _
    unfold getReadBuffers
    dsimp only
    generalize (if len > s.getReadSize then s.getReadSize else len) = len
    repeat' split
    all_goals simp
  | readAt size position =>
    refine Within.resolve ?_ _
    unfold readAt
    dsimp only
    repeat' split
    all_goals simp
  | getReadBuffersAt len position =>
    refine Within.resolve ?_ _
    unfold getReadBuffersAt
    dsimp only
    generalize (if len > s.getReadSize then s.getReadSize else len) = len
    repeat' split
    all_goals simp

end ByteArray

namespace LinkedByteArray
open TwServer.ByteArray (Request Answer)

/-- A `ByteArray` made in any memory answers any calls as the chain does: it stops only where the
chain does, at a null pointer or a zero base, never at a node that is not live. Its destructor
then leaves that memory as it was. -/
theorem nodes_freed (base : Nat) (heap : Nat → UInt8) (memory : Memory (Cell Node))
    (requests : List Request) :
    match replies ByteArray.request .thrown requests (ByteArray.new base heap) with
    | .ok answers s =>
      ∃ p freed, replies request .thrown requests (new base heap memory) = .ok answers p ∧
        Stores memory.cells p s ∧ p.destroy = some freed ∧ freed.cells = memory.cells
    | .throw _ _ => False
    | .fault why => replies request .thrown requests (new base heap memory) = .fault why ∧
        (why = .nullPointer ∨ why = .divisionByZero) := by
  have hagrees : (replies request Answer.thrown requests (new base heap memory)).Agrees
      (Stores memory.cells)
      (replies ByteArray.request Answer.thrown requests (ByteArray.new base heap)) :=
    agrees_replies (fun r _ _ h => Stores.request h r) requests (stores_new base heap memory)
  cases hchain : replies ByteArray.request .thrown requests (ByteArray.new base heap) with
  | throw what s => exact replies_throw requests hchain
  | fault why =>
    cases hrun : replies request .thrown requests (new base heap memory) with
    | fault why' =>
      rw [hrun, hchain] at hagrees
      exact ⟨congrArg _ hagrees, replies_fault ByteArray.within_request requests hchain⟩
    | _ => simp [hrun, hchain, Outcome.Agrees] at hagrees
  | ok answers s =>
    cases hrun : replies request .thrown requests (new base heap memory) with
    | ok answers' p =>
      rw [hrun, hchain] at hagrees
      obtain ⟨rfl, hstores⟩ := hagrees
      obtain ⟨freed, hdestroy, hcells⟩ := hstores.destroy
      exact ⟨p, freed, rfl, hstores, hdestroy, hcells⟩
    | _ => simp [hrun, hchain, Outcome.Agrees] at hagrees

end LinkedByteArray
end TwServer
