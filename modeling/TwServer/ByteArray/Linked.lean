import TwServer.Lib.LinkedList
import TwServer.ByteArray.Model

/-! `tw::ByteArray` down to its pointers: `m_root`, `m_cur` and the links are addresses of nodes
that `new` and `delete` make and end. A node lives as long as the block its constructor allocates,
so the two are one cell. -/

namespace TwServer
open Programs Blocks LinkedLists

structure LinkedByteArray where
  baseSize : Nat
  position : Nat
  capacity : Nat
  size : Nat
  root : Ptr
  cur : Option Ptr
  memory : Memory (Cell Node)
  heap : Nat → UInt8

namespace LinkedByteArray

/-- `*p`, or what is wrong with it: `p` is null, or no live node is there. -/
def deref (s : LinkedByteArray) : Option Ptr → Except Fault (Cell Node)
  | none => .error .nullPointer
  | some p =>
    match s.memory.cells p with
    | none => .error .outOfBounds
    | some cell => .ok cell

/-- More nodes than were ever allocated are on no list that ends. -/
def rounds (s : LinkedByteArray) : Nat := s.memory.fresh + 1

def new (baseSize : Nat) (heap : Nat → UInt8) (memory : Memory (Cell Node)) : LinkedByteArray where
  baseSize := baseSize
  position := 0
  capacity := baseSize
  size := 0
  root := memory.fresh
  cur := some memory.fresh
  memory := memory.new ⟨Node.new heap baseSize, none⟩
  heap := fun i => heap (baseSize + i)

/-- `~ByteArray`: the memory it leaves. -/
def destroy (s : LinkedByteArray) : Option (Memory (Cell Node)) :=
  freeFrom s.rounds (some s.root) s.memory

def getReadSize (s : LinkedByteArray) : Nat := s.size - s.position
def getRemainCapacity (s : LinkedByteArray) : Nat := s.capacity - s.position

/-! ## Capacity -/

/-- `tmp->next = new Node(m_baseSize)`. -/
def addNode (tmp : Ptr) (s : LinkedByteArray) : LinkedByteArray :=
  { s with
    memory := (s.memory.new ⟨Node.new s.heap s.baseSize, none⟩).modify tmp
      fun cell => { cell with next := some s.memory.fresh }
    capacity := s.capacity + s.baseSize
    heap := fun i => s.heap (s.baseSize + i) }

/-- The loop of `addCapacity`, and the first node it added. -/
def addNodes : Nat → Ptr → Option Ptr → LinkedByteArray → Option Ptr × LinkedByteArray
  | 0, _, first, s => (first, s)
  | count + 1, tmp, first, s =>
    addNodes count s.memory.fresh (first.or (some s.memory.fresh)) (s.addNode tmp)

def addCapacity (moreSize : Nat) : Program LinkedByteArray Unit := fun s =>
  if moreSize = 0 then .ok () s
  else
    let oldCap := s.getRemainCapacity
    if oldCap ≥ moreSize then .ok () s
    else
      match lastFrom s.memory s.rounds s.root with
      | none => .fault .outOfBounds
      | some tmp =>
        let added := s.addNodes (ByteArray.addCount s.baseSize oldCap moreSize) tmp none
        .ok () (if oldCap = 0 then { added.2 with cur := added.1 } else added.2)

/-! ## Writing -/

/-- `memcpy(m_cur->ptr + npos, buf, size)`. -/
def store (npos : Nat) (buf : List UInt8) (s : LinkedByteArray) : LinkedByteArray :=
  match s.cur with
  | none => s
  | some p =>
    { s with memory := s.memory.modify p fun cell => { cell with val := cell.val.store npos buf } }

/-- `m_position += n`, then `m_size` follows if it was passed. -/
def pass (n : Nat) (s : LinkedByteArray) : LinkedByteArray :=
  let position := s.position + n
  { s with position := position, size := if position > s.size then position else s.size }

/-- The loop of `write`; each round starts with `ncap = m_cur->size - npos`. -/
def writeLoop : Nat → Nat → List UInt8 → Program LinkedByteArray Unit
  | 0, _, _, _ => .fault .outOfBounds
  | rounds + 1, npos, buf, s =>
    match s.deref s.cur with
    | .error why => .fault why
    | .ok node =>
      let ncap := node.val.size - npos
      if ncap ≥ buf.length then
        let s := s.store npos buf
        let s := if node.val.size = npos + buf.length then { s with cur := node.next } else s
        .ok () (s.pass buf.length)
      else
        let s := s.store npos (buf.take ncap)
        writeLoop rounds 0 (buf.drop ncap) ({ s with cur := node.next }.pass ncap)

def write (buf : List UInt8) : Program LinkedByteArray Unit := fun s =>
  if buf.length = 0 then .ok () s
  else if s.baseSize = 0 then .fault .divisionByZero
  else
    match s.addCapacity buf.length with
    | .ok () s => writeLoop s.rounds (s.position % s.baseSize) buf s
    | .throw what s => .throw what s
    | .fault why => .fault why

/-! ## Scatter buffers -/

/-- `iovec`: `len` bytes from `base` on in the node at `node`. -/
structure Iovec where
  node : Ptr
  base : Nat
  len : Nat

/-- The loop that fills `buffers` from `cur` on, with `ncap` bytes taken to be behind `npos` in
the first node. -/
def segmentLoop (s : LinkedByteArray) :
    Nat → Option Ptr → Nat → Nat → Nat → Except Fault (List Iovec)
  | 0, _, _, _, _ => .error .outOfBounds
  | rounds + 1, cur, npos, ncap, len =>
    match cur with
    | none => .error .nullPointer
    | some p =>
      match s.deref (some p) with
      | .error why => .error why
      | .ok node =>
        if ncap ≥ len then .ok [⟨p, npos, len⟩]
        else
          match s.deref node.next with
          | .error why => .error why
          | .ok next =>
            (segmentLoop s rounds node.next 0 next.val.size (len - ncap)).map (⟨p, npos, ncap⟩ :: ·)

/-- The buffers over `len` bytes from node `cur` on, `position` of them passed. Both callers take
the first `ncap` from `m_cur`. -/
def buffersFrom (s : LinkedByteArray) (cur : Option Ptr) (position len : Nat) :
    Except Fault (List Iovec) :=
  match s.deref s.cur with
  | .error why => .error why
  | .ok node =>
    let npos := position % s.baseSize
    s.segmentLoop s.rounds cur npos (node.val.size - npos) len

def getWriteBuffers (len : Nat) : Program LinkedByteArray (List Iovec) := fun s =>
  if len = 0 then .ok [] s
  else if s.baseSize = 0 then .fault .divisionByZero
  else
    match s.addCapacity len with
    | .ok () s =>
      match s.buffersFrom s.cur s.position len with
      | .error why => .fault why
      | .ok buffers => .ok buffers s
    | .throw what s => .throw what s
    | .fault why => .fault why

def getReadBuffers (len : Nat) : Program LinkedByteArray (Nat × List Iovec) := fun s =>
  let len := if len > s.getReadSize then s.getReadSize else len
  if len = 0 then .ok (0, []) s
  else if s.baseSize = 0 then .fault .divisionByZero
  else
    match s.buffersFrom s.cur s.position len with
    | .error why => .fault why
    | .ok buffers => .ok (len, buffers) s

/-- `count` times `cur = cur->next`. -/
def walk (s : LinkedByteArray) : Nat → Option Ptr → Except Fault (Option Ptr)
  | 0, cur => .ok cur
  | count + 1, cur =>
    match s.deref cur with
    | .error why => .error why
    | .ok node => walk s count node.next

/-- `getReadBuffers(buffers, len, position)`. -/
def getReadBuffersAt (len position : Nat) : Program LinkedByteArray (Nat × List Iovec) := fun s =>
  let len := if len > s.getReadSize then s.getReadSize else len
  if len = 0 then .ok (0, []) s
  else if s.baseSize = 0 then .fault .divisionByZero
  else
    match s.walk (position / s.baseSize) (some s.root) with
    | .error why => .fault why
    | .ok cur =>
      match s.buffersFrom cur position len with
      | .error why => .fault why
      | .ok buffers => .ok (len, buffers) s

/-! ## Reading, moving, clearing -/

def readLoop : Nat → Nat → Nat → Program LinkedByteArray (List UInt8)
  | 0, _, _, _ => .fault .outOfBounds
  | rounds + 1, npos, size, s =>
    match s.deref s.cur with
    | .error why => .fault why
    | .ok node =>
      let ncap := node.val.size - npos
      if ncap ≥ size then
        let s := if node.val.size = npos + size then { s with cur := node.next } else s
        .ok (slice node.val.ptr npos size) { s with position := s.position + size }
      else
        match readLoop rounds 0 (size - ncap)
            { s with cur := node.next, position := s.position + ncap } with
        | .ok bytes s => .ok (slice node.val.ptr npos ncap ++ bytes) s
        | .throw what s => .throw what s
        | .fault why => .fault why

/-- `m_cur->size` is read before the loop, also when `size` is 0. -/
def read (size : Nat) : Program LinkedByteArray (List UInt8) := fun s =>
  if size > s.getReadSize then .throw "ByteArray::read not enough len" s
  else if s.baseSize = 0 then .fault .divisionByZero
  else
    match s.deref s.cur with
    | .error why => .fault why
    | .ok _ => if size = 0 then .ok [] s else readLoop s.rounds (s.position % s.baseSize) size s

/-- The loop of the positional `read`: every round copies from `m_cur`'s node, while `cur` is
only moved. -/
def readAtLoop (s : LinkedByteArray) (node : Cell Node) :
    Nat → Option Ptr → Nat → Nat → Nat → Except Fault (List UInt8)
  | 0, _, _, _, _ => .error .nullPointer
  | rounds + 1, cur, npos, ncap, size =>
    if size = 0 then .ok []
    else if ncap ≥ size then
      if node.val.size = npos + size then
        match s.deref cur with
        | .error why => .error why
        | .ok _ => .ok (slice node.val.ptr npos size)
      else .ok (slice node.val.ptr npos size)
    else
      (readAtLoop s node rounds node.next 0 node.val.size (size - ncap)).map
        (slice node.val.ptr npos ncap ++ ·)

/-- `read(buf, size, position)`. -/
def readAt (size position : Nat) : Program LinkedByteArray (List UInt8) := fun s =>
  let left := if position ≤ s.size then s.size - position else 2 ^ 64 - (position - s.size)
  if size > left then .throw "ByteArray::read not enough len" s
  else if s.baseSize = 0 then .fault .divisionByZero
  else
    match s.deref s.cur with
    | .error why => .fault why
    | .ok node =>
      match s.walk (position / s.baseSize) (some s.root) with
      | .error why => .fault why
      | .ok cur =>
        let npos := position % s.baseSize
        match s.readAtLoop node (size + 1) cur npos (node.val.size - npos) size with
        | .error why => .fault why
        | .ok bytes => .ok bytes s

/-- The walk of `setPosition` from `cur` on. -/
def seekLoop (s : LinkedByteArray) : Nat → Option Ptr → Nat → Except Fault (Option Ptr)
  | 0, _, _ => .error .outOfBounds
  | rounds + 1, cur, v =>
    match s.deref cur with
    | .error why => .error why
    | .ok node =>
      if v > node.val.size then seekLoop s rounds node.next (v - node.val.size)
      else if v = node.val.size then .ok node.next
      else .ok cur

def setPosition (v : Nat) : Program LinkedByteArray Unit := fun s =>
  if v > s.capacity then .throw "set_positon out of range" s
  else
    match s.seekLoop s.rounds (some s.root) v with
    | .error why => .fault why
    | .ok cur => .ok () { s with position := v, size := if v > s.size then v else s.size, cur := cur }

def clear : Program LinkedByteArray Unit := fun s =>
  match s.deref (some s.root) with
  | .error why => .fault why
  | .ok node =>
    match freeFrom s.rounds node.next s.memory with
    | none => .fault .outOfBounds
    | some memory =>
      .ok () { s with
        position := 0
        size := 0
        capacity := s.baseSize
        cur := some s.root
        memory := memory.modify s.root fun cell => { cell with next := none } }

/-- The bytes a segment stands for. -/
def segment (s : LinkedByteArray) (v : Iovec) : List UInt8 :=
  match s.memory.cells v.node with
  | none => []
  | some node => slice node.val.ptr v.base v.len

end LinkedByteArray
end TwServer
