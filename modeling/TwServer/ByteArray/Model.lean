import Mathlib.Algebra.Group.Int.Defs
import Mathlib.Algebra.Group.Nat.Defs
import TwServer.Lib.Program
import TwServer.Lib.Blocks

/-! `tw::ByteArray`: a chain of nodes of `m_baseSize` bytes behind a cursor.
`m_cur` is the number of the node it points to, `none` the null pointer;
following `next` past the last node gives null. `heap` is what the allocator
hands out next, so a new node holds whatever its memory held before. Sizes are
`Nat`: every chain fits the address space. -/

namespace TwServer
open Programs Blocks

/-- `ByteArray::Node`; `next` is the following element of the chain. -/
structure Node where
  ptr : List UInt8
  size : Nat
  deriving DecidableEq, Repr

structure ByteArray where
  baseSize : Nat
  position : Nat
  capacity : Nat
  size : Nat
  nodes : List Node
  cur : Option Nat
  heap : Nat → UInt8

def Node.new (heap : Nat → UInt8) (s : Nat) : Node := ⟨(List.range s).map heap, s⟩

/-- `memcpy` into a node, `off` bytes from its start. -/
def Node.store (n : Node) (off : Nat) (buf : List UInt8) : Node :=
  { n with ptr := overwrite n.ptr off buf }

namespace ByteArray

def new (baseSize : Nat) (heap : Nat → UInt8) : ByteArray where
  baseSize := baseSize
  position := 0
  capacity := baseSize
  size := 0
  nodes := [Node.new heap baseSize]
  cur := some 0
  heap := fun i => heap (baseSize + i)

def getReadSize (s : ByteArray) : Nat := s.size - s.position
def getRemainCapacity (s : ByteArray) : Nat := s.capacity - s.position

/-- The nodes from `m_cur` on; none when `m_cur` is null. -/
def chain (s : ByteArray) : List Node :=
  match s.cur with
  | none => []
  | some k => s.nodes.drop k

/-- `m_nodes[k]->next`. -/
def nextOf (s : ByteArray) (k : Nat) : Option Nat :=
  if k + 1 < s.nodes.length then some (k + 1) else none

/-- `m_cur->next`. -/
def next (s : ByteArray) : Option Nat := s.cur.bind s.nextOf

/-! ## Capacity -/

/-- `tmp->next = new Node(m_baseSize)`, with `tmp` the last node. -/
def addNode (s : ByteArray) : ByteArray :=
  { s with
    nodes := s.nodes ++ [Node.new s.heap s.baseSize]
    capacity := s.capacity + s.baseSize
    heap := fun i => s.heap (s.baseSize + i) }

def addNodes : Nat → ByteArray → ByteArray
  | 0, s => s
  | count + 1, s => addNodes count s.addNode

/-- `addCapacity`'s number of new nodes. -/
def addCount (baseSize oldCap moreSize : Nat) : Nat :=
  let size := moreSize - oldCap
  size / baseSize + if size % baseSize > oldCap then 1 else 0

def addCapacity (moreSize : Nat) (s : ByteArray) : ByteArray :=
  if moreSize = 0 then s
  else
    let oldCap := s.getRemainCapacity
    if oldCap ≥ moreSize then s
    else
      let count := addCount s.baseSize oldCap moreSize
      let first := if count = 0 then none else some s.nodes.length
      let s' := s.addNodes count
      if oldCap = 0 then { s' with cur := first } else s'

/-! ## Writing -/

/-- `memcpy(m_cur->ptr + npos, buf, size)`. -/
def store (npos : Nat) (buf : List UInt8) (s : ByteArray) : ByteArray :=
  match s.cur with
  | none => s
  | some k => { s with nodes := s.nodes.modify k (·.store npos buf) }

/-- `m_position += n`, then `m_size` follows if it was passed. -/
def pass (n : Nat) (s : ByteArray) : ByteArray :=
  let position := s.position + n
  { s with position := position, size := if position > s.size then position else s.size }

/-- The loop of `write`. It runs down the nodes from `m_cur` on; with bytes
left and no node, the next thing the source does is dereference null. -/
def writeLoop : List Node → Nat → List UInt8 → Program ByteArray Unit
  | [], _, _, _ => .fault .nullPointer
  | node :: rest, npos, buf, s =>
    let ncap := node.size - npos
    if ncap ≥ buf.length then
      let s := s.store npos buf
      let s := if node.size = npos + buf.length then { s with cur := s.next } else s
      .ok () (s.pass buf.length)
    else
      let s := s.store npos (buf.take ncap)
      writeLoop rest 0 (buf.drop ncap) ({ s with cur := s.next }.pass ncap)

/-- `addCapacity` and `npos` divide by `m_baseSize`. -/
def write (buf : List UInt8) : Program ByteArray Unit := fun s =>
  if buf.length = 0 then .ok () s
  else if s.baseSize = 0 then .fault .divisionByZero
  else
    let s := s.addCapacity buf.length
    writeLoop s.chain (s.position % s.baseSize) buf s

/-! ## Scatter buffers -/

/-- `iovec`: `len` bytes of node `node`, from offset `base` on. -/
structure Iovec where
  node : Nat
  base : Nat
  len : Nat
  deriving DecidableEq, Repr

/-- The loop over the chain from node `k` on that fills `buffers`. -/
def iovLoop : List Node → Nat → Nat → Nat → Option (List Iovec)
  | [], _, _, _ => none
  | node :: rest, k, npos, len =>
    let ncap := node.size - npos
    if ncap ≥ len then some [⟨k, npos, len⟩]
    else (iovLoop rest (k + 1) 0 (len - ncap)).map (⟨k, npos, ncap⟩ :: ·)

def getWriteBuffers (len : Nat) : Program ByteArray (List Iovec) := fun s =>
  if len = 0 then .ok [] s
  else if s.baseSize = 0 then .fault .divisionByZero
  else
    let s := s.addCapacity len
    match s.cur with
    | none => .fault .nullPointer
    | some k =>
      match iovLoop s.chain k (s.position % s.baseSize) len with
      | none => .fault .nullPointer
      | some buffers => .ok buffers s

/-- `getReadBuffers(buffers, len)`: the number of bytes, and the segments. -/
def getReadBuffers (len : Nat) : Program ByteArray (Nat × List Iovec) := fun s =>
  let len := if len > s.getReadSize then s.getReadSize else len
  if len = 0 then .ok (0, []) s
  else if s.baseSize = 0 then .fault .divisionByZero
  else
    match s.cur with
    | none => .fault .nullPointer
    | some k =>
      match iovLoop s.chain k (s.position % s.baseSize) len with
      | none => .fault .nullPointer
      | some buffers => .ok (len, buffers) s

/-! ## Reading, moving, clearing -/

def readLoop : List Node → Nat → Nat → Program ByteArray (List UInt8)
  | [], _, _, _ => .fault .nullPointer
  | node :: rest, npos, size, s =>
    let ncap := node.size - npos
    if ncap ≥ size then
      let s := if node.size = npos + size then { s with cur := s.next } else s
      .ok (slice node.ptr npos size) { s with position := s.position + size }
    else
      match readLoop rest 0 (size - ncap) { s with cur := s.next, position := s.position + ncap } with
      | .ok bytes s => .ok (slice node.ptr npos ncap ++ bytes) s
      | .throw what s => .throw what s
      | .fault why => .fault why

/-- `m_cur->size` is read before the loop, also when `size` is 0. -/
def read (size : Nat) : Program ByteArray (List UInt8) := fun s =>
  if size > s.getReadSize then .throw "ByteArray::read not enough len" s
  else if s.baseSize = 0 then .fault .divisionByZero
  else
    match s.chain with
    | [] => .fault .nullPointer
    | node :: rest =>
      if size = 0 then .ok [] s else readLoop (node :: rest) (s.position % s.baseSize) size s

/-- The walk of `setPosition` from node `k` on; `none` where it meets null. -/
def seekLoop (s : ByteArray) : List Node → Nat → Nat → Option (Option Nat)
  | [], _, _ => none
  | node :: rest, k, v =>
    if v > node.size then seekLoop s rest (k + 1) (v - node.size)
    else if v = node.size then some (s.nextOf k)
    else some (some k)

def setPosition (v : Nat) : Program ByteArray Unit := fun s =>
  if v > s.capacity then .throw "set_positon out of range" s
  else
    match seekLoop s s.nodes 0 v with
    | none => .fault .nullPointer
    | some cur => .ok () { s with position := v, size := if v > s.size then v else s.size, cur := cur }

def clear : Program ByteArray Unit := fun s =>
  .ok () { s with
    position := 0
    size := 0
    capacity := s.baseSize
    nodes := s.nodes.take 1
    cur := some 0 }

/-! ## Access that leaves the cursor alone -/

/-- `m_size - position`, in `size_t`. -/
def sizeFrom (s : ByteArray) (position : Nat) : Nat :=
  if position ≤ s.size then s.size - position else 2 ^ 64 - (position - s.size)

/-- `count` times `cur = cur->next`; `none` where that dereferences null. -/
def walk (s : ByteArray) : Nat → Option Nat → Option (Option Nat)
  | 0, cur => some cur
  | _ + 1, none => none
  | count + 1, some k => walk s count (s.nextOf k)

/-- The loop of the positional `read`. `node` is the one `m_cur` points to: every
round copies from it, while `cur` is only moved. -/
def readAtLoop (s : ByteArray) (node : Node) :
    Nat → Option Nat → Nat → Nat → Nat → Option (List UInt8)
  | 0, _, _, _, _ => none
  | rounds + 1, cur, npos, ncap, size =>
    if size = 0 then some []
    else if ncap ≥ size then
      -- `cur = cur->next` at the end of the node
      if node.size = npos + size ∧ cur = none then none else some (slice node.ptr npos size)
    else
      (readAtLoop s node rounds s.next 0 node.size (size - ncap)).map
        (slice node.ptr npos ncap ++ ·)

/-- `read(buf, size, position)`. Each round copies a byte at least, so there are
no more rounds than bytes. -/
def readAt (size position : Nat) : Program ByteArray (List UInt8) := fun s =>
  if size > s.sizeFrom position then .throw "ByteArray::read not enough len" s
  else if s.baseSize = 0 then .fault .divisionByZero
  else
    match s.chain, s.walk (position / s.baseSize) (some 0) with
    | node :: _, some cur =>
      let npos := position % s.baseSize
      match readAtLoop s node (size + 1) cur npos (node.size - npos) size with
      | none => .fault .nullPointer
      | some bytes => .ok bytes s
    | _, _ => .fault .nullPointer

/-- The loop that fills `buffers` from `cur` on, with `ncap` bytes of the first
node taken to be behind `npos`. -/
def segmentLoop : List Node → Nat → Nat → Nat → Nat → Option (List Iovec)
  | [], _, _, _, _ => none
  | _ :: rest, k, npos, ncap, len =>
    if ncap ≥ len then some [⟨k, npos, len⟩]
    else
      match rest with
      | [] => none
      | node :: _ => (segmentLoop rest (k + 1) 0 node.size (len - ncap)).map (⟨k, npos, ncap⟩ :: ·)

/-- `getReadBuffers(buffers, len, position)`. The first `ncap` is taken from
`m_cur`, the later ones from `cur`. -/
def getReadBuffersAt (len position : Nat) : Program ByteArray (Nat × List Iovec) := fun s =>
  let len := if len > s.getReadSize then s.getReadSize else len
  if len = 0 then .ok (0, []) s
  else if s.baseSize = 0 then .fault .divisionByZero
  else
    match s.chain, s.walk (position / s.baseSize) (some 0) with
    | node :: _, some (some k) =>
      let npos := position % s.baseSize
      match segmentLoop (s.nodes.drop k) k npos (node.size - npos) len with
      | none => .fault .nullPointer
      | some buffers => .ok (len, buffers) s
    | _, _ => .fault .nullPointer

def toString : Program ByteArray (List UInt8) := fun s =>
  if s.getReadSize = 0 then .ok [] s else readAt s.getReadSize s.position s

/-! ## The bytes behind the nodes -/

/-- The concatenated nodes. -/
def bytes (s : ByteArray) : List UInt8 := s.nodes.flatMap Node.ptr

/-- The bytes a segment stands for. -/
def segment (s : ByteArray) (v : Iovec) : List UInt8 :=
  match s.nodes[v.node]? with
  | none => []
  | some node => slice node.ptr v.base v.len

end ByteArray
end TwServer
