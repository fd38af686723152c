import Mathlib.Data.Nat.Basic
import Mathlib.Tactic.ByContra
import TwServer.Http.Parser

/-! `HttpSession::recvRequest` on what a connection delivers. The input is the
sequence of pieces that `recv` finds in the socket; after the last one the peer
has shut down. A piece that is longer than the buffer offered to `recv` stays in
part. -/

namespace TwServer
open Programs Program Blocks

namespace Http

/-! ## The socket -/

/-- What `recv` with room for `n` bytes returns, and what it leaves. -/
def recvPiece (n : Nat) : List (List UInt8) → List UInt8 × List (List UInt8)
  | [] => ([], [])
  | piece :: rest =>
    if n < piece.length then (piece.take n, piece.drop n :: rest) else (piece, rest)

theorem recvPiece_cons (n : Nat) (piece : List UInt8) (rest : List (List UInt8)) :
    recvPiece n (piece :: rest) =
      if n < piece.length then (piece.take n, piece.drop n :: rest) else (piece, rest) := rfl

section
variable {n : Nat} {pieces : List (List UInt8)}

theorem drop_cons_nonempty {piece : List UInt8} {k : Nat} (hk : k < piece.length)
    (h : ∀ p ∈ pieces, p ≠ []) : ∀ p ∈ piece.drop k :: pieces, p ≠ [] := by
  intro p hp
  rcases List.mem_cons.mp hp with rfl | hp
  · exact List.ne_nil_of_length_pos (by rw [List.length_drop]; omega)
  · exact h p hp

theorem recvPiece_nonempty (h : ∀ piece ∈ pieces, piece ≠ []) :
    ∀ piece ∈ (recvPiece n pieces).2, piece ≠ [] := by
  cases pieces with
  | nil => exact h
  | cons piece rest =>
    rw [recvPiece_cons]
    have hrest : ∀ p ∈ rest, p ≠ [] := fun p hp => h p (List.mem_cons_of_mem _ hp)
    split
    · exact drop_cons_nonempty ‹_› hrest
    · exact hrest

theorem recvPiece_append :
    (recvPiece n pieces).1 ++ (recvPiece n pieces).2.flatten = pieces.flatten := by
  cases pieces with
  | nil => rfl
  | cons piece rest =>
    rw [recvPiece_cons]
    split
    · rw [List.flatten_cons, List.flatten_cons, ← List.append_assoc, List.take_append_drop]
    · rfl

theorem recvPiece_le : (recvPiece n pieces).1.length ≤ n := by
  cases pieces with
  | nil => exact Nat.zero_le n
  | cons piece rest =>
    rw [recvPiece_cons]
    split
    · exact List.length_take_le n piece
    · exact Nat.le_of_not_lt ‹_›

theorem recvPiece_ne_nil (hn : n ≠ 0) (h : ∀ piece ∈ pieces, piece ≠ []) (hne : pieces ≠ []) :
    (recvPiece n pieces).1 ≠ [] := by
  cases pieces with
  | nil => exact absurd rfl hne
  | cons piece rest =>
    have hpiece := List.length_pos_iff.mpr (h piece (by simp))
    rw [recvPiece_cons]
    split
    · exact List.ne_nil_of_length_pos (by rw [List.length_take]; omega)
    · exact h piece (by simp)

/-- The pieces behind the first `k` bytes. -/
def dropBytes : Nat → List (List UInt8) → List (List UInt8)
  | _, [] => []
  | k, piece :: rest =>
    if k < piece.length then piece.drop k :: rest else dropBytes (k - piece.length) rest

theorem dropBytes_cons (k : Nat) (piece : List UInt8) (rest : List (List UInt8)) :
    dropBytes k (piece :: rest) =
      if k < piece.length then piece.drop k :: rest else dropBytes (k - piece.length) rest := by
  rw [dropBytes]

theorem dropBytes_nonempty (k : Nat) (h : ∀ piece ∈ pieces, piece ≠ []) :
    ∀ piece ∈ dropBytes k pieces, piece ≠ [] := by
  induction pieces generalizing k with
  | nil => exact h
  | cons piece rest ih =>
    rw [dropBytes_cons]
    have hrest : ∀ p ∈ rest, p ≠ [] := fun p hp => h p (List.mem_cons_of_mem _ hp)
    split
    · exact drop_cons_nonempty ‹_› hrest
    · exact ih _ hrest

theorem dropBytes_zero (h : ∀ piece ∈ pieces, piece ≠ []) : dropBytes 0 pieces = pieces := by
  cases pieces with
  | nil => rfl
  | cons piece rest =>
    rw [dropBytes_cons, if_pos (List.length_pos_iff.mpr (h piece (by simp))), List.drop_zero]

theorem dropBytes_dropBytes (a b : Nat) :
    dropBytes b (dropBytes a pieces) = dropBytes (a + b) pieces := by
  induction pieces generalizing a with
  | nil => rfl
  | cons piece rest ih =>
    rw [dropBytes_cons]
    by_cases ha : a < piece.length
    · rw [if_pos ha, dropBytes_cons, dropBytes_cons, List.length_drop]
      by_cases hb : a + b < piece.length
      · rw [if_pos hb, if_pos (by omega), List.drop_drop]
      · rw [if_neg hb, if_neg (by omega)]
        congr 1
        omega
    · rw [if_neg ha, ih, dropBytes_cons, if_neg (by omega)]
      congr 1
      omega

theorem flatten_dropBytes (k : Nat) : (dropBytes k pieces).flatten = pieces.flatten.drop k := by
  induction pieces generalizing k with
  | nil => rw [dropBytes, List.flatten_nil, List.drop_nil]
  | cons piece rest ih =>
    rw [dropBytes_cons, List.flatten_cons, List.drop_append]
    split
    · rw [List.flatten_cons, Nat.sub_eq_zero_of_le (Nat.le_of_lt ‹_›), List.drop_zero]
    · have hpiece : piece.drop k = [] := List.drop_eq_nil_of_le (Nat.le_of_not_lt ‹_›)
      rw [ih, hpiece, List.nil_append]

/-- A read takes what it returns off the front. -/
theorem recvPiece_snd (h : ∀ piece ∈ pieces, piece ≠ []) :
    (recvPiece n pieces).2 = dropBytes (recvPiece n pieces).1.length pieces := by
  cases pieces with
  | nil => rfl
  | cons piece rest =>
    have hrest := dropBytes_zero fun p hp => h p (List.mem_cons_of_mem piece hp)
    rw [recvPiece_cons]
    split
    · rw [List.length_take, Nat.min_eq_left (Nat.le_of_lt ‹_›), dropBytes_cons, if_pos ‹_›]
    · rw [dropBytes_cons, if_neg (Nat.lt_irrefl _), Nat.sub_self, hrest]

end

structure Input where
  pieces : List (List UInt8)
  nonempty : ∀ piece ∈ pieces, piece ≠ []

namespace Input

def bytes (input : Input) : List UInt8 := input.pieces.flatten

def nil : Input := ⟨[], fun _ h => nomatch h⟩

/-- Everything in one piece. -/
def whole (bs : List UInt8) (h : bs ≠ []) : Input :=
  ⟨[bs], fun p hp => by rw [List.mem_singleton.mp hp]; exact h⟩

def recv (n : Nat) (input : Input) : List UInt8 × Input :=
  ((recvPiece n input.pieces).1, ⟨(recvPiece n input.pieces).2, recvPiece_nonempty input.nonempty⟩)

theorem recv_append (n : Nat) (input : Input) :
    (input.recv n).1 ++ (input.recv n).2.bytes = input.bytes := recvPiece_append

theorem length_recv (n : Nat) (input : Input) :
    (input.recv n).1.length + (input.recv n).2.bytes.length = input.bytes.length := by
  rw [← List.length_append, recv_append]

theorem recv_le (n : Nat) (input : Input) : (input.recv n).1.length ≤ n := recvPiece_le

theorem recv_ne_nil {n : Nat} (hn : n ≠ 0) {input : Input} (h : input.bytes ≠ []) :
    (input.recv n).1 ≠ [] := by
  refine recvPiece_ne_nil hn input.nonempty fun hnil => h ?_
  rw [bytes, hnil]
  rfl

theorem eq_nil {input : Input} (h : input.bytes = []) : input = nil := by
  obtain ⟨pieces, hpieces⟩ := input
  cases pieces with
  | nil => rfl
  | cons piece rest =>
    exact absurd (List.append_eq_nil_iff.mp h).1 (hpieces piece (by simp))

/-- A read that is not at the end leaves less. -/
theorem recv_lt {n : Nat} {input : Input} (h : (input.recv n).1 ≠ []) :
    (input.recv n).2.bytes.length < input.bytes.length := by
  have := length_recv n input
  have := List.length_pos_iff.mpr h
  omega

/-- The input behind the first `k` bytes. -/
def skip (k : Nat) (input : Input) : Input :=
  ⟨dropBytes k input.pieces, dropBytes_nonempty k input.nonempty⟩

theorem bytes_skip (k : Nat) (input : Input) : (input.skip k).bytes = input.bytes.drop k :=
  flatten_dropBytes k

theorem skip_zero (input : Input) : input.skip 0 = input := by
  unfold skip
  congr 1
  exact dropBytes_zero input.nonempty

theorem skip_skip (a b : Nat) (input : Input) : (input.skip a).skip b = input.skip (a + b) := by
  unfold skip
  congr 1
  exact dropBytes_dropBytes a b

theorem recv_snd (n : Nat) (input : Input) :
    (input.recv n).2 = input.skip (input.recv n).1.length := by
  show (⟨(recvPiece n input.pieces).2, _⟩ : Input) = input.skip (recvPiece n input.pieces).1.length
  unfold skip
  congr 1
  exact recvPiece_snd input.nonempty

end Input

structure HttpSession where
  input : Input
  connected : Bool

/-! ## `recvRequest` -/

/-- The code behind the session: the generated machine, `boost::lexical_cast` to
`uint64_t`, and the longest body the allocator serves. -/
structure Env where
  machine : Machine
  lexicalCast : List UInt8 → Option (BitVec 64)
  maxAlloc : Nat

/-- `GetHttpRequestBufferSize()`. -/
def bufferSize : Nat := 4 * 1024

/-- The parser and the buffer when the header is complete; `offset` bytes of the
buffer follow the header. -/
structure Received where
  parser : HttpRequestParser
  data : List UInt8
  offset : Nat

/-- The loop over a connected socket. `none` is the null pointer. -/
def recvLoop (env : Env) (parser : HttpRequestParser) (data : List UInt8) (offset : Nat)
    (input : Input) : Outcome HttpSession (Option Received) :=
  let read := input.recv (bufferSize - offset)
  if _ : read.1 = [] then .ok none ⟨read.2, false⟩
  else
    let len := read.1.length + offset
    match HttpRequestParser.execute env.machine (overwrite data offset read.1) len parser with
    | .fault why => .fault why
    | .throw what _ => .throw what ⟨read.2, true⟩
    | .ok (nparser, data) parser =>
      if parser.hasError then .ok none ⟨read.2, false⟩
      else if len - nparser = bufferSize then .ok none ⟨read.2, false⟩
      else if parser.isFinished then .ok (some ⟨parser, data, len - nparser⟩) ⟨read.2, true⟩
      else recvLoop env parser data (len - nparser) read.2
termination_by input.bytes.length
decreasing_by exact Input.recv_lt (by assumption)

/-- The loop of `Stream::readFixSize` over a connected socket; `none` at the end of
the input. -/
def readLoop (left : Nat) (input : Input) : Option (List UInt8) × Input :=
  if _ : left = 0 then (some [], input)
  else
    let read := input.recv left
    if _ : read.1 = [] then (none, read.2)
    else
      let more := readLoop (left - read.1.length) read.2
      (more.1.map (read.1 ++ ·), more.2)
termination_by left
decreasing_by exact Nat.sub_lt (Nat.pos_of_ne_zero ‹_›) (List.length_pos_iff.mpr ‹_›)

theorem readLoop_ok {left : Nat} {input : Input} (h : left ≤ input.bytes.length) :
    readLoop left input = (some (input.bytes.take left), input.skip left) := by
  induction left, input using readLoop.induct with
  | case1 input => rw [readLoop, dif_pos rfl, input.skip_zero, List.take_zero]
  | case2 left input hleft read hread =>
    have hnil : input.bytes = [] := by
      by_contra hne
      exact Input.recv_ne_nil hleft hne hread
    rw [hnil] at h
    exact absurd (Nat.le_zero.mp h) hleft
  | case3 left input hleft read hread ih =>
    have hlen : read.1.length + read.2.bytes.length = input.bytes.length := input.length_recv left
    have hle : read.1.length ≤ left := input.recv_le left
    have hbytes : read.1 ++ read.2.bytes = input.bytes := input.recv_append left
    have hskip : read.2 = input.skip read.1.length := input.recv_snd left
    rw [readLoop, dif_neg hleft, dif_neg hread, ih (by omega), ← hbytes, List.take_append,
      List.take_of_length_le hle, hskip, Input.skip_skip, Nat.add_sub_cancel' hle]
    rfl

theorem readLoop_short {left : Nat} {input : Input} (h : input.bytes.length < left) :
    readLoop left input = (none, .nil) := by
  induction left, input using readLoop.induct with
  | case1 input => exact absurd h (Nat.not_lt_zero _)
  | case2 left input hleft read hread =>
    have hnil : read.2.bytes = [] := by
      have happend : read.1 ++ read.2.bytes = input.bytes := input.recv_append left
      by_contra hne
      refine Input.recv_ne_nil hleft (fun hbytes => hne ?_) hread
      rw [hbytes] at happend
      exact (List.append_eq_nil_iff.mp happend).2
    rw [readLoop, dif_neg hleft, dif_pos hread, Input.eq_nil hnil]
  | case3 left input hleft read hread ih =>
    have hlen : read.1.length + read.2.bytes.length = input.bytes.length := input.length_recv left
    have hpos := List.length_pos_iff.mpr hread
    rw [readLoop, dif_neg hleft, dif_neg hread, ih (by omega)]
    rfl

/-- The result is an `int`, and what was read goes with it. -/
def readFixSize (length : Nat) : Program HttpSession (Int × List UInt8) := fun s =>
  match readLoop length s.input with
  | (none, input) => .ok (0, []) { s with input := input }
  | (some buffer, input) => .ok ((length : Int).bmod (2 ^ 32), buffer) { s with input := input }

theorem readFixSize_ok {length : Nat} {s : HttpSession} (h : length ≤ s.input.bytes.length) :
    readFixSize length s = .ok ((length : Int).bmod (2 ^ 32), s.input.bytes.take length)
      { s with input := s.input.skip length } := by
  rw [readFixSize, readLoop_ok h]

theorem readFixSize_short {length : Nat} {s : HttpSession} (h : s.input.bytes.length < length) :
    readFixSize length s = .ok (0, []) { s with input := .nil } := by
  rw [readFixSize, readLoop_short h]

def HttpSession.close : Program HttpSession Unit := modify fun s => { s with connected := false }

/-- A session that is not connected reads -1. -/
def recvHeader (env : Env) : Program HttpSession (Option Received) := fun s =>
  if s.connected then recvLoop env .new [] 0 s.input else .ok none { s with connected := false }

def recvBody (env : Env) (header : Received) : Program HttpSession (Option HttpRequest) := do
  let length := (header.parser.getContentLength env.lexicalCast).toInt
  if length ≤ 0 then return some header.parser.data
  else if env.maxAlloc < length.toNat then raise "std::bad_alloc"
  else
    let body := header.data.take (min length.toNat header.offset)
    let left := length.toNat - header.offset
    if left = 0 then return some { header.parser.data with body := body }
    else
      let (rt, buffer) ← readFixSize left
      if rt ≤ 0 then
        HttpSession.close
        return none
      else return some { header.parser.data with body := body ++ buffer }

def recvRequest (env : Env) : Program HttpSession (Option HttpRequest) := do
  match ← recvHeader env with
  | none => return none
  | some header => recvBody env header

end Http
end TwServer
