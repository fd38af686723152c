import TwServer.Http.Segmentation
import TwServer.Stream.SocketStream

/-! The body of a request in memory: `recvRequest` sizes it, copies what the buffer holds
behind the header to its start, and `readFixSize` reads the rest into it. -/

namespace TwServer
open Programs Program Blocks TwServer.Stream

namespace Stream

/-- The stream for a caller whose buffer starts `base` bytes further. -/
def behind {σ : Type} (stream : Stream σ) (base : BitVec 64) : Stream σ :=
  { stream with
    read := fun offset => stream.read (base + offset)
    write := fun offset => stream.write (base + offset) }

end Stream

namespace Http

/-- `GetHttpRequestMaxBodySize()`. -/
def maxBodySize : Nat := 64 * 1024 * 1024

namespace Body

/-! ## `recvRequest` -/

/-- The session on a connection. -/
def session (c : Connection) : HttpSession := ⟨c.input, c.connected⟩

def onSession {α : Type} (m : Program HttpSession α) : Program Connection α := fun c =>
  (m (session c)).map (fun s => { c with connected := s.connected, input := s.input }) id

/-- `body.resize(length)`. -/
def resize (env : Env) (length : Nat) : Program Connection Unit := fun c =>
  if env.maxAlloc < length then .throw "std::bad_alloc" c
  else .ok () { c with buffer := List.replicate length 0 }

/-- `memcpy(&body[0], data, n)`. -/
def memcpy (data : List UInt8) (n : Nat) : Program Connection Unit := fun c =>
  if n > data.length ∨ n > c.buffer.length then .fault .outOfBounds
  else .ok () { c with buffer := overwrite c.buffer 0 (data.take n) }

def close : Program Connection Unit := modify fun c => { c with connected := false }

/-- `setBody(body)` and the return. -/
def setBody (data : HttpRequest) : Program Connection (Option (Option HttpRequest)) := fun c =>
  .ok (some (some { data with body := c.buffer })) c

/-- From `getContentLength` on; `none` when the fuel of `readFixSize` is out. -/
def recvBody (env : Env) (kernel : Kernel) (fuel : Nat) (header : Received) :
    Program Connection (Option (Option HttpRequest)) := do
  let length := (header.parser.getContentLength env.lexicalCast).toInt
  if length > 0 then
    resize env length.toNat
    let len := if length ≥ header.offset then header.offset else length.toNat
    memcpy header.data len
    let length := length - header.offset
    if length > 0 then
      let body := (socketStream kernel).behind (BitVec.ofNat 64 len)
      match ← body.readFixSize (BitVec.ofInt 64 length) fuel with
      | none => return none
      | some rt =>
        if rt ≤ 0 then
          close
          return some none
        else setBody header.parser.data
    else setBody header.parser.data
  else return some (some header.parser.data)

def recvRequest (env : Env) (kernel : Kernel) (fuel : Nat) :
    Program Connection (Option (Option HttpRequest)) := do
  match ← onSession (recvHeader env) with
  | none => return some none
  | some header => recvBody env kernel fuel header

/-! ## The loop that reads the rest -/

/-- The connection when the next `n` bytes of the peer, or as many as there are, are
read to `pos`. -/
def filled (c : Connection) (pos n : Nat) : Connection :=
  { c with
    input := c.input.skip n
    buffer := overwrite c.buffer pos (c.input.bytes.take n) }

section
variable {c : Connection} {pos : Nat}

theorem filled_zero : filled c pos 0 = c := by
  rw [filled, Input.skip_zero, List.take_zero, overwrite_nil]

theorem filled_ended (hnil : c.input.bytes = []) (n : Nat) : filled c pos n = c := by
  have hskip : (c.input.skip n).bytes = [] := by rw [Input.bytes_skip, hnil, List.drop_nil]
  rw [filled, Input.eq_nil hskip, ← Input.eq_nil hnil, hnil, List.take_nil, overwrite_nil]

/-- One read, then what is left. -/
theorem filled_filled {k n : Nat} (hk : k ≤ n) (hin : k ≤ c.input.bytes.length)
    (hroom : pos + n ≤ c.buffer.length) :
    filled (filled c pos k) (pos + k) (n - k) = filled c pos n := by
  have hfirst : (c.input.bytes.take k).length = k := List.length_take_of_le hin
  have hnext : (c.input.bytes.drop k).take (n - k) = (c.input.skip k).bytes.take (n - k) := by
    rw [Input.bytes_skip]
  have hall : c.input.bytes.take k ++ (c.input.skip k).bytes.take (n - k) =
      c.input.bytes.take n := by
    rw [← hnext, ← List.take_add, Nat.add_sub_cancel' hk]
  have hwhole := congrArg List.length hall
  rw [List.length_append, hfirst, List.length_take (i := n)] at hwhole
  have hfit : pos + (c.input.bytes.take k).length +
      ((c.input.skip k).bytes.take (n - k)).length ≤ c.buffer.length := by
    omega
  have hover := overwrite_overwrite hfit
  rw [hfirst, hall] at hover
  show ({ c with
    input := (c.input.skip k).skip (n - k)
    buffer := overwrite (overwrite c.buffer pos (c.input.bytes.take k)) (pos + k)
      ((c.input.skip k).bytes.take (n - k)) } : Connection) = filled c pos n
  rw [hover, Input.skip_skip, Nat.add_sub_cancel' hk]
  rfl

theorem length_filled {n : Nat} (hroom : pos + n ≤ c.buffer.length) :
    (filled c pos n).buffer.length = c.buffer.length := by
  refine length_overwrite ?_
  have hle := List.length_take_le n c.input.bytes
  omega

/-- A read of `n` bytes, which has less of them where the peer sent less at a time. -/
theorem read_filled {n : Nat} {offset : BitVec 64} (h : c.connected = true)
    (hpos : offset.toNat = pos) (hroom : pos + n ≤ c.buffer.length)
    (hfit : c.buffer.length < 2 ^ 31) :
    ∃ k, k ≤ n ∧ k ≤ c.input.bytes.length ∧ (k = 0 → n = 0 ∨ c.input.bytes = []) ∧
      SocketStream.read offset (BitVec.ofNat 64 n) c = .ok (k : Int) (filled c pos k) := by
  have hlen : (BitVec.ofNat 64 n).toNat = n := toNat_ofNat_fit (by omega)
  have hle := c.input.recv_le n
  have hin := c.input.length_recv n
  have htake : (c.input.recv n).1 = c.input.bytes.take (c.input.recv n).1.length := by
    rw [← c.input.recv_append n, List.take_left]
  refine ⟨(c.input.recv n).1.length, hle, by omega, fun hzero => ?_, ?_⟩
  · by_contra hnot
    rw [not_or] at hnot
    exact Input.recv_ne_nil hnot.1 hnot.2 (List.length_eq_zero_iff.mp hzero)
  · rw [SocketStream.read, SocketStream.whenConnected, if_pos h, Socket.recv, if_pos h, hlen, hpos,
      filled, ← htake, ← c.input.recv_snd]
    exact if_neg (by omega)

/-- The loop reads `n` bytes to `pos`, or what there is of them. -/
theorem fixLoop_filled {whole base offset : BitVec 64} {n : Nat} (h : c.connected = true)
    (hpos : (base + offset).toNat = pos) (hroom : pos + n ≤ c.buffer.length)
    (hfit : c.buffer.length < 2 ^ 31) :
    ∃ fuel, fixLoop (fun offset => SocketStream.read (base + offset)) whole fuel offset
        (BitVec.ofNat 64 n) c =
      .ok (some (if n ≤ c.input.bytes.length then asInt whole else 0)) (filled c pos n) := by
  induction n using Nat.strongRecOn generalizing c offset pos with
  | ind n ih =>
    rcases Nat.eq_zero_or_pos n with rfl | hn
    · refine ⟨1, fixLoop_done.trans ?_⟩
      rw [if_pos (Nat.zero_le _), filled_zero]
    · obtain ⟨k, hle, hin, hnone, hread⟩ := read_filled h hpos hroom hfit
      have hleft : BitVec.ofNat 64 n ≠ 0 := ofNat_ne_zero (by omega) (by omega)
      rcases Nat.eq_zero_or_pos k with rfl | hk
      · have hnil : c.input.bytes = [] := (hnone rfl).resolve_left (by omega)
        have hstop : fixLoop (fun offset => SocketStream.read (base + offset)) whole 1 offset
            (BitVec.ofNat 64 n) c = .ok (some 0) (filled c pos 0) := fixLoop_stop hleft rfl hread
        refine ⟨1, hstop.trans ?_⟩
        rw [if_neg (by rw [hnil]; exact Nat.not_le.mpr hn), filled_ended hnil, filled_ended hnil]
      · have hlen : BitVec.ofInt 64 (k : Int) = BitVec.ofNat 64 k := BitVec.ofInt_natCast 64 k
        have hmoved : (base + (offset + BitVec.ofNat 64 k)).toNat = pos + k := by
          rw [← BitVec.add_assoc, BitVec.toNat_add, hpos, toNat_ofNat_fit (by omega),
            Nat.mod_eq_of_lt (by omega)]
        have hroom' : pos + k + (n - k) ≤ (filled c pos k).buffer.length := by
          rw [length_filled (by omega)]
          omega
        obtain ⟨fuel, hrest⟩ := ih (n - k) (by omega) (c := filled c pos k) h hmoved hroom'
          (by rw [length_filled (by omega)]; exact hfit)
        rw [filled_filled hle hin hroom] at hrest
        have hsame : n - k ≤ (filled c pos k).input.bytes.length ↔ n ≤ c.input.bytes.length := by
          show n - k ≤ (c.input.skip k).bytes.length ↔ _
          rw [Input.bytes_skip, List.length_drop]
          omega
        have hstep : fixLoop (fun offset => SocketStream.read (base + offset)) whole (fuel + 1)
            offset (BitVec.ofNat 64 n) c = _ :=
          fixLoop_step hleft (hlen ▸ ofNat_ne_zero (by omega) (by omega)) hread
        refine ⟨fuel + 1, hstep.trans ?_⟩
        rw [hlen, ofNat_sub hle, hrest]
        simp only [hsame]

end

/-! ## The header -/

theorem execute_length {m : Machine} {data moved : List UInt8} {len nparser : Nat}
    {parser parser' : HttpRequestParser}
    (h : HttpRequestParser.execute m data len parser = .ok (nparser, moved) parser') :
    data.length ≤ moved.length := by
  obtain ⟨offset, _, -, hrun⟩ := of_bind_ok h
  cases hrun
  exact le_length_overwrite (Nat.zero_le _) (Nat.le_max_left _ _)

/-- The bytes behind a header are in the buffer, and the session is connected. -/
theorem recvHeader_leftover {env : Env} {header : Received} {s s' : HttpSession}
    (h : recvHeader env s = .ok (some header) s') :
    header.offset ≤ header.data.length ∧ s'.connected = true := by
  unfold recvHeader at h
  split at h
  · obtain ⟨hle, hconnected, -⟩ := recvLoop_induction
      (I := fun _ data offset => offset ≤ data.length)
      (fun {_ data offset bytes _ _ _} hdata hexecute => by
        have hstored : offset + bytes.length ≤ (overwrite data offset bytes).length :=
          le_length_overwrite hdata (Nat.le_max_right _ _)
        have hmoved := execute_length hexecute
        omega) (Nat.zero_le _) h
    exact ⟨hle, hconnected⟩
  · cases h

/-! ## The body -/

/-- What `recvRequest` makes of a body of `length` bytes: those behind the header, then
those that the peer sends. It writes only into the body, and takes from the socket only
what is missing. -/
structure Assembled (header : Received) (before : Input) (length : Nat)
    (result : Option HttpRequest) (c : Connection) : Prop where
  supplied : length ≤ (header.data.take header.offset ++ before.bytes).length →
    result = some { header.parser.data with
      body := (header.data.take header.offset ++ before.bytes).take length } ∧ c.connected = true
  short : (header.data.take header.offset ++ before.bytes).length < length →
    result = none ∧ c.connected = false
  inside : c.buffer.length = length
  missing : c.input = before.skip (length - header.offset)

section
variable {env : Env} {kernel : Kernel} {header : Received} {c : Connection} {length : Nat}

theorem resize_ok (h : length ≤ env.maxAlloc) :
    resize env length c = .ok () { c with buffer := List.replicate length 0 } :=
  if_neg (Nat.not_lt.mpr h)

theorem memcpy_ok {data : List UInt8} {n : Nat} (hdata : n ≤ data.length)
    (hbuffer : n ≤ c.buffer.length) :
    memcpy data n c = .ok () { c with buffer := overwrite c.buffer 0 (data.take n) } :=
  if_neg (by omega)

theorem toInt_of_toNat {n : BitVec 64} (h : n.toNat = length) (hfit : length ≤ maxBodySize) :
    n.toInt = length := by
  unfold maxBodySize at hfit
  rw [BitVec.toInt_eq_toNat_of_lt (by omega), h]

/-- The bytes behind the header are the whole body. -/
theorem recvBody_held (hconnected : c.connected = true)
    (hdata : header.offset ≤ header.data.length)
    (hlength : (header.parser.getContentLength env.lexicalCast).toNat = length)
    (hpos : 0 < length) (hmax : length ≤ maxBodySize) (halloc : length ≤ env.maxAlloc)
    (hheld : length ≤ header.offset) (fuel : Nat) :
    ∃ result c', recvBody env kernel fuel header c = .ok (some result) c' ∧
      Assembled header c.input length result c' := by
  have hint := toInt_of_toNat hlength hmax
  have hlen : (if (length : Int) ≥ header.offset then header.offset else length) = length := by
    split <;> omega
  have hbody : overwrite (List.replicate length (0 : UInt8)) 0 (header.data.take length) =
      header.data.take length := by
    refine overwrite_all ?_
    rw [List.length_replicate, List.length_take_of_le (hheld.trans hdata)]
  have htake : header.data.take length =
      (header.data.take header.offset ++ c.input.bytes).take length := by
    rw [List.take_append_of_le_length, List.take_take, Nat.min_eq_left hheld]
    rw [List.length_take_of_le hdata]
    exact hheld
  refine ⟨some { header.parser.data with body := header.data.take length },
    { c with buffer := header.data.take length }, ?_, ?_⟩
  · unfold recvBody
    simp only [hint]
    rw [if_pos (by omega), Int.toNat_natCast, bind_ok (resize_ok halloc), hlen,
      bind_ok (memcpy_ok (hheld.trans hdata) (by rw [List.length_replicate])), if_neg (by omega),
      hbody]
    rfl
  · refine ⟨fun _ => ⟨by rw [htake], hconnected⟩, fun hshort => ?_, ?_, ?_⟩
    · rw [List.length_append, List.length_take_of_le hdata] at hshort
      omega
    · exact List.length_take_of_le (hheld.trans hdata)
    · rw [Nat.sub_eq_zero_of_le hheld, Input.skip_zero]

theorem length_front {r : List UInt8} (hr : r.length ≤ length) :
    (overwrite (List.replicate length (0 : UInt8)) 0 r).length = length := by
  rw [length_overwrite, List.length_replicate]
  rw [List.length_replicate, Nat.zero_add]
  exact hr

/-- What lies in a body of which `r` is in front and the rest was read. -/
theorem filled_body {r : List UInt8} (hr : r.length ≤ length) :
    (filled { c with buffer := overwrite (List.replicate length 0) 0 r } r.length
        (length - r.length)).buffer.length = length ∧
      (length ≤ (r ++ c.input.bytes).length →
        (filled { c with buffer := overwrite (List.replicate length 0) 0 r } r.length
          (length - r.length)).buffer = (r ++ c.input.bytes).take length) := by
  have hfirst := length_front hr
  constructor
  · refine (length_filled ?_).trans hfirst
    show r.length + (length - r.length) ≤ (overwrite _ 0 r).length
    omega
  · intro hsupplied
    rw [List.length_append] at hsupplied
    have hrest : (c.input.bytes.take (length - r.length)).length = length - r.length :=
      List.length_take_of_le (by omega)
    have hfits : 0 + r.length + (c.input.bytes.take (length - r.length)).length ≤
        (List.replicate length (0 : UInt8)).length := by
      rw [hrest, List.length_replicate]
      omega
    have hover := overwrite_overwrite hfits
    rw [Nat.zero_add] at hover
    show overwrite (overwrite _ 0 r) r.length (c.input.bytes.take (length - r.length)) = _
    rw [hover, List.take_append, List.take_of_length_le hr]
    refine overwrite_all ?_
    rw [List.length_replicate, List.length_append, hrest]
    omega

/-- `readFixSize` behind the `r` bytes that are in the body. -/
theorem readFixSize_behind {r : List UInt8} (hconnected : c.connected = true)
    (hr : r.length ≤ length) (hfit : length < 2 ^ 31) :
    ∃ fuel, ((socketStream kernel).behind (BitVec.ofNat 64 r.length)).readFixSize
        (BitVec.ofNat 64 (length - r.length)) fuel
        { c with buffer := overwrite (List.replicate length 0) 0 r } =
      .ok (some (if length - r.length ≤ c.input.bytes.length then
          ((length - r.length : Nat) : Int) else 0))
        (filled { c with buffer := overwrite (List.replicate length 0) 0 r } r.length
          (length - r.length)) := by
  have hstart : (BitVec.ofNat 64 r.length + 0#64).toNat = r.length := by
    rw [BitVec.add_zero, toNat_ofNat_fit (by omega)]
  have hroom := length_front hr
  have hint : asInt (BitVec.ofNat 64 (length - r.length)) = ((length - r.length : Nat) : Int) :=
    asInt_ofNat (by omega)
  rw [← hint]
  exact fixLoop_filled hconnected hstart
    (by dsimp only; rw [hroom]; exact (Nat.add_sub_cancel' hr).le)
    (by dsimp only; rw [hroom]; exact hfit)

/-- The rest of the body comes from the socket. -/
theorem recvBody_read (hconnected : c.connected = true)
    (hdata : header.offset ≤ header.data.length)
    (hlength : (header.parser.getContentLength env.lexicalCast).toNat = length)
    (hmax : length ≤ maxBodySize) (halloc : length ≤ env.maxAlloc)
    (hmissing : header.offset < length) :
    ∃ fuel result c', recvBody env kernel fuel header c = .ok (some result) c' ∧
      Assembled header c.input length result c' := by
  have hint := toInt_of_toNat hlength hmax
  have hfit : length < 2 ^ 31 := by
    unfold maxBodySize at hmax
    omega
  have hheld : (header.data.take header.offset).length = header.offset :=
    List.length_take_of_le hdata
  have hfront : (header.data.take header.offset).length ≤ length := by
    rw [hheld]
    exact hmissing.le
  obtain ⟨hsize, hbody⟩ := filled_body (c := c) hfront
  obtain ⟨fuel, hread⟩ := readFixSize_behind hconnected hfront hfit
  rw [hheld] at hsize hbody hread
  have hleft : BitVec.ofInt 64 ((length : Int) - header.offset) =
      BitVec.ofNat 64 (length - header.offset) := by
    rw [← Int.natCast_sub hmissing.le]
    exact BitVec.ofInt_natCast 64 _
  have hlen : (if (length : Int) ≥ header.offset then header.offset else length) =
      header.offset := if_pos (by omega)
  refine ⟨fuel, ?_⟩
  unfold recvBody
  simp only [hint]
  rw [if_pos (by omega), Int.toNat_natCast, bind_ok (resize_ok halloc), hlen,
    bind_ok (memcpy_ok hdata (by rw [List.length_replicate]; exact hmissing.le)),
    if_pos (by omega), hleft, bind_ok hread]
  dsimp only
  by_cases hsupplied : length - header.offset ≤ c.input.bytes.length
  · rw [if_pos hsupplied]
    rw [if_neg (by omega)]
    refine ⟨_, _, rfl, fun hall => ?_, fun hshort => ?_, hsize, rfl⟩
    · rw [hbody hall]
      exact ⟨rfl, hconnected⟩
    · rw [List.length_append, hheld] at hshort
      omega
  · rw [if_neg hsupplied]
    rw [if_pos (Int.le_refl 0)]
    refine ⟨none, _, rfl, fun hall => ?_, fun _ => ⟨rfl, rfl⟩, hsize, rfl⟩
    rw [List.length_append, hheld] at hall
    omega

theorem recvBody_assembled (hconnected : c.connected = true)
    (hdata : header.offset ≤ header.data.length)
    (hlength : (header.parser.getContentLength env.lexicalCast).toNat = length)
    (hpos : 0 < length) (hmax : length ≤ maxBodySize) (halloc : length ≤ env.maxAlloc) :
    ∃ fuel result c', recvBody env kernel fuel header c = .ok (some result) c' ∧
      Assembled header c.input length result c' := by
  rcases Nat.lt_or_ge header.offset length with hmissing | hheld
  · exact recvBody_read hconnected hdata hlength hmax halloc hmissing
  · exact ⟨0, recvBody_held hconnected hdata hlength hpos hmax halloc hheld 0⟩

/-- The session without memory makes the same of the body. -/
theorem Assembled.refines {result : Option HttpRequest} {c' : Connection}
    (h : Assembled header c.input length result c') (hconnected : c.connected = true)
    (hdata : header.offset ≤ header.data.length)
    (hlength : (header.parser.getContentLength env.lexicalCast).toNat = length)
    (hpos : 0 < length) (hmax : length ≤ maxBodySize) (halloc : length ≤ env.maxAlloc) :
    Http.recvBody env header (session c) = .ok result (session c') := by
  have hint := toInt_of_toNat hlength hmax
  have hfit : length < 2 ^ 31 := by
    unfold maxBodySize at hmax
    omega
  have hheld : (header.data.take header.offset).length = header.offset :=
    List.length_take_of_le hdata
  unfold Http.recvBody
  simp only [hint, Int.toNat_natCast]
  rw [if_neg (by omega), if_neg (Nat.not_lt.mpr halloc)]
  by_cases hall : length ≤ (header.data.take header.offset ++ c.input.bytes).length
  · obtain ⟨rfl, hstays⟩ := h.supplied hall
    have hstate : session c' = ⟨c.input.skip (length - header.offset), c.connected⟩ := by
      rw [session, h.missing, hstays, hconnected]
    rw [hstate]
    by_cases hleft : length - header.offset = 0
    · have hle : length ≤ header.offset := Nat.le_of_sub_eq_zero hleft
      rw [if_pos hleft, hleft, Input.skip_zero, List.take_append_of_le_length (by omega),
        List.take_take]
      rfl
    · rw [List.length_append, hheld] at hall
      have hread : readFixSize (length - header.offset) (session c) = _ :=
        readFixSize_ok (by show _ ≤ c.input.bytes.length; omega)
      rw [if_neg hleft, bind_ok hread]
      dsimp only
      rw [Int.bmod_eq_of_le (by omega) (by omega), if_neg (by omega), List.take_append,
        List.take_take, hheld]
      rfl
  · obtain ⟨rfl, hclosed⟩ := h.short (Nat.lt_of_not_le hall)
    rw [List.length_append, hheld] at hall
    have hshort : (session c).input.bytes.length < length - header.offset := by
      show c.input.bytes.length < _
      omega
    have hnil : c.input.skip (length - header.offset) = .nil := by
      refine Input.eq_nil ?_
      rw [Input.bytes_skip]
      exact List.drop_eq_nil_of_le hshort.le
    rw [if_neg (by omega), bind_ok (readFixSize_short hshort), if_pos (Int.le_refl 0)]
    have hstate : session c' = ⟨.nil, false⟩ := by
      rw [session, h.missing, hnil, hclosed]
    rw [hstate]
    rfl

end

theorem recvRequest_header {env : Env} {kernel : Kernel} {fuel : Nat} {c : Connection}
    {header : Received} {s : HttpSession} (h : recvHeader env (session c) = .ok (some header) s) :
    recvRequest env kernel fuel c = recvBody env kernel fuel header
      { c with connected := s.connected, input := s.input } := by
  have hheader : onSession (recvHeader env) c =
      .ok (some header) { c with connected := s.connected, input := s.input } := by
    rw [onSession, h]
    rfl
  exact bind_ok hheader

/-- Behind a header that declares a length up to the limit, `recvRequest` returns exactly
this body, or closes where the peer sends less. -/
theorem body_exact {env : Env} {c : Connection} {header : Received} {s : HttpSession}
    {length : Nat} (kernel : Kernel) (halloc : maxBodySize ≤ env.maxAlloc)
    (hheader : recvHeader env (session c) = .ok (some header) s)
    (hlength : (header.parser.getContentLength env.lexicalCast).toNat = length)
    (hpos : 0 < length) (hmax : length ≤ maxBodySize) :
    ∃ fuel result c', recvRequest env kernel fuel c = .ok (some result) c' ∧
      Assembled header s.input length result c' := by
  obtain ⟨hdata, hconnected⟩ := recvHeader_leftover hheader
  simp only [recvRequest_header hheader]
  exact recvBody_assembled hconnected hdata hlength hpos hmax (hmax.trans halloc)

/-- `recvRequest` without memory says the same. -/
theorem recvRequest_refines {env : Env} {c : Connection} {header : Received} {s : HttpSession}
    {length : Nat} (kernel : Kernel) (halloc : length ≤ env.maxAlloc)
    (hheader : recvHeader env (session c) = .ok (some header) s)
    (hlength : (header.parser.getContentLength env.lexicalCast).toNat = length)
    (hpos : 0 < length) (hmax : length ≤ maxBodySize) :
    ∃ fuel result c', recvRequest env kernel fuel c = .ok (some result) c' ∧
      Http.recvRequest env (session c) = .ok result (session c') := by
  obtain ⟨hdata, hconnected⟩ := recvHeader_leftover hheader
  obtain ⟨fuel, result, c', hrun, hall⟩ : ∃ fuel result c', recvBody env kernel fuel header
      { c with connected := s.connected, input := s.input } = .ok (some result) c' ∧
      Assembled header s.input length result c' :=
    recvBody_assembled hconnected hdata hlength hpos hmax halloc
  refine ⟨fuel, result, c', (recvRequest_header hheader).trans hrun, ?_⟩
  rw [recvRequest_some hheader]
  exact hall.refines (c := { c with connected := s.connected, input := s.input }) hconnected
    hdata hlength hpos hmax halloc

/-- A body in two pieces. -/
def apart : Connection := ⟨true, cutInBody, [], [], .new 1 fun _ => 0⟩

/-- What the first read of `apart` leaves: the header and one byte of the body. -/
theorem recvHeader_apart : ∃ data : List UInt8, data.take 1 = Http.bytes "h" ∧
    recvHeader plainEnv (session apart) =
      .ok (some ⟨plain.parsed postHeader, data, 1⟩) ⟨(cutInBody.recv bufferSize).2, true⟩ := by
  have hfirst : (cutInBody.recv bufferSize).1 = postHeader ++ Http.bytes "h" := by decide
  obtain ⟨data, hdata, hheader⟩ := recvHeader_covered postHeader_isHeader hfirst
  rw [if_neg (by decide +kernel)] at hheader
  exact ⟨data, hdata, hheader⟩

theorem declared_apart (data : List UInt8) :
    ((Received.mk (plain.parsed postHeader) data 1).parser.getContentLength
      plainEnv.lexicalCast).toNat = 2 := by
  have hlength : ((plain.parsed postHeader).getContentLength plainEnv.lexicalCast).toNat = 2 := by
    decide +kernel
  dsimp only
  exact hlength

theorem body_exact_apart : ∃ fuel c', recvRequest plainEnv mebibyte fuel apart =
    .ok (some (some { (plain.parsed postHeader).data with body := Http.bytes "hi" })) c' := by
  obtain ⟨data, hdata, hheader⟩ := recvHeader_apart
  obtain ⟨fuel, result, c', hrun, hall⟩ :=
    body_exact mebibyte (by decide) hheader (declared_apart data) (by decide) (by decide)
  have hbytes : data.take 1 ++ (cutInBody.recv bufferSize).2.bytes = Http.bytes "hi" := by
    rw [hdata]
    decide
  have hsupplied : 2 ≤ (data.take 1 ++ (cutInBody.recv bufferSize).2.bytes).length := by
    rw [hbytes]
    decide
  have hresult := (hall.supplied hsupplied).1
  dsimp only at hresult
  have htake : (Http.bytes "hi").take 2 = Http.bytes "hi" := by decide
  rw [hbytes, htake] at hresult
  exact ⟨fuel, c', by rw [hrun, hresult]⟩

end Body
end Http
end TwServer
