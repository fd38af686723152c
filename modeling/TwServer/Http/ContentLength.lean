import TwServer.Http.Body
import TwServer.Http.KeepAlive

/-! The text of a content-length header on its way to the size of the body:
`boost::lexical_cast<uint64_t>`, 0 where it throws, `int64_t`, and `body.resize`.
`GetHttpRequestMaxBodySize()` has no part in it. -/

namespace TwServer
open Programs Program Blocks

namespace Http

/-! ## `boost::lexical_cast<uint64_t>` -/

/-- The number that decimal digits write. -/
def digitsValue (text : List UInt8) : Option Nat :=
  if text ≠ [] ∧ ∀ b ∈ text, 48 ≤ b ∧ b ≤ 57 then
    some (text.foldl (fun n b => n * 10 + (b.toNat - 48)) 0)
  else none

/-- Digits behind an optional sign: whether it is a minus, and the number. -/
def signedValue (text : List UInt8) : Option (Bool × Nat) :=
  match text with
  | 43 :: digits => (digitsValue digits).map (false, ·)
  | 45 :: digits => (digitsValue digits).map (true, ·)
  | digits => (digitsValue digits).map (false, ·)

/-- A minus wraps around; `none` is `bad_lexical_cast`. -/
def lexicalCastUInt64 (text : List UInt8) : Option (BitVec 64) :=
  match signedValue text with
  | none => none
  | some (minus, n) =>
    if n < 2 ^ 64 then some (if minus then -BitVec.ofNat 64 n else BitVec.ofNat 64 n) else none

/-! ## What a content length is owed -/

/-- The text is a decimal number `n` up to the limit; no number below zero. -/
def Declares (text : List UInt8) (n : Nat) : Prop :=
  n ≤ maxBodySize ∧ ∃ minus, signedValue text = some (minus, n) ∧ (minus = true → n = 0)

/-- `recvRequest` refuses the text before it sizes a body, or returns requests with a
body of the declared size. -/
def Validates (env : Env) (text : List UInt8) (s : HttpSession) : Prop :=
  ∀ maxAlloc,
    (∀ req s', recvRequest { env with maxAlloc := maxAlloc } s = .ok (some req) s' →
      ∃ n, Declares text n ∧ req.body.length = n) ∧
    ((∀ n, ¬ Declares text n) →
      ∃ s', recvRequest { env with maxAlloc := maxAlloc } s = .ok none s' ∧ s'.connected = false)

/-! ## The header -/

/-- The machine alone decides on the header. -/
theorem recvLoop_congr {env env' : Env} (h : env'.machine = env.machine)
    {parser : HttpRequestParser} {data : List UInt8} {offset : Nat} {input : Input} :
    recvLoop env' parser data offset input = recvLoop env parser data offset input := by
  induction hn : input.bytes.length using Nat.strong_induction_on
    generalizing parser data offset input with
  | _ n ih =>
    by_cases hread : (input.recv (bufferSize - offset)).1 = []
    · rw [recvLoop, recvLoop, dif_pos hread, dif_pos hread]
    · have hlt := Input.recv_lt hread
      rw [hn] at hlt
      cases hexecute : HttpRequestParser.execute env.machine
          (overwrite data offset (input.recv (bufferSize - offset)).1)
          ((input.recv (bufferSize - offset)).1.length + offset) parser with
      | fault why =>
        have hexecute' := hexecute
        rw [← h] at hexecute'
        rw [recvLoop_fault offset hread hexecute, recvLoop_fault offset hread hexecute']
      | throw what s =>
        have hexecute' := hexecute
        rw [← h] at hexecute'
        rw [recvLoop_throw offset hread hexecute, recvLoop_throw offset hread hexecute']
      | ok r s =>
        have hexecute' := hexecute
        rw [← h] at hexecute'
        rw [recvLoop_ok offset hread hexecute, recvLoop_ok offset hread hexecute']
        simp only [ih _ hlt rfl]

theorem recvHeader_maxAlloc {env : Env} (maxAlloc : Nat) (s : HttpSession) :
    recvHeader { env with maxAlloc := maxAlloc } s = recvHeader env s := by
  have hloop : recvLoop { env with maxAlloc := maxAlloc } .new [] 0 s.input =
      recvLoop env .new [] 0 s.input := recvLoop_congr (by rfl)
  rw [recvHeader, recvHeader, hloop]

theorem of_recvHeader {env : Env} {header : Received} {s s' : HttpSession}
    (h : recvHeader env s = .ok (some header) s') :
    header.parser.data.body = [] ∧ header.offset ≤ header.data.length := by
  refine ⟨?_, (Body.recvHeader_leftover h).1⟩
  have hkeeps := keeps_execute Callback.keeps_run_body (fun _ _ hs => hs) env.machine
  unfold recvHeader at h
  split at h
  · exact (of_recvLoop hkeeps rfl h).1
  · cases h

/-! ## The body -/

/-- A request that is returned has the body that the narrowed length asks for. -/
theorem recvBody_length {env : Env} {header : Received} {req : HttpRequest} {s s' : HttpSession}
    (hempty : header.parser.data.body = []) (hdata : header.offset ≤ header.data.length)
    (h : recvBody env header s = .ok (some req) s') :
    req.body.length = (header.parser.getContentLength env.lexicalCast).toInt.toNat := by
  obtain ⟨length, hlength⟩ : ∃ length,
      (header.parser.getContentLength env.lexicalCast).toInt = length := ⟨_, rfl⟩
  unfold recvBody at h
  simp only [hlength] at h ⊢
  have htake : (header.data.take (min length.toNat header.offset)).length =
      min length.toNat header.offset := by
    rw [List.length_take]
    omega
  by_cases hzero : length ≤ 0
  · rw [if_pos hzero] at h
    cases h
    rw [hempty, Int.toNat_of_nonpos hzero]
    rfl
  · by_cases halloc : env.maxAlloc < length.toNat
    · rw [if_neg hzero, if_pos halloc] at h
      cases h
    · rw [if_neg hzero, if_neg halloc] at h
      by_cases hleft : length.toNat - header.offset = 0
      · rw [if_pos hleft] at h
        cases h
        show (header.data.take _).length = _
        omega
      · rw [if_neg hleft] at h
        by_cases hall : length.toNat - header.offset ≤ s.input.bytes.length
        · obtain ⟨rt, hfix⟩ : ∃ rt, readFixSize (length.toNat - header.offset) s =
              .ok (rt, s.input.bytes.take (length.toNat - header.offset))
                { s with input := s.input.skip (length.toNat - header.offset) } :=
            ⟨_, readFixSize_ok hall⟩
          rw [bind_ok hfix] at h
          by_cases hrt : rt ≤ 0
          · rw [if_pos hrt] at h
            obtain ⟨_, _, -, h⟩ := of_bind_ok h
            cases h
          · rw [if_neg hrt] at h
            cases h
            show (header.data.take _ ++ s.input.bytes.take _).length = _
            rw [List.length_append, htake, List.length_take]
            omega
        · rw [bind_ok (readFixSize_short (Nat.lt_of_not_le hall)), if_pos (Int.le_refl 0)] at h
          cases h

/-- Without memory no length is refused: the body is not sized, or there is an exception. -/
theorem recvBody_not_none {env : Env} {header : Received} {s s' : HttpSession}
    (halloc : env.maxAlloc = 0) : recvBody env header s ≠ .ok none s' := by
  intro h
  unfold recvBody at h
  dsimp only at h
  split at h
  · cases h
  · rw [if_pos (by omega)] at h
    cases h

/-! ## The text -/

theorem Declares.toInt {text : List UInt8} {n : Nat} (h : Declares text n) :
    ((lexicalCastUInt64 text).getD 0).toInt = n := by
  obtain ⟨hmax, minus, hvalue, hminus⟩ := h
  unfold maxBodySize at hmax
  have hfits : n < 2 ^ 64 := by omega
  rw [lexicalCastUInt64, hvalue]
  simp only [if_pos hfits, Option.getD_some]
  cases minus with
  | false =>
    have hn : (BitVec.ofNat 64 n).toNat = n := by
      rw [BitVec.toNat_ofNat, Nat.mod_eq_of_lt hfits]
    show (BitVec.ofNat 64 n).toInt = n
    rw [BitVec.toInt_eq_toNat_of_lt (by omega), hn]
  | true =>
    rw [hminus rfl]
    rfl

/-- The value of the content-length header. -/
def HasLength (header : Received) (text : List UInt8) : Prop :=
  OrderedMap.get? caseless (caseless (bytes "content-length"))
    header.parser.data.headers.entries = some text

section
variable {env : Env} {header : Received} {text : List UInt8} {s s' : HttpSession}

theorem recvRequest_maxAlloc (hheader : recvHeader env s = .ok (some header) s')
    (maxAlloc : Nat) : recvRequest { env with maxAlloc := maxAlloc } s =
      recvBody { env with maxAlloc := maxAlloc } header s' :=
  recvRequest_some ((recvHeader_maxAlloc maxAlloc s).trans hheader)

/-- The code refuses no text before it sizes the body. -/
theorem declares_of_validates (hheader : recvHeader env s = .ok (some header) s')
    (h : Validates env text s) : ∃ n, Declares text n := by
  by_contra hnot
  obtain ⟨t, hnone, -⟩ := (h 0).2 (not_exists.mp hnot)
  rw [recvRequest_maxAlloc hheader] at hnone
  exact recvBody_not_none rfl hnone

/-- It is right for the texts that declare a length up to the limit, and for no other. -/
theorem content_length_iff (hcast : env.lexicalCast = lexicalCastUInt64)
    (hheader : recvHeader env s = .ok (some header) s') (htext : HasLength header text) :
    Validates env text s ↔ ∃ n, Declares text n := by
  constructor
  · exact declares_of_validates hheader
  · rintro ⟨n, hn⟩ maxAlloc
    refine ⟨fun req t hreq => ⟨n, hn, ?_⟩, fun hnot => absurd hn (hnot n)⟩
    obtain ⟨hempty, hdata⟩ := of_recvHeader hheader
    have hlength : header.parser.getContentLength env.lexicalCast =
        (lexicalCastUInt64 text).getD 0 := by
      rw [HttpRequestParser.getContentLength, HttpRequest.getHeaderAs,
        show OrderedMap.get? caseless _ _ = some text from htext, hcast]
    rw [recvRequest_maxAlloc hheader] at hreq
    have hsize := recvBody_length hempty hdata hreq
    rw [hlength, hn.toInt, Int.toNat_natCast] at hsize
    exact hsize

end

/-! ## Plain requests -/

def castEnv : Env := ⟨plain, lexicalCastUInt64, 2 ^ 40⟩

/-- What a plain header that has been parsed says. -/
theorem hasLength_parsed {head text : List UInt8} (data : List UInt8) (offset : Nat)
    (h : OrderedMap.get? caseless (caseless (bytes "content-length"))
      (plain.parsed head).data.headers.entries = some text) :
    HasLength ⟨plain.parsed head, data, offset⟩ text := by
  unfold HasLength
  dsimp only
  exact h

theorem recvHeader_post : ∃ data : List UInt8, recvHeader castEnv ⟨cutInBody, true⟩ =
    .ok (some ⟨plain.parsed postHeader, data, 1⟩) ⟨(cutInBody.recv bufferSize).2, true⟩ := by
  have hfirst : (cutInBody.recv bufferSize).1 = postHeader ++ bytes "h" := by decide +kernel
  have hisHeader : castEnv.machine.IsHeader postHeader := postHeader_isHeader
  obtain ⟨data, -, hheader⟩ := recvHeader_covered hisHeader hfirst
  rw [if_neg (by decide +kernel)] at hheader
  exact ⟨data, hheader⟩

theorem content_length_iff_post : Validates castEnv (bytes "2") ⟨cutInBody, true⟩ := by
  obtain ⟨data, hheader⟩ := recvHeader_post
  exact (content_length_iff rfl hheader (hasLength_parsed data 1 (by decide +kernel))).mpr
    ⟨2, by decide, false, by decide +kernel, by decide⟩

def negativeHeader : List UInt8 := bytes "POST / HTTP/1.1\r\ncontent-length: -1\r\n\r\n"

theorem negativeHeader_isHeader : castEnv.machine.IsHeader negativeHeader := by decide +kernel

/-- The header in one piece, and nothing behind it. -/
def negative : Input := .whole negativeHeader (by decide)

/-- A request comes back for the length -1. -/
theorem negative_accepted : ¬ ∀ (env : Env) (header : Received) (text : List UInt8)
    (s s' : HttpSession), env.lexicalCast = lexicalCastUInt64 →
      recvHeader env s = .ok (some header) s' → HasLength header text → Validates env text s := by
  intro hall
  have hfirst : (negative.recv bufferSize).1 = negativeHeader ++ [] := by decide +kernel
  obtain ⟨data, -, hheader⟩ := recvHeader_covered negativeHeader_isHeader hfirst
  rw [if_neg (by decide +kernel)] at hheader
  have hvalid := hall castEnv _ _ _ _ rfl hheader
    (hasLength_parsed data 0 (by decide +kernel : _ = some (bytes "-1")))
  obtain ⟨n, -, minus, hvalue, hminus⟩ := declares_of_validates hheader hvalid
  rw [show signedValue (bytes "-1") = some (true, 1) by decide +kernel] at hvalue
  cases hvalue
  cases hminus rfl

end Http
end TwServer
