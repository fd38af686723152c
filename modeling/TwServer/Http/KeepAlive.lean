import TwServer.Http.Segmentation

/-! Several requests on one connection: the loop of `HttpServer::handleClient`. What a
call of `recvRequest` has read beyond its own request is in a buffer that the call
takes with it. -/

namespace TwServer
open Programs Program Blocks

namespace Http

/-! ## Every call reads -/

/-- A header that is returned: bytes were read, and its parser has what calls of `execute`
keep. -/
theorem of_recvLoop {env : Env} {I : HttpRequestParser → Prop}
    (hkeeps : ∀ data len, Keeps I (HttpRequestParser.execute env.machine data len))
    {parser : HttpRequestParser} (hparser : I parser) {data : List UInt8} {offset : Nat}
    {input : Input} {header : Received} {s : HttpSession}
    (h : recvLoop env parser data offset input = .ok (some header) s) :
    I header.parser ∧ s.input.bytes.length < input.bytes.length := by
  obtain ⟨hheader, -, hlt⟩ := recvLoop_induction (I := fun parser _ _ => I parser)
    (fun {_ data offset bytes _ _ _} hparser hexecute => by
      have hleaves := hkeeps (overwrite data offset bytes) (bytes.length + offset) _ hparser
      rw [hexecute] at hleaves
      exact (Outcome.leaves_ok I _ _).mp hleaves) hparser h
  exact ⟨hheader, hlt⟩

/-- What a call of `recvRequest` that returns a request has been through. -/
theorem of_recvRequest {env : Env} {I : HttpRequestParser → Prop}
    (hkeeps : ∀ data len, Keeps I (HttpRequestParser.execute env.machine data len))
    (hnew : I .new) {req : HttpRequest} {s s' : HttpSession}
    (h : recvRequest env s = .ok (some req) s') :
    ∃ header s₁, I header.parser ∧ s₁.input.bytes.length < s.input.bytes.length ∧
      recvBody env header s₁ = .ok (some req) s' := by
  obtain ⟨header?, s₁, hheader, h⟩ := of_bind_ok h
  cases header? with
  | none => cases h
  | some header =>
    unfold recvHeader at hheader
    split at hheader
    · obtain ⟨hkept, hlt⟩ := of_recvLoop hkeeps hnew hheader
      exact ⟨header, s₁, hkept, hlt, h⟩
    · cases hheader

/-- A call that returns a request has taken bytes from the socket. -/
theorem recvRequest_lt {env : Env} {req : HttpRequest} {s s' : HttpSession}
    (h : recvRequest env s = .ok (some req) s') :
    s'.input.bytes.length < s.input.bytes.length := by
  have hkeeps (data : List UInt8) (len : Nat) :
      Keeps (fun _ => True) (HttpRequestParser.execute env.machine data len) :=
    fun _ _ _ _ => trivial
  obtain ⟨header, s₁, -, hlt, hbody⟩ := of_recvRequest hkeeps trivial h
  exact Nat.lt_of_le_of_lt (of_recvBody hbody).2.2 hlt

/-! ## `handleClient` -/

/-- The requests that the loop serves, up to the null pointer. -/
def handleClient (env : Env) (isKeepalive : Bool) (s : HttpSession) :
    Outcome HttpSession (List HttpRequest) :=
  match _h : recvRequest env s with
  | .fault why => .fault why
  | .throw what s' => .throw what s'
  | .ok none s' => .ok [] { s' with connected := false }
  | .ok (some req) s' =>
    if isKeepalive then
      match handleClient env isKeepalive s' with
      | .fault why => .fault why
      | .throw what s'' => .throw what s''
      | .ok reqs s'' => .ok (req :: reqs) s''
    else .ok [req] { s' with connected := false }
termination_by s.input.bytes.length
decreasing_by exact recvRequest_lt _h

theorem handleClient_none {env : Env} {isKeepalive : Bool} {s s' : HttpSession}
    (h : recvRequest env s = .ok none s') :
    handleClient env isKeepalive s = .ok [] { s' with connected := false } := by
  rw [handleClient]
  split
  all_goals simp_all

theorem handleClient_some {env : Env} {req : HttpRequest} {reqs : List HttpRequest}
    {s s' s'' : HttpSession} (h : recvRequest env s = .ok (some req) s')
    (hrest : handleClient env true s' = .ok reqs s'') :
    handleClient env true s = .ok (req :: reqs) s'' := by
  rw [handleClient]
  split
  all_goals simp_all

/-! ## Requests back to back -/

/-- A request on the wire. -/
structure Sent where
  header : List UInt8
  body : List UInt8

namespace Sent

def wire (r : Sent) : List UInt8 := r.header ++ r.body

/-- The header alone is parsed without an error, and declares the body. -/
structure WellFormed (env : Env) (r : Sent) : Prop where
  isHeader : env.machine.IsHeader r.header
  accepted : (env.machine.parsed r.header).error = 0
  declares : declared env r.header = r.body.length

/-- What `recvRequest` is to return for it. -/
def request (env : Env) (r : Sent) : HttpRequest :=
  { (env.machine.parsed r.header).data with body := r.body }

end Sent

/-- A call of `recvRequest` for `r`: the first read covers the header and stops within
the request, there is memory for the body, and `readFixSize` of the rest is taken for
a success. -/
structure Aligned (env : Env) (r : Sent) (input : Input) : Prop where
  covers : r.header.length ≤ (input.recv bufferSize).1.length
  within : (input.recv bufferSize).1.length ≤ r.wire.length
  allocates : r.body.length ≤ env.maxAlloc
  readable : Readable r.body.length ((input.recv bufferSize).1.length - r.header.length)

/-- Every call is aligned, where each takes its request off the input. -/
def AllAligned (env : Env) : List Sent → Input → Prop
  | [], _ => True
  | r :: rs, input => Aligned env r input ∧ AllAligned env rs (input.skip r.wire.length)

/-- One call. Of the bytes that its first read returned behind the body none is left. -/
theorem recvRequest_wellFormed {env : Env} {r : Sent} (hr : r.WellFormed env)
    (halloc : r.body.length ≤ env.maxAlloc) {input : Input} {x rest : List UInt8}
    (hfirst : (input.recv bufferSize).1 = r.header ++ x)
    (hbody : x ++ (input.recv bufferSize).2.bytes = r.body ++ rest)
    (hread : Readable r.body.length x.length) :
    recvRequest env ⟨input, true⟩ = .ok (some (r.request env))
      ⟨(input.recv bufferSize).2.skip (r.body.length - x.length), true⟩ := by
  rw [← hr.declares] at hread
  obtain ⟨data, hdata, hheader⟩ := recvHeader_covered hr.isHeader hfirst
  rw [if_neg (not_not_intro hr.accepted)] at hheader
  rw [← hr.declares] at halloc
  have hlen : declared env r.header ≤ (x ++ (input.recv bufferSize).2.bytes).length := by
    rw [hbody, hr.declares, List.length_append]
    omega
  have hreq : request env r.header (x ++ (input.recv bufferSize).2.bytes) = r.request env := by
    rw [request, hbody, hr.declares, List.take_left]
    rfl
  rw [recvRequest_some hheader,
    recvBody_ok (s := ⟨(input.recv bufferSize).2, true⟩) hdata halloc hlen hread, hreq, hr.declares]

/-- An aligned call takes one request off the connection. -/
theorem recvRequest_aligned {env : Env} {r : Sent} (hr : r.WellFormed env) {input : Input}
    {rest : List UInt8} (hinput : input.bytes = r.wire ++ rest) (haligned : Aligned env r input) :
    recvRequest env ⟨input, true⟩ =
      .ok (some (r.request env)) ⟨input.skip r.wire.length, true⟩ := by
  obtain ⟨hcover, hwithin, halloc, hread⟩ := haligned
  rw [Sent.wire, List.append_assoc] at hinput
  obtain ⟨x, hx⟩ := recv_covers hinput hcover
  have hsnd := input.recv_snd bufferSize
  rw [hx, List.length_append] at hsnd
  rw [hx, List.length_append, Nat.add_sub_cancel_left] at hread
  rw [hx, Sent.wire, List.length_append, List.length_append] at hwithin
  have hskip : (input.recv bufferSize).2.skip (r.body.length - x.length) =
      input.skip r.wire.length := by
    rw [hsnd, Input.skip_skip, Sent.wire, List.length_append]
    congr 1
    omega
  rw [recvRequest_wellFormed hr halloc hx (behind_header hinput hx) hread, hskip]

theorem recvRequest_nil (env : Env) {input : Input} (h : input.bytes = []) :
    recvRequest env ⟨input, true⟩ = .ok none ⟨.nil, false⟩ := by
  have happend := Input.recv_append (bufferSize - 0) input
  rw [h] at happend
  obtain ⟨hread, hrest⟩ := List.append_eq_nil_iff.mp happend
  have hloop : recvLoop env .new [] 0 input = .ok none ⟨.nil, false⟩ := by
    rw [recvLoop, dif_pos hread, Input.eq_nil hrest]
  exact recvRequest_none hloop

/-- Requests whose reads are aligned with them are returned one by one, with their
bodies, and then the connection is closed. -/
theorem requests_in_order {env : Env} {rs : List Sent} (hrs : ∀ r ∈ rs, r.WellFormed env)
    {input : Input} (hinput : input.bytes = rs.flatMap Sent.wire)
    (haligned : AllAligned env rs input) :
    handleClient env true ⟨input, true⟩ = .ok (rs.map (Sent.request env)) ⟨.nil, false⟩ := by
  induction rs generalizing input with
  | nil => exact handleClient_none (recvRequest_nil env hinput)
  | cons r rs ih =>
    obtain ⟨hfirst, haligned⟩ := haligned
    have hr := recvRequest_aligned (hrs r (by simp)) hinput hfirst
    have hrest : (input.skip r.wire.length).bytes = rs.flatMap Sent.wire := by
      rw [Input.bytes_skip, hinput, List.flatMap_cons, List.drop_left]
    have hrest := ih (fun r hr => hrs r (List.mem_cons_of_mem _ hr)) hrest haligned
    exact handleClient_some hr hrest

/-! ## Plain requests -/

def getSent : Sent := ⟨getRequest, []⟩

def postSent : Sent := ⟨postHeader, bytes "hi"⟩

theorem getSent_wellFormed : getSent.WellFormed plainEnv where
  isHeader := getRequest_isHeader
  accepted := by decide +kernel
  declares := by decide +kernel

theorem postSent_wellFormed : postSent.WellFormed plainEnv where
  isHeader := postHeader_isHeader
  accepted := by decide +kernel
  declares := by decide +kernel

/-- A request with a body in two pieces, then one without. -/
def apart : Input where
  pieces := [postHeader ++ bytes "h", bytes "i", getRequest]
  nonempty := by decide

theorem requests_in_order_apart :
    handleClient plainEnv true ⟨apart, true⟩ =
      .ok [postSent.request plainEnv, getSent.request plainEnv] ⟨.nil, false⟩ := by
  have hrs : ∀ r ∈ [postSent, getSent], r.WellFormed plainEnv := by
    intro r hr
    rcases List.mem_cons.mp hr with rfl | hr
    · exact postSent_wellFormed
    · rw [List.mem_singleton.mp hr]
      exact getSent_wellFormed
  have haligned : AllAligned plainEnv [postSent, getSent] apart :=
    ⟨⟨by decide, by decide, by decide, by decide⟩, ⟨by decide, by decide, by decide, by decide⟩,
      trivial⟩
  exact requests_in_order hrs (by decide) haligned

/-- Two requests that one read returns. -/
def together : Input where
  pieces := [getRequest ++ getRequest]
  nonempty := by decide

/-- The second of them is lost. -/
theorem request_lost : ¬∀ (env : Env) (rs : List Sent), (∀ r ∈ rs, r.WellFormed env) →
    ∀ input : Input, input.bytes = rs.flatMap Sent.wire →
      ∃ s, handleClient env true ⟨input, true⟩ = .ok (rs.map (Sent.request env)) s := by
  intro hall
  have hrs : ∀ r ∈ [getSent, getSent], r.WellFormed plainEnv := by
    intro r hr
    rw [show r = getSent by simpa using hr]
    exact getSent_wellFormed
  have hfirst : (together.recv bufferSize).1 = getSent.header ++ getRequest := by decide
  have hbehind : getRequest ++ (together.recv bufferSize).2.bytes = getSent.body ++ getRequest := by
    decide
  have hcall := recvRequest_wellFormed getSent_wellFormed (by decide) hfirst hbehind (by decide)
  have hnil : ((together.recv bufferSize).2.skip (getSent.body.length - getRequest.length)).bytes =
      [] := by
    decide
  have hcalls := handleClient_some hcall (handleClient_none (recvRequest_nil plainEnv hnil))
  obtain ⟨s, hs⟩ := hall plainEnv [getSent, getSent] hrs together (by decide)
  rw [hcalls] at hs
  injection hs with hreqs
  exact absurd (congrArg List.length hreqs) (by decide)

end Http
end TwServer
