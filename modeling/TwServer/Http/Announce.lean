import TwServer.Http.Framing

/-! What `HttpServer::handleClient` announces to its peer and what it does. The value of
the connection header comes from the request, whether the loop goes on from the server:
and no callback of the parser sets the request's flag. -/

namespace TwServer
open Programs Program Blocks

namespace Http

/-! ## The close flag of a request -/

/-- Every request says `close`, whatever its headers say. -/
theorem recvRequest_close {env : Env} {req : HttpRequest} {s s' : HttpSession}
    (h : recvRequest env s = .ok (some req) s') : req.close = true := by
  have hkeeps := keeps_execute Callback.keeps_run_close (fun _ _ hs => hs) env.machine
  obtain ⟨header, s₁, hclose, -, hbody⟩ := of_recvRequest hkeeps rfl h
  rw [(of_recvBody hbody).1]
  exact hclose

/-! ## The events of a connection -/

/-- A call of `recvRequest` with its result, one that does not return, `sendRespond`, and
`close`. -/
inductive Event where
  | read (req : Option HttpRequest)
  | aborted
  | send (res : HttpRespond)
  | close

/-- `handleClient`, with what it does in order. -/
def serve (env : Env) (isKeepalive : Bool) (s : HttpSession) : List Event :=
  match _h : recvRequest env s with
  | .fault _ => [.aborted]
  | .throw _ _ => [.aborted]
  | .ok none _ => [.read none, .close]
  | .ok (some req) s' =>
    .read (some req) :: .send (helloRespond req.version (req.close || !isKeepalive)) ::
      if isKeepalive then serve env isKeepalive s' else [.close]
termination_by s.input.bytes.length
decreasing_by exact recvRequest_lt _h

theorem serve_none {env : Env} {isKeepalive : Bool} {s s' : HttpSession}
    (h : recvRequest env s = .ok none s') :
    serve env isKeepalive s = [.read none, .close] := by
  rw [serve]
  split
  all_goals simp_all

theorem serve_some {env : Env} {isKeepalive : Bool} {req : HttpRequest} {s s' : HttpSession}
    (h : recvRequest env s = .ok (some req) s') :
    serve env isKeepalive s =
      .read (some req) :: .send (helloRespond req.version (req.close || !isKeepalive)) ::
        if isKeepalive then serve env isKeepalive s' else [.close] := by
  rw [serve]
  split
  all_goals simp_all

theorem serve_aborted {env : Env} {isKeepalive : Bool} {s : HttpSession}
    (h : ∀ req s', recvRequest env s ≠ .ok req s') : serve env isKeepalive s = [.aborted] := by
  rw [serve]
  split
  all_goals simp_all

def Event.IsRead : Event → Prop
  | .read _ | .aborted => True
  | .send _ | .close => False

def Event.request? : Event → Option HttpRequest
  | .read req => req
  | .aborted | .send _ | .close => none

/-- The requests of the events are those that `handleClient` serves. -/
theorem serve_requests {env : Env} {isKeepalive : Bool} {reqs : List HttpRequest}
    {s s' : HttpSession} (h : handleClient env isKeepalive s = .ok reqs s') :
    (serve env isKeepalive s).filterMap Event.request? = reqs := by
  induction hn : s.input.bytes.length using Nat.strong_induction_on generalizing s reqs with
  | _ n ih =>
    rw [handleClient] at h
    split at h
    · cases h
    · cases h
    · rename_i hrecv
      cases h
      rw [serve_none hrecv]
      rfl
    · rename_i hrecv
      have hlt := recvRequest_lt hrecv
      rw [hn] at hlt
      rw [serve_some hrecv]
      cases isKeepalive with
      | true =>
        simp only [if_true] at h ⊢
        split at h
        · cases h
        · cases h
        · rename_i hrest
          cases h
          rw [List.filterMap_cons_some (by rfl), List.filterMap_cons_none (by rfl),
            ih _ hlt hrest rfl]
      | false =>
        simp only [if_false, Bool.false_eq_true] at h ⊢
        cases h
        rfl

/-- Every connection begins with a call of `recvRequest`. -/
theorem serve_head (env : Env) (isKeepalive : Bool) (s : HttpSession) :
    ∃ e rest, serve env isKeepalive s = e :: rest ∧ e.IsRead := by
  rw [serve]
  split
  all_goals exact ⟨_, _, rfl, trivial⟩

/-! ## Announcements -/

/-- The value of the connection header that `dump` writes. -/
def announced (res : HttpRespond) : Option (List UInt8) :=
  (res.lines.find? fun line => fieldName line = bytes "connection").map fieldValue

/-- What the request's own header says, ignoring case. -/
def requested (req : HttpRequest) : Option (List UInt8) :=
  (OrderedMap.get? caseless (caseless (bytes "connection")) req.headers.entries).map
    (List.map toLower)

theorem announced_hello (version : UInt8) (close : Bool) :
    announced (helloRespond version close) =
      some (bytes (if close then "close" else "keep-alive")) := by
  have hlines : (helloRespond version close).lines =
      connectionLine close :: lengthLines (bytes "hello tw") := rfl
  rw [announced, hlines, List.find?_cons_of_pos (by simp [fieldName_connectionLine])]
  exact congrArg some (fieldValue_connectionLine close)

/-- The events keep to what the responds announce: behind `close` the session is closed at
once, behind `keep-alive` the next request is read, and a server that keeps connections
alive answers a request as its header asks. -/
structure Honest (isKeepalive : Bool) (events : List Event) : Prop where
  close : ∀ before res after, events = before ++ .send res :: after →
    announced res = some (bytes "close") → after = [.close]
  keep : ∀ before res after, events = before ++ .send res :: after →
    announced res = some (bytes "keep-alive") → ∃ e rest, after = e :: rest ∧ e.IsRead
  follows : isKeepalive = true → ∀ before req res after,
    events = before ++ .read (some req) :: .send res :: after →
      ∀ value ∈ [bytes "close", bytes "keep-alive"],
        requested req = some value → announced res = some value

/-- A server that keeps connections alive says `close` and reads on. -/
theorem not_honest {env : Env} {req : HttpRequest} {s s' : HttpSession}
    (h : recvRequest env s = .ok (some req) s') : ¬Honest true (serve env true s) := by
  intro hhonest
  have hevents : serve env true s = _ := serve_some h
  rw [recvRequest_close h] at hevents
  have hafter := hhonest.close [.read (some req)] _ _ hevents (announced_hello _ _)
  obtain ⟨e, rest, hnext, hread⟩ := serve_head env true s'
  rw [if_pos rfl, hnext] at hafter
  injection hafter with he
  rw [he] at hread
  exact hread

theorem honest_of_no_send {isKeepalive : Bool} {events : List Event}
    (h : ∀ res, .send res ∉ events) : Honest isKeepalive events where
  close before res after hevents := absurd (by simp [hevents]) (h res)
  keep before res after hevents := absurd (by simp [hevents]) (h res)
  follows _ before req res after hevents := absurd (by simp [hevents]) (h res)

/-- The one respond of a connection that is then closed. -/
theorem honest_once {req : HttpRequest} {res : HttpRespond}
    (h : announced res = some (bytes "close")) :
    Honest false [.read (some req), .send res, .close] := by
  have honly : ∀ before res' after,
      [.read (some req), .send res, .close] = before ++ Event.send res' :: after →
        res' = res ∧ after = [.close] := by
    intro before res' after hevents
    rcases before with _ | ⟨e₁, _ | ⟨e₂, _ | ⟨e₃, before⟩⟩⟩
    · cases hevents
    · cases hevents
      exact ⟨rfl, rfl⟩
    · cases hevents
    · simp at hevents
  refine ⟨?_, ?_, fun hkeepalive => nomatch hkeepalive⟩
  · intro before res' after hevents _
    exact (honly before res' after hevents).2
  · intro before res' after hevents hkeep
    rw [(honly before res' after hevents).1, h] at hkeep
    exact absurd hkeep (by decide +kernel)

/-- What is announced is what is done where the server closes every connection, and
where the first read returns no request. -/
theorem honest_iff (env : Env) (isKeepalive : Bool) (s : HttpSession) :
    Honest isKeepalive (serve env isKeepalive s) ↔
      isKeepalive = false ∨ ∀ req s', recvRequest env s ≠ .ok (some req) s' := by
  have hno_request (h : ∀ req s', recvRequest env s ≠ .ok (some req) s') :
      Honest isKeepalive (serve env isKeepalive s) := by
    refine honest_of_no_send fun res => ?_
    cases hrecv : recvRequest env s with
    | ok req? s' =>
      cases req? with
      | none =>
        rw [serve_none hrecv]
        simp
      | some req => exact absurd hrecv (h req s')
    | throw what s' =>
      rw [serve_aborted (by simp [hrecv])]
      simp
    | fault why =>
      rw [serve_aborted (by simp [hrecv])]
      simp
  constructor
  · intro hhonest
    cases isKeepalive with
    | false => exact .inl rfl
    | true => exact .inr fun req s' hrecv => not_honest hrecv hhonest
  · rintro (rfl | h)
    · by_cases hrequest : ∀ req s', recvRequest env s ≠ .ok (some req) s'
      · exact hno_request hrequest
      · simp only [not_forall, not_not] at hrequest
        obtain ⟨req, s', hrecv⟩ := hrequest
        rw [serve_some hrecv, Bool.not_false, Bool.or_true]
        exact honest_once (announced_hello req.version true)
    · exact hno_request h

/-! ## A keep-alive server -/

def oneGet : Input := .whole getRequest getRequest_isHeader.ne_nil

/-- The respond to a request without a connection header says `close`; the server reads on. -/
theorem keepalive_dishonest : ¬∀ (env : Env) (isKeepalive : Bool) (s : HttpSession),
    Honest isKeepalive (serve env isKeepalive s) := by
  intro hall
  have haligned : Aligned plainEnv getSent oneGet :=
    ⟨by decide, by decide, by decide, by decide⟩
  have hinput : oneGet.bytes = getSent.wire ++ [] := by decide
  have hrecv := recvRequest_aligned getSent_wellFormed hinput haligned
  exact not_honest hrecv (hall plainEnv true ⟨oneGet, true⟩)

end Http
end TwServer
