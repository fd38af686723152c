import TwServer.Http.Scanning
import TwServer.Http.Session
import TwServer.Http.Table

/-! How the cuts of a request decide what `recvRequest` makes of it. A read that
covers the header is parsed as the header alone. One that does not leaves marks and
a byte count behind that belong to a buffer which is gone. -/

namespace TwServer
open Programs Program Blocks Automaton

namespace Http

/-! ## The first read -/

/-- The buffer after the `memmove` starts with what followed the header. -/
theorem moved_take (l r : List UInt8) :
    (overwrite (l ++ r) 0 (slice (l ++ r) l.length ((l ++ r).length - l.length))).take r.length =
      r := by
  have hslice : slice (l ++ r) l.length ((l ++ r).length - l.length) = r := by
    simp [slice]
  rw [hslice, overwrite, List.take_zero, List.nil_append, List.take_left]

theorem overwrite_empty (b : List UInt8) : overwrite [] 0 b = b := by simp [overwrite]

theorem bytes_ne_nil {env : Env} {hd body : List UInt8} (h : env.machine.IsHeader hd)
    {input : Input} (hinput : input.bytes = hd ++ body) : input.bytes ≠ [] := by
  rw [hinput]
  exact h.append_ne_nil body

theorem behind_header {hd body r : List UInt8} {input : Input} (hinput : input.bytes = hd ++ body)
    (hfirst : (input.recv bufferSize).1 = hd ++ r) : r ++ (input.recv bufferSize).2.bytes = body := by
  have happend := Input.recv_append bufferSize input
  rw [hfirst, hinput, List.append_assoc] at happend
  exact List.append_cancel_left happend

/-- A first read that is long enough has the header in front. -/
theorem recv_covers {hd body : List UInt8} {input : Input} (hinput : input.bytes = hd ++ body)
    (hcover : hd.length ≤ (input.recv bufferSize).1.length) :
    ∃ r, (input.recv bufferSize).1 = hd ++ r := by
  have happend := Input.recv_append bufferSize input
  rw [hinput] at happend
  have hprefix := List.prefix_of_prefix_length_le (List.prefix_append hd body) ⟨_, happend⟩ hcover
  exact hprefix.imp fun r hr => hr.symm

/-- What lies in front of a header's end is the start of the header. -/
theorem short_of_header {l t hd body : List UInt8} (hl : l ++ t = hd ++ body)
    (hshort : l.length < hd.length) : ∃ y, hd = l ++ y := by
  have hprefix := List.prefix_of_prefix_length_le ⟨t, hl⟩ (List.prefix_append hd body) hshort.le
  exact hprefix.imp fun y hy => hy.symm

/-- The first read of the loop, when the machine moves at all. -/
theorem recvLoop_first (env : Env) {input : Input}
    (hne : input.bytes ≠ []) {first : List UInt8} (hfirst : (input.recv bufferSize).1 = first)
    (hmoved : (env.machine.scan .init first).consumed ≠ 0) :
    recvLoop env .new [] 0 input =
      let offset := first.length - (env.machine.scan .init first).consumed
      let data := overwrite first 0 (slice first (env.machine.scan .init first).consumed offset)
      if (env.machine.parsed first).hasError then .ok none ⟨(input.recv bufferSize).2, false⟩
      else if (env.machine.parsed first).isFinished then
        .ok (some ⟨env.machine.parsed first, data, offset⟩) ⟨(input.recv bufferSize).2, true⟩
      else recvLoop env (env.machine.parsed first) data offset (input.recv bufferSize).2 := by
  have hread : first ≠ [] := by
    rw [← hfirst]
    exact Input.recv_ne_nil (by decide) hne
  have hle : first.length ≤ bufferSize := by
    rw [← hfirst]
    exact Input.recv_le _ _
  have hpos := List.length_pos_iff.mpr hread
  have hsmall : first.length < 2 ^ 31 := lt_of_le_of_lt hle (by decide)
  have hroom : ¬first.length - (env.machine.scan .init first).consumed = bufferSize := by omega
  rw [recvLoop, Nat.sub_zero]
  simp only [hfirst, dif_neg hread, overwrite_empty, Nat.add_zero,
    env.machine.execute_new hread hsmall, if_neg hroom]

section
variable {env : Env} {parser : HttpRequestParser} {data : List UInt8} {input : Input}
  (offset : Nat) (hread : (input.recv (bufferSize - offset)).1 ≠ [])
include hread

theorem recvLoop_throw {what : String} {s : HttpRequestParser}
    (h : HttpRequestParser.execute env.machine
      (overwrite data offset (input.recv (bufferSize - offset)).1)
      ((input.recv (bufferSize - offset)).1.length + offset) parser = .throw what s) :
    recvLoop env parser data offset input =
      .throw what ⟨(input.recv (bufferSize - offset)).2, true⟩ := by
  rw [recvLoop]
  simp only [dif_neg hread, h]

theorem recvLoop_ok {nparser : Nat} {moved : List UInt8} {s : HttpRequestParser}
    (h : HttpRequestParser.execute env.machine
      (overwrite data offset (input.recv (bufferSize - offset)).1)
      ((input.recv (bufferSize - offset)).1.length + offset) parser = .ok (nparser, moved) s) :
    recvLoop env parser data offset input =
      let left := (input.recv (bufferSize - offset)).1.length + offset - nparser
      if s.hasError then .ok none ⟨(input.recv (bufferSize - offset)).2, false⟩
      else if left = bufferSize then .ok none ⟨(input.recv (bufferSize - offset)).2, false⟩
      else if s.isFinished then
        .ok (some ⟨s, moved, left⟩) ⟨(input.recv (bufferSize - offset)).2, true⟩
      else recvLoop env s moved left (input.recv (bufferSize - offset)).2 := by
  rw [recvLoop]
  simp only [dif_neg hread, h]

theorem recvLoop_fault {why : Fault}
    (h : HttpRequestParser.execute env.machine
      (overwrite data offset (input.recv (bufferSize - offset)).1)
      ((input.recv (bufferSize - offset)).1.length + offset) parser = .fault why) :
    recvLoop env parser data offset input = .fault why := by
  rw [recvLoop]
  simp only [dif_neg hread, h]

end

/-- What every call of `execute` keeps holds of a header that is returned, and bytes
were read for it. -/
theorem recvLoop_induction {env : Env} {I : HttpRequestParser → List UInt8 → Nat → Prop}
    (hstep : ∀ {parser data offset bytes nparser moved parser'}, I parser data offset →
      HttpRequestParser.execute env.machine (overwrite data offset bytes)
        (bytes.length + offset) parser = .ok (nparser, moved) parser' →
      I parser' moved (bytes.length + offset - nparser))
    {parser : HttpRequestParser} {data : List UInt8} {offset : Nat} {input : Input}
    {header : Received} {s : HttpSession} (hinit : I parser data offset)
    (h : recvLoop env parser data offset input = .ok (some header) s) :
    I header.parser header.data header.offset ∧ s.connected = true ∧
      s.input.bytes.length < input.bytes.length := by
  induction hn : input.bytes.length using Nat.strong_induction_on
    generalizing parser data offset input with
  | _ n ih =>
    rw [recvLoop] at h
    by_cases hread : (input.recv (bufferSize - offset)).1 = []
    · rw [dif_pos hread] at h
      cases h
    · have hlt := Input.recv_lt hread
      rw [hn] at hlt
      simp only [dif_neg hread] at h
      split at h
      · cases h
      · cases h
      · rename_i hexecute
        have hkept := hstep hinit hexecute
        split at h
        · cases h
        · split at h
          · cases h
          · split at h
            · cases h
              exact ⟨hkept, rfl, hlt⟩
            · obtain ⟨hheader, hconnected, hless⟩ := ih _ hlt hkept h rfl
              exact ⟨hheader, hconnected, hless.trans hlt⟩

section
variable {env : Env} {hd body : List UInt8} (h : env.machine.IsHeader hd)
include h

theorem header_pos : 0 < hd.length := List.length_pos_iff.mpr h.ne_nil

theorem parsed_hasError (hhd : hd.length < 2 ^ 63) :
    (env.machine.parsed hd).hasError = decide ((env.machine.parsed hd).error ≠ 0) := by
  have hcs := h.cs_final
  rw [← env.machine.parsed_cs hd hhd] at hcs
  have hne : (env.machine.parsed hd).parser.cs ≠ errorState := by
    intro heq
    rw [heq] at hcs
    exact absurd hcs (by decide)
  simp [HttpRequestParser.hasError, hne]

theorem parsed_isFinished (hhd : hd.length < 2 ^ 63) :
    (env.machine.parsed hd).isFinished = true := by
  have hcs := h.cs_final
  rw [← env.machine.parsed_cs hd hhd] at hcs
  simp [HttpRequestParser.isFinished, hcs]

/-- A read that covers the header: the rest of it is the start of the body. -/
theorem recvHeader_covered {input : Input} {r : List UInt8}
    (hfirst : (input.recv bufferSize).1 = hd ++ r) :
    ∃ data, data.take r.length = r ∧ recvHeader env ⟨input, true⟩ =
      if (env.machine.parsed hd).error ≠ 0 then .ok none ⟨(input.recv bufferSize).2, false⟩
      else .ok (some ⟨env.machine.parsed hd, data, r.length⟩) ⟨(input.recv bufferSize).2, true⟩ := by
  have hle : (hd ++ r).length ≤ bufferSize := by
    rw [← hfirst]
    exact Input.recv_le _ _
  have hsmall : (hd ++ r).length < 2 ^ 63 := lt_of_le_of_lt hle (by decide)
  have hhd : hd.length < 2 ^ 63 := by
    rw [List.length_append] at hsmall
    omega
  have hne : input.bytes ≠ [] := by
    rw [← Input.recv_append bufferSize input, hfirst]
    simp [h.ne_nil]
  have hconsumed : (env.machine.scan .init (hd ++ r)).consumed = hd.length := by
    rw [h.scan_append, h.2]
  have hmoved : (env.machine.scan .init (hd ++ r)).consumed ≠ 0 := by
    rw [hconsumed]
    exact (header_pos h).ne'
  have hoffset : (hd ++ r).length - hd.length = r.length := by simp
  refine ⟨_, moved_take hd r, ?_⟩
  show recvLoop env .new [] 0 input = _
  rw [recvLoop_first env hne hfirst hmoved, hconsumed, h.parsed_append hsmall,
    parsed_hasError h hhd, parsed_isFinished h hhd]
  simp only [decide_eq_true_eq, if_true, hoffset]

end

theorem recvRequest_some {env : Env} {header : Received} {s s' : HttpSession}
    (h : recvHeader env s = .ok (some header) s') :
    recvRequest env s = recvBody env header s' := bind_ok h

theorem recvRequest_none {env : Env} {s s' : HttpSession}
    (h : recvHeader env s = .ok none s') : recvRequest env s = .ok none s' := bind_ok h

/-! ## The body -/

/-- `readFixSize` of the bytes missing after `offset` is taken for a success. -/
def Readable (length offset : Nat) : Prop :=
  length ≤ offset ∨ 0 < ((length - offset : Nat) : Int).bmod (2 ^ 32)

instance (length offset : Nat) : Decidable (Readable length offset) :=
  inferInstanceAs (Decidable (_ ∨ _))

/-- What the header declares, as the length of a body; 0 for a negative `int64_t`. -/
def declared (env : Env) (hd : List UInt8) : Nat :=
  ((env.machine.parsed hd).getContentLength env.lexicalCast).toInt.toNat

/-- The request with its body. -/
def request (env : Env) (hd body : List UInt8) : HttpRequest :=
  { (env.machine.parsed hd).data with body := body.take (declared env hd) }

theorem request_of_declared_zero {env : Env} {hd : List UInt8} (hzero : declared env hd = 0)
    (body : List UInt8) : request env hd body = (env.machine.parsed hd).data := by
  rw [request, hzero, List.take_zero, ← env.machine.parsed_body hd]

section
variable {env : Env} {hd data r : List UInt8} {s : HttpSession}

/-- The body is there and every count fits. -/
theorem recvBody_ok (hdata : data.take r.length = r) (halloc : declared env hd ≤ env.maxAlloc)
    (hbody : declared env hd ≤ (r ++ s.input.bytes).length)
    (hread : Readable (declared env hd) r.length) :
    recvBody env ⟨env.machine.parsed hd, data, r.length⟩ s =
      .ok (some (request env hd (r ++ s.input.bytes)))
        { s with input := s.input.skip (declared env hd - r.length) } := by
  unfold recvBody
  by_cases hzero : ((env.machine.parsed hd).getContentLength env.lexicalCast).toInt ≤ 0
  · have hdeclared : declared env hd = 0 := Int.toNat_of_nonpos hzero
    rw [if_pos hzero, request_of_declared_zero hdeclared, hdeclared, Nat.zero_sub, Input.skip_zero]
    rfl
  · have hlen : ((env.machine.parsed hd).getContentLength env.lexicalCast).toInt.toNat =
      declared env hd := rfl
    simp only [if_neg hzero, hlen, if_neg (Nat.not_lt.mpr halloc)]
    by_cases hleft : declared env hd - r.length = 0
    · have hle := Nat.le_of_sub_eq_zero hleft
      rw [if_pos hleft, hleft, Input.skip_zero, Nat.min_eq_left hle]
      have htake : data.take (declared env hd) = (r ++ s.input.bytes).take (declared env hd) := by
        rw [List.take_append_of_le_length hle, ← hdata, List.take_take, Nat.min_eq_left hle]
      rw [htake]
      rfl
    · have hlt : r.length < declared env hd := by omega
      rw [List.length_append] at hbody
      obtain ⟨rt, hfix, hrt⟩ : ∃ rt, readFixSize (declared env hd - r.length) s =
          .ok (rt, s.input.bytes.take (declared env hd - r.length))
            { s with input := s.input.skip (declared env hd - r.length) } ∧ ¬rt ≤ 0 := by
        refine ⟨_, readFixSize_ok (by omega), ?_⟩
        exact Int.not_le.mpr (hread.resolve_left (Nat.not_le.mpr hlt))
      rw [if_neg hleft, bind_ok hfix, if_neg hrt, Nat.min_eq_right hlt.le, hdata]
      have htake : r ++ s.input.bytes.take (declared env hd - r.length) =
          (r ++ s.input.bytes).take (declared env hd) := by
        rw [List.take_append, List.take_of_length_le hlt.le]
      rw [htake]
      rfl

theorem recvBody_throws (halloc : env.maxAlloc < declared env hd) (off : Nat) :
    recvBody env ⟨env.machine.parsed hd, data, off⟩ s = .throw "std::bad_alloc" s := by
  unfold recvBody
  have hzero : ¬((env.machine.parsed hd).getContentLength env.lexicalCast).toInt ≤ 0 := by
    intro hle
    rw [show declared env hd = 0 from Int.toNat_of_nonpos hle] at halloc
    exact Nat.not_lt_zero _ halloc
  rw [if_neg hzero]
  exact congrFun (if_pos halloc) s

/-- Bytes are missing, or the number of them is taken for a failure. -/
theorem recvBody_fails (data : List UInt8) (halloc : declared env hd ≤ env.maxAlloc)
    (hlt : r.length < declared env hd)
    (hfail : (r ++ s.input.bytes).length < declared env hd ∨
      ¬Readable (declared env hd) r.length) :
    ∃ input, recvBody env ⟨env.machine.parsed hd, data, r.length⟩ s =
      .ok none ⟨input, false⟩ := by
  have hzero : ¬((env.machine.parsed hd).getContentLength env.lexicalCast).toInt ≤ 0 := by
    intro hle
    rw [show declared env hd = 0 from Int.toNat_of_nonpos hle] at hlt
    exact Nat.not_lt_zero _ hlt
  have hlen : ((env.machine.parsed hd).getContentLength env.lexicalCast).toInt.toNat =
    declared env hd := rfl
  have hleft : declared env hd - r.length ≠ 0 := by omega
  obtain ⟨rt, buffer, input, hfix, hrt⟩ : ∃ rt buffer input,
      readFixSize (declared env hd - r.length) s = .ok (rt, buffer) { s with input := input } ∧
        rt ≤ 0 := by
    by_cases hshort : s.input.bytes.length < declared env hd - r.length
    · exact ⟨0, [], .nil, readFixSize_short hshort, Int.le_refl 0⟩
    · refine ⟨_, _, _, readFixSize_ok (Nat.le_of_not_lt hshort), ?_⟩
      rw [List.length_append] at hfail
      rcases hfail with hfail | hfail
      · omega
      · exact Int.not_lt.mp fun hpos => hfail (.inr hpos)
  refine ⟨input, ?_⟩
  unfold recvBody
  simp only [if_neg hzero, hlen, if_neg (Nat.not_lt.mpr halloc), if_neg hleft]
  rw [bind_ok hfix, if_pos hrt]
  rfl

end

theorem of_readFixSize {length : Nat} {rt : Int} {buffer : List UInt8} {s s' : HttpSession}
    (h : readFixSize length s = .ok (rt, buffer) s') :
    buffer.length ≤ s.input.bytes.length ∧ s'.input.bytes.length ≤ s.input.bytes.length := by
  by_cases hlen : length ≤ s.input.bytes.length
  · rw [readFixSize_ok hlen] at h
    injection h with hr hs
    injection hr with hrt hbuffer
    rw [← hbuffer, ← hs]
    refine ⟨?_, ?_⟩
    · rw [List.length_take]
      exact Nat.min_le_right _ _
    · show (s.input.skip length).bytes.length ≤ _
      rw [Input.bytes_skip, List.length_drop]
      exact Nat.sub_le _ _
  · rw [readFixSize_short (Nat.lt_of_not_le hlen)] at h
    injection h with hr hs
    injection hr with hrt hbuffer
    rw [← hbuffer, ← hs]
    exact ⟨Nat.zero_le _, Nat.zero_le _⟩

/-- The body of a request that is returned comes out of the buffer and the socket, its
close flag out of the header. -/
theorem of_recvBody {env : Env} {header : Received} {req : HttpRequest} {s s' : HttpSession}
    (h : recvBody env header s = .ok (some req) s') :
    req.close = header.parser.data.close ∧
      (req.body = header.parser.data.body ∨
        req.body.length ≤ header.offset + s.input.bytes.length) ∧
      s'.input.bytes.length ≤ s.input.bytes.length := by
  unfold recvBody at h
  by_cases hzero : (header.parser.getContentLength env.lexicalCast).toInt ≤ 0
  · rw [if_pos hzero] at h
    cases h
    exact ⟨rfl, .inl rfl, Nat.le_refl _⟩
  · by_cases halloc :
        env.maxAlloc < (header.parser.getContentLength env.lexicalCast).toInt.toNat
    · simp only [if_neg hzero, if_pos halloc] at h
      cases h
    · have htake (n : Nat) : (header.data.take (min n header.offset)).length ≤ header.offset := by
        rw [List.length_take]
        omega
      by_cases hleft :
          (header.parser.getContentLength env.lexicalCast).toInt.toNat - header.offset = 0
      · simp only [if_neg hzero, if_neg halloc, if_pos hleft] at h
        cases h
        exact ⟨rfl, .inr ((htake _).trans (Nat.le_add_right _ _)), Nat.le_refl _⟩
      · simp only [if_neg hzero, if_neg halloc, if_neg hleft] at h
        obtain ⟨⟨rt, buffer⟩, s₁, hfix, h⟩ := of_bind_ok h
        obtain ⟨hbuffer, hrest⟩ := of_readFixSize hfix
        by_cases hrt : rt ≤ 0
        · rw [if_pos hrt] at h
          obtain ⟨_, _, -, h⟩ := of_bind_ok h
          cases h
        · rw [if_neg hrt] at h
          cases h
          refine ⟨rfl, .inr ?_, hrest⟩
          rw [List.length_append]
          exact Nat.add_le_add (htake _) hbuffer

/-! ## A covered header -/

/-- The result, and whether the session is still connected. -/
def reply : Outcome HttpSession (Option HttpRequest) → Outcome Bool (Option HttpRequest)
  | .ok req s => .ok req s.connected
  | .throw what s => .throw what s.connected
  | .fault why => .fault why

/-- What `recvRequest` makes of a header and a body of which the first read has `off` bytes. -/
def answer (env : Env) (hd body : List UInt8) (off : Nat) : Outcome Bool (Option HttpRequest) :=
  if (env.machine.parsed hd).error ≠ 0 then .ok none false
  else if env.maxAlloc < declared env hd then .throw "std::bad_alloc" true
  else if declared env hd ≤ body.length ∧ Readable (declared env hd) off then
    .ok (some (request env hd body)) true
  else .ok none false

theorem recvRequest_covered {env : Env} {hd body r : List UInt8} {input : Input}
    (h : env.machine.IsHeader hd) (hinput : input.bytes = hd ++ body)
    (hfirst : (input.recv bufferSize).1 = hd ++ r) :
    reply (recvRequest env ⟨input, true⟩) = answer env hd body r.length := by
  have hbody := behind_header hinput hfirst
  obtain ⟨data, hdata, hheader⟩ := recvHeader_covered h hfirst
  unfold answer
  by_cases herror : (env.machine.parsed hd).error ≠ 0
  · rw [if_pos herror] at hheader ⊢
    rw [recvRequest_none hheader]
    rfl
  · rw [if_neg herror] at hheader ⊢
    rw [recvRequest_some hheader]
    by_cases halloc : env.maxAlloc < declared env hd
    · rw [if_pos halloc, recvBody_throws halloc]
      rfl
    · have halloc' := Nat.le_of_not_lt halloc
      rw [if_neg halloc]
      by_cases hgood : declared env hd ≤ body.length ∧ Readable (declared env hd) r.length
      · rw [if_pos hgood]
        rw [← hbody] at hgood ⊢
        rw [recvBody_ok hdata halloc' hgood.1 hgood.2]
        rfl
      · rw [if_neg hgood]
        have hfail : (r ++ (input.recv bufferSize).2.bytes).length < declared env hd ∨
            ¬Readable (declared env hd) r.length := by
          rw [hbody]
          by_cases hlen : declared env hd ≤ body.length
          · exact .inr fun hread => hgood ⟨hlen, hread⟩
          · exact .inl (Nat.lt_of_not_le hlen)
        have hlt : r.length < declared env hd := by
          rcases hfail with hshort | hread
          · rw [List.length_append] at hshort
            omega
          · exact Nat.lt_of_not_le fun hle => hread (.inl hle)
        obtain ⟨input', hnone⟩ :=
          recvBody_fails data (s := ⟨(input.recv bufferSize).2, true⟩) halloc' hlt hfail
        rw [hnone]
        rfl

/-! ## A header in several reads -/

section
variable {env : Env} {hd body : List UInt8} (h : env.machine.IsHeader hd)
include h

/-- The machine stops behind the header. -/
theorem scan_consumed {l t : List UInt8} (hl : l ++ t = hd ++ body) :
    (env.machine.scan .init l).consumed = min l.length hd.length := by
  rcases List.append_eq_append_iff.mp hl with ⟨y, hy, -⟩ | ⟨z, hz, -⟩
  · by_cases hnil : y = []
    · rw [hnil, List.append_nil] at hy
      rw [← hy, h.2, Nat.min_self]
    · have hrun : (env.machine.scan .init l).status = .running := by
        rw [hy] at h
        exact h.running hnil
      have hconsumed : (env.machine.scan .init l).consumed = l.length := consumed_of_running hrun
      rw [hconsumed, hy, List.length_append]
      omega
  · rw [hz, h.scan_append, h.2, List.length_append]
    omega

theorem running_of_short {l t : List UInt8} (hl : l ++ t = hd ++ body)
    (hshort : l.length < hd.length) : (env.machine.scan .init l).status = .running := by
  obtain ⟨y, rfl⟩ := short_of_header hl hshort
  refine h.running ?_
  rintro rfl
  simp at hshort

/-- The byte count of the parser goes on where the buffer starts again. A second call
returns only if the second buffer is as long as the header, which it then finishes. -/
theorem execute_again {first second t : List UInt8} (moved : List UInt8) (hfirst : first ≠ [])
    (hsecond : second ≠ []) (hl : first ++ (second ++ t) = hd ++ body)
    (hshort : first.length < hd.length) (hsmall : first.length < 2 ^ 63)
    {r : Nat × List UInt8} {s : HttpRequestParser}
    (hok : HttpRequestParser.execute env.machine (overwrite moved 0 second) second.length
      (env.machine.parsed first) = .ok r s) :
    hd.length ≤ second.length ∧ r.1 = hd.length ∧ firstFinal ≤ s.parser.cs ∧ s.data.body = [] := by
  obtain ⟨n, s', hexecute, hmove⟩ := of_bind_ok hok
  cases hmove
  obtain ⟨hn, hnread, s₁, hcalls, hs⟩ :=
    of_httpParserExecute (List.length_pos_iff.mpr hsecond).ne' hexecute
  have hbuffer : (overwrite moved 0 second).take second.length = second := by
    rw [overwrite, List.take_zero, List.nil_append, List.take_left]
  rw [hbuffer] at hn hcalls hs
  have hrun := running_of_short h hl hshort
  obtain ⟨hcount, hne, -⟩ := env.machine.parsed_running hsmall hrun
  obtain ⟨hconsumed, hcs⟩ := env.machine.scan_again hsmall hrun second
  rw [← List.append_assoc] at hl
  rw [scan_consumed h hl, List.length_append] at hconsumed
  have hpos := List.length_pos_iff.mpr hfirst
  have hle : hd.length ≤ second.length := by omega
  refine ⟨hle, by show n = hd.length; omega, ?_, ?_⟩
  · obtain ⟨z, hz⟩ := List.prefix_of_prefix_length_le (List.prefix_append hd body) ⟨t, hl⟩
      (by rw [List.length_append]; omega)
    have hfinal := h.cs_final
    rw [← h.scan_append z, hz, hcs] at hfinal
    rw [hs]
    show firstFinal ≤ (if (env.machine.parsed first).parser.cs = errorState then _ else _)
    rw [if_neg hne]
    exact hfinal
  · have hkeeps := keeps_forM (Callback.keeps_run_body (overwrite moved 0 second))
      (env.machine.scan (env.machine.parsed first).parser second).state.calls _
      (env.machine.parsed_body first)
    rw [hcalls] at hkeeps
    rw [hs]
    exact (Outcome.leaves_ok (fun s => s.data.body = []) () s₁).mp hkeeps

variable {input : Input} (hinput : input.bytes = hd ++ body)
  (hshort : (input.recv bufferSize).1.length < hd.length)
include hinput hshort

theorem first_facts :
    (input.recv bufferSize).1 ≠ [] ∧ (input.recv bufferSize).1.length < 2 ^ 63 ∧
      (env.machine.scan .init (input.recv bufferSize).1).status = .running ∧
      (env.machine.scan .init (input.recv bufferSize).1).consumed =
        (input.recv bufferSize).1.length := by
  have hne := bytes_ne_nil h hinput
  have hl : (input.recv bufferSize).1 ++ (input.recv bufferSize).2.bytes = hd ++ body := by
    rw [Input.recv_append, hinput]
  have hrun := running_of_short h hl hshort
  exact ⟨Input.recv_ne_nil (by decide) hne,
    lt_of_le_of_lt (Input.recv_le bufferSize input) (by decide), hrun, consumed_of_running hrun⟩

omit h in
theorem second_facts :
    ((input.recv bufferSize).2.recv bufferSize).1 ≠ [] ∧
      (input.recv bufferSize).1 ++ (((input.recv bufferSize).2.recv bufferSize).1 ++
        ((input.recv bufferSize).2.recv bufferSize).2.bytes) = hd ++ body := by
  have happend := Input.recv_append bufferSize input
  have hrest : (input.recv bufferSize).2.bytes ≠ [] := by
    intro hnil
    rw [hnil, List.append_nil, hinput] at happend
    rw [happend, List.length_append] at hshort
    omega
  refine ⟨Input.recv_ne_nil (by decide) hrest, ?_⟩
  rw [Input.recv_append, happend, hinput]

/-- The loop after a read that does not cover the header. -/
theorem recvLoop_short : ∃ moved, recvLoop env .new [] 0 input =
    if (env.machine.parsed (input.recv bufferSize).1).error ≠ 0 then
      .ok none ⟨(input.recv bufferSize).2, false⟩
    else recvLoop env (env.machine.parsed (input.recv bufferSize).1) moved 0
      (input.recv bufferSize).2 := by
  obtain ⟨hfirst, hsmall, hrun, hconsumed⟩ := first_facts h hinput hshort
  obtain ⟨-, hne, hlt⟩ := env.machine.parsed_running hsmall hrun
  have hbytes := bytes_ne_nil h hinput
  have hmoved : (env.machine.scan .init (input.recv bufferSize).1).consumed ≠ 0 := by
    rw [hconsumed]
    exact (List.length_pos_iff.mpr hfirst).ne'
  refine ⟨(input.recv bufferSize).1, ?_⟩
  rw [recvLoop_first env hbytes rfl hmoved, hconsumed, Nat.sub_self]
  simp [HttpRequestParser.hasError, HttpRequestParser.isFinished, hne, Nat.not_le.mpr hlt]

theorem recvRequest_rejected (herror : (env.machine.parsed (input.recv bufferSize).1).error ≠ 0) :
    recvRequest env ⟨input, true⟩ = .ok none ⟨(input.recv bufferSize).2, false⟩ := by
  obtain ⟨moved, hloop⟩ := recvLoop_short h hinput hshort
  rw [if_pos herror] at hloop
  exact recvRequest_none hloop

/-- After a first read inside the header the second one ends the program, or `std::string`
throws, or it is as long as the header and its parser is done. -/
theorem recvRequest_again (herror : (env.machine.parsed (input.recv bufferSize).1).error = 0) :
    (∃ why, recvRequest env ⟨input, true⟩ = .fault why) ∨
      (∃ s, recvRequest env ⟨input, true⟩ = .throw "basic_string::_M_create" s) ∨
      hd.length ≤ ((input.recv bufferSize).2.recv bufferSize).1.length ∧
        (recvRequest env ⟨input, true⟩ =
            .ok none ⟨((input.recv bufferSize).2.recv bufferSize).2, false⟩ ∨
          ∃ parser moved, parser.data.body = [] ∧ recvRequest env ⟨input, true⟩ =
            recvBody env ⟨parser, moved,
                ((input.recv bufferSize).2.recv bufferSize).1.length - hd.length⟩
              ⟨((input.recv bufferSize).2.recv bufferSize).2, true⟩) := by
  obtain ⟨hfirst, hsmall, -, -⟩ := first_facts h hinput hshort
  obtain ⟨moved, hloop⟩ := recvLoop_short h hinput hshort
  rw [if_neg (not_not_intro herror)] at hloop
  obtain ⟨hne, hl⟩ := second_facts hinput hshort
  cases hexecute : HttpRequestParser.execute env.machine
      (overwrite moved 0 ((input.recv bufferSize).2.recv bufferSize).1)
      ((input.recv bufferSize).2.recv bufferSize).1.length
      (env.machine.parsed (input.recv bufferSize).1) with
  | throw what s =>
    rw [throws_execute _ _ _ _ _ _ hexecute] at hexecute
    exact .inr (.inl ⟨_, bind_throw (hloop.trans (recvLoop_throw 0 hne hexecute))⟩)
  | fault why => exact .inl ⟨why, bind_fault (hloop.trans (recvLoop_fault 0 hne hexecute))⟩
  | ok r s =>
    obtain ⟨n, moved'⟩ := r
    obtain ⟨hle, hn, hfinal, hbody⟩ := execute_again h moved hfirst hne hl hshort hsmall hexecute
    have hn : n = hd.length := hn
    have hagain := hloop.trans (recvLoop_ok 0 hne hexecute)
    refine .inr (.inr ⟨hle, ?_⟩)
    by_cases herror' : s.hasError = true
    · rw [if_pos herror'] at hagain
      exact .inl (recvRequest_none hagain)
    · have hfull : ((input.recv bufferSize).2.recv bufferSize).1.length - hd.length ≠
          bufferSize := by
        have := Input.recv_le bufferSize (input.recv bufferSize).2
        have := header_pos h
        omega
      have hfinished : s.isFinished = true := by
        simp [HttpRequestParser.isFinished, hfinal]
      rw [if_neg herror', Nat.add_zero, hn] at hagain
      simp only [Nat.sub_zero, if_neg hfull, if_pos hfinished] at hagain
      exact .inr ⟨s, moved', hbody, recvRequest_some hagain⟩

/-- A request that is returned then has lost as much of its body as the first read had
of the header. -/
theorem recvRequest_shortened {req : HttpRequest} {s : HttpSession}
    (hok : recvRequest env ⟨input, true⟩ = .ok (some req) s) :
    req.body.length + (input.recv bufferSize).1.length ≤ body.length ∨ req.body = [] := by
  by_cases herror : (env.machine.parsed (input.recv bufferSize).1).error = 0
  · have hlen := Input.length_recv bufferSize input
    have hlen' := Input.length_recv bufferSize (input.recv bufferSize).2
    rw [hinput, List.length_append] at hlen
    rcases recvRequest_again h hinput hshort herror with ⟨why, hfault⟩ | ⟨s', hthrow⟩ |
      ⟨hle, hnone | ⟨parser, moved, hbody, hrecv⟩⟩
    · rw [hfault] at hok
      cases hok
    · rw [hthrow] at hok
      cases hok
    · rw [hnone] at hok
      cases hok
    · rw [hrecv] at hok
      rcases (of_recvBody hok).2.1 with hempty | hshorter
      · exact .inr (hempty.trans hbody)
      · left
        simp only at hshorter
        omega
  · rw [recvRequest_rejected h hinput hshort herror] at hok
    cases hok

end

/-! ## Cuts -/

/-- The cuts with the outcome of the single read: the first read covers the header, and
where the whole declared body follows both ways of reading it succeed or neither does;
or what the first read has of the header is rejected. -/
def Meets (env : Env) (hd body : List UInt8) (input : Input) : Prop :=
  if hd.length ≤ (input.recv bufferSize).1.length then
    (env.machine.parsed hd).error ≠ 0 ∨ env.maxAlloc < declared env hd ∨
      body.length < declared env hd ∨
      (Readable (declared env hd) ((input.recv bufferSize).1.length - hd.length) ↔
        Readable (declared env hd) (min bufferSize (hd ++ body).length - hd.length))
  else (env.machine.parsed (input.recv bufferSize).1).error ≠ 0

/-- `recvRequest` ends as on the same bytes in one piece. -/
def Same (env : Env) (input : Input) (bs : List UInt8) (h : bs ≠ []) : Prop :=
  reply (recvRequest env ⟨input, true⟩) = reply (recvRequest env ⟨.whole bs h, true⟩)

theorem recv_whole {bs : List UInt8} (h : bs ≠ []) (n : Nat) :
    ((Input.whole bs h).recv n).1 = bs.take n := by
  show (if n < bs.length then (bs.take n, [bs.drop n]) else (bs, [])).1 = bs.take n
  split
  · rfl
  · exact (List.take_of_length_le (Nat.le_of_not_lt ‹_›)).symm

theorem answer_cases (env : Env) (hd body : List UInt8) (off : Nat) :
    (∃ req connected, answer env hd body off = .ok req connected) ∨
      answer env hd body off = .throw "std::bad_alloc" true := by
  unfold answer
  split
  · exact .inl ⟨_, _, rfl⟩
  · split
    · exact .inr rfl
    · split
      · exact .inl ⟨_, _, rfl⟩
      · exact .inl ⟨_, _, rfl⟩

theorem answer_eq_iff (env : Env) (hd body : List UInt8) (a b : Nat) :
    answer env hd body a = answer env hd body b ↔
      (env.machine.parsed hd).error ≠ 0 ∨ env.maxAlloc < declared env hd ∨
        body.length < declared env hd ∨
        (Readable (declared env hd) a ↔ Readable (declared env hd) b) := by
  unfold answer
  by_cases herror : (env.machine.parsed hd).error ≠ 0
  · simp [herror]
  · by_cases halloc : env.maxAlloc < declared env hd
    · simp [herror, halloc]
    · by_cases hlen : declared env hd ≤ body.length
      · by_cases ha : Readable (declared env hd) a <;> by_cases hb : Readable (declared env hd) b <;>
          simp [herror, halloc, hlen, ha, hb, Nat.not_lt.mpr hlen]
      · simp [herror, halloc, hlen, Nat.lt_of_not_le hlen]

theorem of_reply {o : Outcome HttpSession (Option HttpRequest)} {req : HttpRequest}
    {connected : Bool} (h : reply o = .ok (some req) connected) : ∃ s, o = .ok (some req) s := by
  cases o with
  | ok r s =>
    injection h with hr hs
    exact ⟨s, by rw [hr]⟩
  | throw what s => cases h
  | fault why => cases h

/-- Cuts for which `Meets` is known to be necessary too: the header is covered, or the
second read is shorter than it, or the single read returns a request and behind its
body less follows than the first read had of the header. -/
def Decided (env : Env) (hd body : List UInt8) (input : Input) : Prop :=
  hd.length ≤ (input.recv bufferSize).1.length ∨
    ((input.recv bufferSize).2.recv bufferSize).1.length < hd.length ∨
    ((env.machine.parsed hd).error = 0 ∧ declared env hd ≤ env.maxAlloc ∧
      declared env hd ≤ body.length ∧
      Readable (declared env hd) (min bufferSize (hd ++ body).length - hd.length) ∧
      body.length < declared env hd + (input.recv bufferSize).1.length)

/-- A second read does not end as a read of the whole does. -/
theorem reply_ne_answer {env : Env} {hd body : List UInt8} (h : env.machine.IsHeader hd)
    {input : Input} (hinput : input.bytes = hd ++ body)
    (hshort : (input.recv bufferSize).1.length < hd.length)
    (herror : (env.machine.parsed (input.recv bufferSize).1).error = 0)
    (hdecided : Decided env hd body input) :
    reply (recvRequest env ⟨input, true⟩) ≠
      answer env hd body (min bufferSize (hd ++ body).length - hd.length) := by
  intro hsame
  rcases recvRequest_again h hinput hshort herror with ⟨why, hfault⟩ | ⟨s, hthrow⟩ | ⟨hle, -⟩
  · rw [hfault] at hsame
    rcases answer_cases env hd body (min bufferSize (hd ++ body).length - hd.length) with
      ⟨req, connected, hok⟩ | hbad
    · rw [hok] at hsame
      cases hsame
    · rw [hbad] at hsame
      cases hsame
  · rw [hthrow] at hsame
    rcases answer_cases env hd body (min bufferSize (hd ++ body).length - hd.length) with
      ⟨req, connected, hok⟩ | hbad
    · rw [hok] at hsame
      cases hsame
    · rw [hbad] at hsame
      injection hsame with hwhat
      exact absurd hwhat (by decide)
  · rcases hdecided with hcover | hsecond | ⟨haccepted, halloc, hbody, hread, hbehind⟩
    · omega
    · omega
    · have hanswer : answer env hd body (min bufferSize (hd ++ body).length - hd.length) =
          .ok (some (request env hd body)) true := by
        rw [answer, if_neg (not_not_intro haccepted), if_neg (Nat.not_lt.mpr halloc),
          if_pos ⟨hbody, hread⟩]
      obtain ⟨s, hok⟩ := of_reply (hsame.trans hanswer)
      have hlen : (request env hd body).body.length = declared env hd := by
        show (body.take (declared env hd)).length = declared env hd
        rw [List.length_take, Nat.min_eq_left hbody]
      have htotal := Input.length_recv bufferSize input
      have htotal' := Input.length_recv bufferSize (input.recv bufferSize).2
      rw [hinput, List.length_append] at htotal
      rcases recvRequest_shortened h hinput hshort hok with hshorter | hempty
      · omega
      · rw [hempty, List.length_nil] at hlen
        omega

section
variable {env : Env} {hd body : List UInt8} (h : env.machine.IsHeader hd)
  (hsize : hd.length ≤ bufferSize)
include h hsize

theorem whole_reply :
    reply (recvRequest env ⟨.whole (hd ++ body) (h.append_ne_nil body), true⟩) =
      answer env hd body (min bufferSize (hd ++ body).length - hd.length) := by
  have hbytes : (Input.whole (hd ++ body) (h.append_ne_nil body)).bytes = hd ++ body := by
    simp [Input.bytes, Input.whole]
  have hfirst : ((Input.whole (hd ++ body) (h.append_ne_nil body)).recv bufferSize).1 =
      hd ++ body.take (bufferSize - hd.length) := by
    rw [recv_whole, List.take_append, List.take_of_length_le hsize]
  rw [recvRequest_covered h hbytes hfirst]
  congr 1
  rw [List.length_take, List.length_append]
  omega

/-- `recvRequest` is indifferent to the cuts that meet the condition, and to no other
one of those that `Decided` names. -/
theorem segmentation_iff {input : Input} (hinput : input.bytes = hd ++ body) :
    (Meets env hd body input → Same env input (hd ++ body) (h.append_ne_nil body)) ∧
      (Decided env hd body input →
        (Same env input (hd ++ body) (h.append_ne_nil body) ↔ Meets env hd body input)) := by
  unfold Meets Same
  rw [whole_reply h hsize]
  by_cases hcover : hd.length ≤ (input.recv bufferSize).1.length
  · obtain ⟨r, hr⟩ := recv_covers hinput hcover
    have hoff : (input.recv bufferSize).1.length - hd.length = r.length := by
      rw [hr, List.length_append, Nat.add_sub_cancel_left]
    rw [if_pos hcover, recvRequest_covered h hinput hr, answer_eq_iff, hoff]
    exact ⟨id, fun _ => Iff.rfl⟩
  · have hshort := Nat.lt_of_not_le hcover
    rw [if_neg hcover]
    have hmeets : (env.machine.parsed (input.recv bufferSize).1).error ≠ 0 →
        reply (recvRequest env ⟨input, true⟩) =
          answer env hd body (min bufferSize (hd ++ body).length - hd.length) := by
      intro herror
      obtain ⟨y, hy⟩ := short_of_header ((Input.recv_append bufferSize input).trans hinput) hshort
      have hhd : (env.machine.parsed hd).error ≠ 0 := by
        have hlen : ((input.recv bufferSize).1 ++ y).length < 2 ^ 63 := by
          rw [← hy]
          exact lt_of_le_of_lt hsize (by decide)
        rw [hy]
        exact env.machine.parsed_error hlen herror
      rw [recvRequest_rejected h hinput hshort herror, answer, if_pos hhd]
      rfl
    refine ⟨hmeets, fun hdecided => ⟨fun hsame herror => ?_, hmeets⟩⟩
    exact reply_ne_answer h hinput hshort herror hdecided hsame

end

/-! ## Plain requests -/

def plainEnv : Env := ⟨plain, decimal, 2 ^ 40⟩

def getRequest : List UInt8 := bytes "GET / HTTP/1.1\r\n\r\n"

def postHeader : List UInt8 := bytes "POST / HTTP/1.1\r\ncontent-length: 2\r\n\r\n"

theorem getRequest_isHeader : plainEnv.machine.IsHeader getRequest := by decide +kernel

theorem postHeader_isHeader : plainEnv.machine.IsHeader postHeader := by decide +kernel

/-- A body in two pieces, the first of them with the header. -/
def cutInBody : Input where
  pieces := [postHeader ++ bytes "h", bytes "i"]
  nonempty := by decide

theorem segmentation_iff_body :
    Same plainEnv cutInBody (postHeader ++ bytes "hi")
      (postHeader_isHeader.append_ne_nil (bytes "hi")) := by
  have hmeets : Meets plainEnv postHeader (bytes "hi") cutInBody := by
    unfold Meets
    rw [if_pos (by decide)]
    exact .inr (.inr (.inr (by decide +kernel)))
  exact (segmentation_iff postHeader_isHeader (by decide) (by decide)).1 hmeets

/-- A header in two pieces. -/
def cutInHeader : Input where
  pieces := [bytes "GET / ", bytes "HTTP/1.1\r\n\r\n"]
  nonempty := by decide

theorem header_cut : ¬∀ (env : Env) (hd body : List UInt8) (h : env.machine.IsHeader hd),
    hd.length ≤ bufferSize → ∀ input : Input, input.bytes = hd ++ body →
      Same env input (hd ++ body) (h.append_ne_nil body) := by
  intro hall
  have hsize : getRequest.length ≤ bufferSize := by decide
  have hinput : cutInHeader.bytes = getRequest ++ [] := by decide
  have hsame := hall plainEnv getRequest [] getRequest_isHeader hsize cutInHeader hinput
  have herror : (plainEnv.machine.parsed (cutInHeader.recv bufferSize).1).error = 0 := by
    decide +kernel
  unfold Same at hsame
  rw [whole_reply getRequest_isHeader hsize] at hsame
  have hsecond : ((cutInHeader.recv bufferSize).2.recv bufferSize).1.length < getRequest.length := by
    decide
  exact reply_ne_answer getRequest_isHeader hinput (by decide) herror (.inr (.inl hsecond)) hsame

end Http
end TwServer
