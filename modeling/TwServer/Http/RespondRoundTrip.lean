import TwServer.Http.RespondHead
import TwServer.Http.RoundTrip

/-! A respond that is written by `dump` and parsed again, by the whole machine. The blanks in
front of a value are lost; what else `dump` writes comes back. -/

namespace TwServer
open Programs Program Blocks Lines

namespace Http
open HttpclientParser (httpclient isToken isDigit isBlank)
open HttpRespondParser (Head Digits IsField Measures Chunks Closes trim received)

/-! ## What is written -/

/-- `connection` as it is written, with the blank behind the colon. -/
def HttpRespond.connectionField (res : HttpRespond) : Header :=
  (bytes "connection", bytes (if res.close then " close" else " keep-alive"))

def HttpRespond.lengthField (res : HttpRespond) : Header :=
  (bytes "content-length", bytes " " ++ decimalText res.body.length)

def HttpRespond.fields (res : HttpRespond) : List Header :=
  res.headers.emitted ++ res.connectionField ::
    if res.body = [] then [] else [res.lengthField]

/-- A version that the parser knows, and a reason and headers that can be written as lines. -/
structure HttpRespond.Expressible (res : HttpRespond) : Prop where
  version : res.version = 0x10 ∨ res.version = 0x11
  reason : IsLine res.reason
  fields : ∀ h ∈ res.headers.emitted, IsField h

/-- The reason that is written. -/
def HttpRespond.phrase (res : HttpRespond) : List UInt8 :=
  if res.reason = [] then httpStatusToString res.status else res.reason

def decimalDigits (n : Nat) : Digits := ⟨decimalText n, decimalText_ne_nil n, by
  intro b hb
  obtain ⟨hlo, hhi⟩ := decimalText_digits b hb
  unfold isDigit
  rw [Bool.and_eq_true]
  exact ⟨decide_eq_true hlo, decide_eq_true hhi⟩⟩

theorem isField_connection (res : HttpRespond) : IsField res.connectionField := by
  have hboth : ∀ close : Bool, IsLine (bytes (if close then " close" else " keep-alive")) := by
    decide
  have htoken : ∀ b ∈ bytes "connection", isToken b = true := by decide +kernel
  exact ⟨reserved_names.1, htoken, hboth res.close⟩

theorem isField_length (res : HttpRespond) : IsField res.lengthField := by
  have htoken : ∀ b ∈ bytes "content-length", isToken b = true := by decide +kernel
  exact ⟨reserved_names.2.1, htoken,
    isLine_append.mpr ⟨isLine_constant " " (by decide), isLine_decimalText _⟩⟩

theorem phrase_ne (res : HttpRespond) : res.phrase ≠ [] := by
  have hmap : ∀ entry ∈ statusMap, bytes entry.2 ≠ [] := by decide
  unfold HttpRespond.phrase
  by_cases hreason : res.reason = []
  · rw [if_pos hreason]
    unfold httpStatusToString
    cases hfind : statusMap.find? fun entry => entry.1 = res.status with
    | none => decide
    | some entry => exact hmap entry (List.mem_of_find?_eq_some hfind)
  · rwa [if_neg hreason]

section
variable {res : HttpRespond} (h : res.Expressible)
include h

theorem isLine_phrase : IsLine res.phrase := by
  unfold HttpRespond.phrase
  split
  · exact isLine_status res.status
  · exact h.reason

theorem isField_fields : ∀ field ∈ res.fields, IsField field := by
  intro field hfield
  rcases List.mem_append.mp hfield with hemitted | hadded
  · exact h.fields field hemitted
  · rcases List.mem_cons.mp hadded with rfl | hlength
    · exact isField_connection res
    · split at hlength
      · cases hlength
      · rw [List.mem_singleton.mp hlength]
        exact isField_length res

end

/-- The text of a respond in front of its body. -/
def HttpRespond.head (res : HttpRespond) (h : res.Expressible) : Head where
  major := decimalDigits (res.version >>> 4).toNat
  minor := decimalDigits (res.version &&& 0x0f).toNat
  status := decimalDigits res.status.toNat
  reason := res.phrase
  fields := res.fields
  reason_ne := phrase_ne res
  reason_line := isLine_phrase h
  fields_ok := isField_fields h

theorem dump_head {res : HttpRespond} (h : res.Expressible) :
    res.dump = (res.head h).text ++ res.body := by
  have hconnection : ∀ close : Bool, connectionLine close = headerLine
      (bytes "connection", bytes (if close then " close" else " keep-alive")) := by
    decide
  have hlength : lengthLine res.body = headerLine res.lengthField := by
    have hname : bytes "content-length: " = bytes "content-length" ++ bytes ":" ++ bytes " " := by
      decide
    rw [lengthLine, headerLine, HttpRespond.lengthField, hname, List.append_assoc _ (bytes " ")]
  have hlines : res.lines = res.fields.map headerLine := by
    have hrest : lengthLines res.body =
        (if res.body = [] then [] else [res.lengthField]).map headerLine := by
      unfold lengthLines
      split
      · rfl
      · rw [hlength]
        rfl
    rw [HttpRespond.lines, HttpRespond.fields, List.map_append, List.map_cons, hrest,
      hconnection res.close]
    rfl
  have hstart : (res.head h).startLine = res.startLine := rfl
  rw [HttpRespond.dump_eq, Head.text, hlines, hstart]
  rfl

theorem trim_length (res : HttpRespond) : trim res.lengthField.2 = decimalText res.body.length := by
  have hspace : bytes " " = [32] := rfl
  have hfirst : ∀ b ∈ decimalText res.body.length, isBlank b = false := by
    intro b hb
    have hdigit := decimalText_digits b hb
    unfold isBlank
    grind
  obtain ⟨b, text, htext⟩ := List.exists_cons_of_ne_nil (decimalText_ne_nil res.body.length)
  rw [HttpRespond.lengthField, hspace, trim, List.singleton_append,
    List.dropWhile_cons_of_pos (by decide), htext, List.dropWhile_cons_of_neg]
  rw [hfirst b (by simp [htext])]
  exact Bool.false_ne_true

/-- The last line that is written has its value. -/
theorem finished_head {res : HttpRespond} (h : res.Expressible) : ¬(res.head h).Unfinished := by
  have hconnection : ∀ close : Bool,
      ¬HttpRespondParser.Opens
        (bytes "connection", bytes (if close then " close" else " keep-alive")) := by
    decide +kernel
  rintro ⟨field, hlast, hopens⟩
  have hfield : field = res.connectionField ∨ field = res.lengthField := by
    have hfields : (res.head h).fields = res.headers.emitted ++ res.connectionField ::
        if res.body = [] then [] else [res.lengthField] := rfl
    rw [hfields, List.getLast?_append_cons] at hlast
    split at hlast
    · exact .inl (Option.some.inj hlast).symm
    · exact .inr (Option.some.inj hlast).symm
  rcases hfield with rfl | rfl
  · exact hconnection res.close hopens
  · have hlength := hopens.1
    rw [trim_length] at hlength
    exact decimalText_ne_nil _ hlength

/-! ## What is read back -/

/-- A header as it is read. -/
def trimmed (h : Header) : Header := (h.1, trim h.2)

/-- The length that header lines leave in the parser. -/
def contentLenOf (hs : List Header) (n : Int) : Int :=
  hs.foldl (fun n h => if Measures h then
    HttpRespondParser.toInt (min (2 ^ 63 - 1) (Strtol.number 10 (trim h.2))) else n) n

/-- What header lines make of the parser. -/
theorem foldl_received (hs : List Header) (s : HttpRespondParser) :
    hs.foldl (fun s h => received h s) s = { s with
      data := { s.data with headers := s.data.headers.putAll (hs.map trimmed) }
      contentLen := contentLenOf hs s.contentLen
      chunked := s.chunked || hs.any (Chunks ·)
      close := s.close || hs.any (Closes ·) } := by
  induction hs generalizing s with
  | nil => simp [HeaderMap.putAll, contentLenOf]
  | cons h hs ih =>
    rw [List.foldl_cons, ih]
    simp [received, Bool.or_assoc, HeaderMap.putAll, HttpRespond.setHeader, trimmed, contentLenOf]

/-- A name that an emitted header does not have. -/
theorem emitted_name {res : HttpRespond} (h : res.Expressible) {field : Header}
    (hfield : field ∈ res.headers.emitted) : field.1.map toLower ≠ bytes "connection" := by
  have hskipped : caseless field.1 ≠ caseless (bytes "connection") :=
    of_decide_eq_true (List.mem_filter.mp hfield).2
  have hnul : field.1.takeWhile (· ≠ 0) = field.1 := by
    rw [List.takeWhile_eq_self_iff]
    intro b hb
    refine decide_eq_true ?_
    rintro rfl
    exact absurd ((h.fields field hfield).name 0 hb) (by decide)
  have hconnection : caseless (bytes "connection") = bytes "connection" := by decide
  rw [hconnection, caseless, hnul] at hskipped
  exact hskipped

theorem closes_fields {res : HttpRespond} (h : res.Expressible) :
    res.fields.any (Closes ·) = res.close := by
  have hemitted : res.headers.emitted.any (Closes ·) = false :=
    List.any_eq_false.mpr fun field hfield => by
      simpa using fun hcloses : Closes field => emitted_name h hfield hcloses.1
  have hconnection : ∀ close : Bool,
      decide (Closes (bytes "connection", bytes (if close then " close" else " keep-alive"))) =
        close := by
    decide
  have hlength : ¬Closes res.lengthField := by
    rintro ⟨hname, -⟩
    exact absurd hname (by show (bytes "content-length").map toLower ≠ _; decide)
  rw [HttpRespond.fields, List.any_append, hemitted, List.any_cons, Bool.false_or]
  have hrest : (if res.body = [] then [] else [res.lengthField]).any (Closes ·) = false := by
    split
    · rfl
    · simpa using hlength
  rw [hrest, Bool.or_false]
  exact hconnection res.close

theorem chunks_fields (res : HttpRespond) :
    res.fields.any (Chunks ·) = res.headers.emitted.any (Chunks ·) := by
  have hconnection : ¬Chunks res.connectionField := by
    rintro ⟨hname, -⟩
    exact absurd hname (by show (bytes "connection").map toLower ≠ _; decide)
  have hlength : ¬Chunks res.lengthField := by
    rintro ⟨hname, -⟩
    exact absurd hname (by show (bytes "content-length").map toLower ≠ _; decide)
  rw [HttpRespond.fields, List.any_append, List.any_cons, decide_eq_false hconnection,
    Bool.false_or]
  have hrest : (if res.body = [] then [] else [res.lengthField]).any (Chunks ·) = false := by
    split
    · rfl
    · simpa using hlength
  rw [hrest, Bool.or_false]

theorem number_decimalText (n : Nat) : Strtol.number 10 (decimalText n) = n := by
  refine Eq.trans (List.foldl_ext _ _ 0 ?_) (decimalText_value n)
  intro value b hb
  rw [Strtol.value, if_pos (decimalText_digits b hb)]

/-- The length that the parser ends with. -/
theorem contentLenOf_fields (res : HttpRespond) (n : Int) (hlen : res.body.length < 2 ^ 31) :
    contentLenOf res.fields n =
      if res.body = [] then contentLenOf res.headers.emitted n else res.body.length := by
  have hconnection : ¬Measures res.connectionField := by
    rintro ⟨hname, -⟩
    exact absurd hname (by show (bytes "connection").map toLower ≠ _; decide)
  have hlength : Measures res.lengthField := by
    refine ⟨by show (bytes "content-length").map toLower = _; decide, ?_⟩
    rw [trim_length]
    exact (decimalDigits res.body.length).2
  have hnumber : HttpRespondParser.toInt
      (min (2 ^ 63 - 1) (Strtol.number 10 (trim res.lengthField.2))) = res.body.length := by
    rw [trim_length, number_decimalText, min_eq_right (by omega)]
    exact HttpclientParser.bmod_eq_iff.mpr hlen
  rw [HttpRespond.fields, contentLenOf, List.foldl_append, List.foldl_cons, if_neg hconnection]
  split
  · rfl
  · rw [List.foldl_cons, if_pos hlength, hnumber]
    rfl

theorem keep_trimmed (p : List UInt8 → Bool) (hs : List Header) :
    OrderedMap.keep p caseless (hs.map trimmed) = (OrderedMap.keep p caseless hs).map trimmed := by
  unfold OrderedMap.keep
  rw [List.filter_map]
  rfl

/-- The headers that `dump` does not write itself come back without their blanks. -/
theorem others_fields (res : HttpRespond) :
    (HeaderMap.empty.putAll (res.fields.map trimmed)).others = res.headers.others.map trimmed := by
  have hrest : OrderedMap.keep (fun view => view ≠ caseless (bytes "connection") ∧
        view ≠ caseless (bytes "content-length")) caseless res.fields = res.headers.others := by
    have hadded : OrderedMap.keep (fun view => view ≠ caseless (bytes "connection") ∧
        view ≠ caseless (bytes "content-length")) caseless
        (res.connectionField :: if res.body = [] then [] else [res.lengthField]) = [] := by
      unfold OrderedMap.keep HttpRespond.connectionField HttpRespond.lengthField
      split <;> simp
    have hkept : OrderedMap.keep (fun view => view ≠ caseless (bytes "connection") ∧
        view ≠ caseless (bytes "content-length")) caseless res.headers.emitted =
        res.headers.others := by
      refine OrderedMap.keep_keep _ fun view hview => ?_
      exact decide_eq_true (of_decide_eq_true hview).1
    rw [HttpRespond.fields, OrderedMap.keep, List.filter_append]
    exact (congrArg₂ _ hkept hadded).trans (List.append_nil _)
  have hsorted : OrderedMap.Sorted less caseless (res.headers.others.map trimmed) :=
    List.pairwise_map.mpr (res.headers.sorted.keep _)
  rw [HeaderMap.others, HeaderMap.entries_putAll,
    OrderedMap.keep_putAll _ strict_less HeaderMap.empty.sorted, keep_trimmed, hrest]
  exact OrderedMap.putAll_sorted hsorted fun _ ha => absurd ha List.not_mem_nil

/-- A status is read as the code that it was written from. -/
theorem status_read (status : UInt32) :
    (⟨BitVec.ofInt 32 (HttpRespondParser.toInt
      (min (2 ^ 63 - 1) (Strtol.number 10 (decimalText status.toNat))))⟩ : UInt32) = status := by
  have hsmall : status.toNat < 2 ^ 32 := status.toNat_lt
  have hword : BitVec.ofInt 32 ((status.toNat : Int).bmod (2 ^ 32)) = status.toBitVec := by
    refine BitVec.eq_of_toInt_eq ?_
    rw [BitVec.toInt_ofInt, Int.bmod_bmod, BitVec.toInt_eq_toNat_bmod]
    rfl
  rw [number_decimalText, min_eq_right (by omega), HttpRespondParser.toInt, hword]

/-- A version that the parser knows. -/
theorem versionText_known {version : UInt8} (h : version = 0x10 ∨ version = 0x11) :
    (versionText version = bytes "HTTP/1.1" ∨ versionText version = bytes "HTTP/1.0") ∧
      (if versionText version = bytes "HTTP/1.1" then 0x11
        else if versionText version = bytes "HTTP/1.0" then 0x10 else 0x11) = version := by
  rcases h with rfl | rfl
  · decide
  · decide

/-- A respond that is written can be read: the head is consumed and the body moved to the front,
and what the parser has then is what the respond says. -/
theorem execute_dump {res : HttpRespond} (h : res.Expressible) (hlen : res.dump.length < 2 ^ 31)
    (chunck : Bool) : ∃ moved s,
      HttpRespondParser.execute httpclient (res.dump ++ [0]) res.dump.length chunck .new =
        .ok (BitVec.ofNat 64 (res.dump.length - res.body.length), moved) s ∧
      moved.take res.body.length = res.body ∧ s.isFinished = 1 ∧ s.hasError = false ∧
      s.data.version = res.version ∧ s.data.status = res.status ∧ s.data.reason = res.phrase ∧
      s.data.headers.others = res.headers.others.map trimmed ∧ s.close = res.close ∧
      s.chunked = res.headers.emitted.any (Chunks ·) ∧
      s.contentLen =
        if res.body = [] then contentLenOf res.headers.emitted (-1) else res.body.length := by
  have hdump := dump_head h
  have hstart : HttpRespondParser.new.start chunck = .new := by
    cases chunck with
    | true => rfl
    | false => rfl
  rw [hdump] at hlen ⊢
  have hinit : (HttpRespondParser.new.start chunck).parser = .init := congrArg _ hstart
  obtain ⟨parser, hrun, hcs⟩ := HttpRespondParser.head_accepted hlen hinit
  rw [(Head.finalState_iff _).mpr (finished_head h)] at hcs
  have hoffset : ((res.head h).text ++ res.body).length - res.body.length =
      (res.head h).text.length := by
    rw [List.length_append, Nat.add_sub_cancel]
  rw [hoffset]
  have hversion := versionText_known h.version
  have happly : (res.head h).apply .new = _ := foldl_received _ _
  rw [hstart, happly] at hrun
  refine ⟨_, _, hrun, ?_, ?_, ?_, ?_, ?_, ?_, ?_, ?_, ?_, ?_⟩
  · simp [overwrite]
  · rw [HttpRespondParser.isFinished, hcs]
    rfl
  · refine HttpRespondParser.hasError_eq_false_iff.mpr ⟨if_pos hversion.1, ?_⟩
    rw [hcs]
    decide
  · exact hversion.2
  · exact status_read res.status
  · rfl
  · exact others_fields res
  · exact closes_fields h
  · exact chunks_fields res
  · exact contentLenOf_fields res (-1) (by rw [List.length_append] at hlen; omega)

/-- Two bytes of a server. -/
def plainRespond : HttpRespond :=
  { HttpRespond.new 0x11 false with
    body := bytes "hi"
    headers := HeaderMap.empty.put (bytes "Server") (bytes " tw") }

theorem plainRespond_expressible : plainRespond.Expressible where
  version := .inr rfl
  reason := by
    show IsLine []
    decide
  fields := by
    have hfields : ∀ h ∈ plainRespond.headers.emitted,
        h.1 ≠ [] ∧ (∀ b ∈ h.1, isToken b = true) ∧ IsLine h.2 := by
      decide +kernel
    intro h hh
    obtain ⟨hne, hname, hvalue⟩ := hfields h hh
    exact ⟨hne, hname, hvalue⟩

theorem execute_dump_plain : ∃ moved s,
    HttpRespondParser.execute httpclient (plainRespond.dump ++ [0]) plainRespond.dump.length false
        .new =
      .ok (BitVec.ofNat 64 (plainRespond.dump.length - plainRespond.body.length), moved) s ∧
    moved.take plainRespond.body.length = plainRespond.body ∧ s.isFinished = 1 ∧
    s.hasError = false ∧ s.data.version = plainRespond.version ∧
    s.data.status = plainRespond.status ∧ s.data.reason = plainRespond.phrase ∧
    s.data.headers.others = plainRespond.headers.others.map trimmed ∧
    s.close = plainRespond.close ∧
    s.chunked = plainRespond.headers.emitted.any (Chunks ·) ∧
    s.contentLen = if plainRespond.body = [] then contentLenOf plainRespond.headers.emitted (-1)
      else plainRespond.body.length :=
  execute_dump plainRespond_expressible (by decide) false

end Http
end TwServer
