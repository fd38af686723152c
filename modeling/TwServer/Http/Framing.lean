import TwServer.Http.Serialise
import TwServer.Http.KeepAlive

/-! The framing of serialised messages: which lines a reader finds between the start
line and the body, and what they say about the body's length. `dump` skips the keys
of the map that are its connection header, but not those that are the other one it
adds. -/

namespace TwServer
open Lines

namespace Http

/-! ## Header lines -/

abbrev IsLine (l : List UInt8) : Prop := OneLine 13 10 l

instance (l : List UInt8) : Decidable (IsLine l) := inferInstanceAs (Decidable (_ ∧ _))

/-- What stands before the colon, ignoring case. -/
def fieldName (line : List UInt8) : List UInt8 := (line.takeWhile (· ≠ 58)).map toLower

/-- What stands behind it, without blanks in front. -/
def fieldValue (line : List UInt8) : List UInt8 :=
  ((line.dropWhile (· ≠ 58)).drop 1).dropWhile (· = 32)

/-- The number of lines with a name. -/
def countNamed (name : String) (lines : List (List UInt8)) : Nat :=
  lines.countP fun line => fieldName line = bytes name

/-- The text is the start line, header lines, an empty line and the body; one line is
the connection header, at most one declares a length, and a body is declared. -/
def Framed (start body text : List UInt8) : Prop :=
  IsLine start ∧ ∃ lines, (∀ line ∈ lines, 58 ∈ line ∧ IsLine line) ∧
    text = start ++ crlf ++ block 13 10 lines ++ body ∧
    countNamed "connection" lines = 1 ∧ countNamed "content-length" lines ≤ 1 ∧
    (body ≠ [] → ∃ line ∈ lines, fieldName line = bytes "content-length" ∧
      fieldValue line = decimalText body.length)

theorem framed_iff_lines {start body : List UInt8} {lines : List (List UInt8)}
    (hlines : ∀ line ∈ lines, 58 ∈ line ∧ IsLine line) :
    Framed start body (start ++ crlf ++ block 13 10 lines ++ body) ↔
      IsLine start ∧ countNamed "connection" lines = 1 ∧ countNamed "content-length" lines ≤ 1 ∧
        (body ≠ [] → ∃ line ∈ lines, fieldName line = bytes "content-length" ∧
          fieldValue line = decimalText body.length) := by
  have hmarks {lines : List (List UInt8)} (h : ∀ line ∈ lines, 58 ∈ line ∧ IsLine line) :
      ∀ line ∈ lines, line ≠ [] ∧ 13 ∉ line :=
    fun line hline => ⟨List.ne_nil_of_mem (h line hline).1, (h line hline).2.1⟩
  constructor
  · rintro ⟨hstart, lines', hlines', htext, hcounts⟩
    simp only [List.append_assoc] at htext
    have hblock := List.append_cancel_left (List.append_cancel_left htext)
    obtain ⟨rfl, -⟩ := block_inj (hmarks hlines) (hmarks hlines') hblock
    exact ⟨hstart, hcounts⟩
  · rintro ⟨hstart, hcounts⟩
    exact ⟨hstart, lines, hlines, rfl, hcounts⟩

/-! ## The lines of `dump` -/

theorem fieldName_headerLine (h : Header) : fieldName (headerLine h) = fieldName h.1 := by
  have htake : ∀ key : List UInt8, (key ++ 58 :: h.2).takeWhile (· ≠ 58) =
      key.takeWhile (· ≠ 58) := by
    intro key
    induction key with
    | nil => simp
    | cons b key ih =>
      rw [List.cons_append, List.takeWhile_cons, List.takeWhile_cons, ih]
  have hline : headerLine h = h.1 ++ 58 :: h.2 := List.append_assoc h.1 [58] h.2
  rw [fieldName, hline, htake, fieldName]

theorem fieldName_connectionLine (close : Bool) :
    fieldName (connectionLine close) = bytes "connection" := by
  revert close
  decide +kernel

theorem fieldValue_connectionLine (close : Bool) :
    fieldValue (connectionLine close) = bytes (if close then "close" else "keep-alive") := by
  revert close
  decide +kernel

theorem fieldName_lengthLine (body : List UInt8) :
    fieldName (lengthLine body) = bytes "content-length" := by
  have hline : lengthLine body =
      headerLine (bytes "content-length", bytes " " ++ decimalText body.length) := by
    rw [lengthLine, headerLine, ← List.append_assoc]
    congr 1
  rw [hline, fieldName_headerLine]
  show fieldName (bytes "content-length") = bytes "content-length"
  decide +kernel

theorem fieldValue_lengthLine (body : List UInt8) :
    fieldValue (lengthLine body) = decimalText body.length := by
  have hdrop : ((lengthLine body).dropWhile (· ≠ 58)).drop 1 =
      32 :: decimalText body.length := rfl
  rw [fieldValue, hdrop, List.dropWhile_cons_of_pos (by decide)]
  obtain ⟨b, text, htext⟩ := List.exists_cons_of_ne_nil (decimalText_ne_nil body.length)
  have hb := decimalText_digits b (htext ▸ List.mem_cons_self)
  rw [htext, List.dropWhile_cons_of_neg]
  rw [decide_eq_true_eq]
  rintro rfl
  exact absurd hb (by decide)

/-! ## Texts without marks -/

theorem isLine_append {a b : List UInt8} : IsLine (a ++ b) ↔ IsLine a ∧ IsLine b := oneLine_append

theorem isLine_decimalText (n : Nat) : IsLine (decimalText n) := by
  refine ⟨fun hmem => ?_, fun hmem => ?_⟩
  · exact absurd (decimalText_digits 13 hmem) (by decide)
  · exact absurd (decimalText_digits 10 hmem) (by decide)

/-- The texts that every message has. -/
theorem isLine_constant : ∀ text ∈ ["<unknown>", " ", "?", "#", ":", "HTTP/", ".",
    "content-length: "], IsLine (bytes text) := by
  decide +kernel

theorem isLine_method (m : HttpMethod) : IsLine (httpMethodToString m) := by
  have hmap : ∀ entry ∈ methodMap, IsLine (bytes entry.2) := by decide +kernel
  unfold httpMethodToString
  cases hfind : methodMap.find? fun entry => entry.1 = m with
  | none => exact isLine_constant "<unknown>" (by decide)
  | some entry => exact hmap entry (List.mem_of_find?_eq_some hfind)

theorem isLine_status (s : UInt32) : IsLine (httpStatusToString s) := by
  have hmap : ∀ entry ∈ statusMap, IsLine (bytes entry.2) := by decide +kernel
  unfold httpStatusToString
  cases hfind : statusMap.find? fun entry => entry.1 = s with
  | none => exact isLine_constant "<unknown>" (by decide)
  | some entry => exact hmap entry (List.mem_of_find?_eq_some hfind)

theorem isLine_versionText (version : UInt8) : IsLine (versionText version) := by
  simp only [versionText, isLine_append]
  exact ⟨⟨⟨isLine_constant "HTTP/" (by decide), isLine_decimalText _⟩,
    isLine_constant "." (by decide)⟩, isLine_decimalText _⟩

/-- A header line of `dump`. -/
def IsHeaderLine (line : List UInt8) : Prop := 58 ∈ line ∧ IsLine line

instance (line : List UInt8) : Decidable (IsHeaderLine line) := inferInstanceAs (Decidable (_ ∧ _))

theorem isHeaderLine_connectionLine (close : Bool) : IsHeaderLine (connectionLine close) := by
  revert close
  decide +kernel

theorem isHeaderLine_lengthLine (body : List UInt8) : IsHeaderLine (lengthLine body) :=
  ⟨List.mem_append_left _ (by decide +kernel),
    isLine_append.mpr ⟨isLine_constant "content-length: " (by decide), isLine_decimalText _⟩⟩

theorem isLine_request (req : HttpRequest) :
    IsLine req.startLine ↔ IsLine req.path ∧ IsLine req.query ∧ IsLine req.fragment := by
  have hspace : IsLine (bytes " ") := isLine_constant " " (by decide)
  have hquery : IsLine (if req.query = [] then [] else bytes "?") := by
    split
    · decide
    · exact isLine_constant "?" (by decide)
  have hfragment : IsLine (if req.fragment = [] then [] else bytes "#") := by
    split
    · decide
    · exact isLine_constant "#" (by decide)
  simp only [HttpRequest.startLine, isLine_append, isLine_method, isLine_versionText, hspace,
    hquery, hfragment, true_and, and_true, and_assoc]

theorem isLine_respond (res : HttpRespond) (hreason : IsLine res.reason) :
    IsLine res.startLine := by
  have hspace : IsLine (bytes " ") := isLine_constant " " (by decide)
  simp only [HttpRespond.startLine, isLine_append, isLine_versionText, hspace,
    isLine_decimalText, true_and]
  split
  · exact isLine_status _
  · exact hreason

/-! ## Which messages are framed -/

/-- The names and values that can be put into lines. -/
def HeaderMap.Clean (m : HeaderMap) : Prop := ∀ h ∈ m.entries, IsLine h.1 ∧ IsLine h.2

/-- The keys that `dump` writes: none of them reads as a connection header, and at most
one as a length, if there is no body. -/
structure Frameable (m : HeaderMap) (body : List UInt8) : Prop where
  connection : ∀ h ∈ m.emitted, fieldName h.1 ≠ bytes "connection"
  contentLength : m.emitted.countP (fun h => fieldName h.1 = bytes "content-length") ≤
    if body = [] then 1 else 0

section
variable {m : HeaderMap} {body : List UInt8}

theorem isHeaderLine_headers (hclean : m.Clean) {line : List UInt8}
    (h : line ∈ m.emitted.map headerLine) : IsHeaderLine line := by
  obtain ⟨header, hheader, rfl⟩ := List.mem_map.mp h
  obtain ⟨hname, hvalue⟩ := hclean header (List.mem_of_mem_filter hheader)
  refine ⟨by simp [headerLine, show bytes ":" = [58] from by decide +kernel], ?_⟩
  exact isLine_append.mpr ⟨isLine_append.mpr ⟨hname, isLine_constant ":" (by decide)⟩, hvalue⟩

theorem countNamed_append (name : String) (lines lines' : List (List UInt8)) :
    countNamed name (lines ++ lines') = countNamed name lines + countNamed name lines' :=
  List.countP_append

theorem countNamed_headers (name : String) (hs : List Header) :
    countNamed name (hs.map headerLine) = hs.countP fun h => fieldName h.1 = bytes name := by
  rw [countNamed, List.countP_map]
  congr 1
  funext h
  rw [Function.comp_apply, fieldName_headerLine]

theorem countNamed_lengthLines (name : String) (body : List UInt8) :
    countNamed name (lengthLines body) =
      if bytes "content-length" = bytes name ∧ body ≠ [] then 1 else 0 := by
  unfold countNamed lengthLines
  by_cases hbody : body = []
  · simp [hbody]
  · rw [if_neg hbody, List.countP_singleton, fieldName_lengthLine]
    simp [hbody]

theorem countNamed_connectionLine (name : String) (close : Bool) (lines : List (List UInt8)) :
    countNamed name (connectionLine close :: lines) =
      countNamed name lines + if bytes "connection" = bytes name then 1 else 0 := by
  rw [countNamed, List.countP_cons, fieldName_connectionLine]
  simp [countNamed]

theorem isHeaderLine_lengthLines {line : List UInt8} (h : line ∈ lengthLines body) :
    IsHeaderLine line := by
  unfold lengthLines at h
  split at h
  · cases h
  · rw [List.mem_singleton.mp h]
    exact isHeaderLine_lengthLine body

theorem frameable_iff : Frameable m body ↔
    m.emitted.countP (fun h => fieldName h.1 = bytes "connection") = 0 ∧
      m.emitted.countP (fun h => fieldName h.1 = bytes "content-length") ≤
        if body = [] then 1 else 0 := by
  rw [List.countP_eq_zero]
  constructor
  · rintro ⟨hconnection, hlength⟩
    exact ⟨fun h hh hname => hconnection h hh (of_decide_eq_true hname), hlength⟩
  · rintro ⟨hconnection, hlength⟩
    exact ⟨fun h hh hname => hconnection h hh (decide_eq_true hname), hlength⟩

/-- The lines of a message, wherever the connection header stands among them. -/
def Emits (m : HeaderMap) (close : Bool) (body : List UInt8) (lines : List (List UInt8)) : Prop :=
  lines.Perm (connectionLine close :: (m.emitted.map headerLine ++ lengthLines body))

theorem Emits.counts {lines : List (List UInt8)} {close : Bool} (h : Emits m close body lines) :
    countNamed "connection" lines =
        m.emitted.countP (fun h => fieldName h.1 = bytes "connection") + 1 ∧
      countNamed "content-length" lines =
        m.emitted.countP (fun h => fieldName h.1 = bytes "content-length") +
          if body = [] then 0 else 1 := by
  have hcount (name : String) : countNamed name lines =
      m.emitted.countP (fun h => fieldName h.1 = bytes name) +
        (if bytes "content-length" = bytes name ∧ body ≠ [] then 1 else 0) +
          if bytes "connection" = bytes name then 1 else 0 := by
    rw [← countNamed_headers, ← countNamed_lengthLines, ← countNamed_append,
      ← countNamed_connectionLine]
    exact List.Perm.countP_eq _ h
  have hne : bytes "content-length" ≠ bytes "connection" := by decide +kernel
  refine ⟨?_, ?_⟩
  · rw [hcount, if_neg fun h => hne h.1, if_pos rfl]
  · rw [hcount, if_neg hne.symm]
    by_cases hbody : body = []
    · simp [hbody]
    · simp [hbody]

theorem framed_iff_headers {start : List UInt8} {lines : List (List UInt8)} {close : Bool}
    (hclean : m.Clean) (h : Emits m close body lines) :
    Framed start body (start ++ crlf ++ block 13 10 lines ++ body) ↔
      IsLine start ∧ Frameable m body := by
  have hall : ∀ line ∈ lines, 58 ∈ line ∧ IsLine line := by
    intro line hline
    rcases List.mem_cons.mp (h.mem_iff.mp hline) with rfl | hline
    · exact isHeaderLine_connectionLine close
    · rcases List.mem_append.mp hline with hline | hline
      · exact isHeaderLine_headers hclean hline
      · exact isHeaderLine_lengthLines hline
  have hdeclared (hbody : body ≠ []) : ∃ line ∈ lines, fieldName line = bytes "content-length" ∧
      fieldValue line = decimalText body.length := by
    refine ⟨lengthLine body, h.mem_iff.mpr ?_, fieldName_lengthLine body,
      fieldValue_lengthLine body⟩
    simp [lengthLines, hbody]
  obtain ⟨hconnection, hlength⟩ := h.counts
  have hroom (n : Nat) : (n + if body = [] then 0 else 1) ≤ 1 ↔ n ≤ if body = [] then 1 else 0 := by
    split
    all_goals omega
  rw [framed_iff_lines hall, hconnection, hlength, hroom, frameable_iff, Nat.add_eq_right]
  exact and_congr_right fun _ => and_congr_right fun _ => and_iff_left hdeclared

theorem request_framed_iff (req : HttpRequest) (hclean : req.headers.Clean) :
    Framed req.startLine req.body req.dump ↔
      (IsLine req.path ∧ IsLine req.query ∧ IsLine req.fragment) ∧
        Frameable req.headers req.body := by
  have hlines : Emits req.headers req.close req.body req.lines := List.Perm.refl _
  rw [req.dump_eq, framed_iff_headers hclean hlines, isLine_request]

theorem respond_framed_iff (res : HttpRespond) (hclean : res.headers.Clean)
    (hreason : IsLine res.reason) :
    Framed res.startLine res.body res.dump ↔ Frameable res.headers res.body := by
  have hlines : Emits res.headers res.close res.body res.lines := List.perm_middle
  rw [res.dump_eq, framed_iff_headers hclean hlines]
  exact and_iff_right (isLine_respond res hreason)

end

/-- The messages that `dump` frames: the parts of the URI are of one line, and the keys of
the map leave the two headers to `dump`. -/
theorem framed_iff (req : HttpRequest) (res : HttpRespond) (hreq : req.headers.Clean)
    (hres : res.headers.Clean) (hreason : IsLine res.reason) :
    (Framed req.startLine req.body req.dump ↔
        (IsLine req.path ∧ IsLine req.query ∧ IsLine req.fragment) ∧
          Frameable req.headers req.body) ∧
      (Framed res.startLine res.body res.dump ↔ Frameable res.headers res.body) :=
  ⟨request_framed_iff req hreq, respond_framed_iff res hres hreason⟩

/-! ## A message of the server and a parsed one -/

/-- `handleClient`'s respond. -/
def helloRespond (version : UInt8) (close : Bool) : HttpRespond :=
  { HttpRespond.new version close with body := bytes "hello tw" }

/-- Headers of which `dump` skips the first. -/
def hostHeaders : HeaderMap :=
  (HeaderMap.empty.put (bytes "Connection") (bytes "upgrade")).put (bytes "Host") (bytes "tw")

def hostRequest : HttpRequest :=
  { HttpRequest.new with body := bytes "hi", headers := hostHeaders }

def hostRespond : HttpRespond := { helloRespond 0x11 true with headers := hostHeaders }

theorem framed_iff_host :
    Framed hostRequest.startLine (bytes "hi") hostRequest.dump ∧
      Framed hostRespond.startLine (bytes "hello tw") hostRespond.dump := by
  have hclean : hostHeaders.Clean := by
    unfold HeaderMap.Clean
    decide +kernel
  have hframeable {body : List UInt8} (hbody : body ≠ []) : Frameable hostHeaders body := by
    rw [frameable_iff, if_neg hbody]
    decide +kernel
  have hiff := framed_iff hostRequest hostRespond hclean hclean (by decide)
  exact ⟨hiff.1.mpr ⟨by decide +kernel, hframeable (by decide)⟩,
    hiff.2.mpr (hframeable (by decide))⟩

/-- What the parser has made of a request with a body is not framed again: it has kept
the length that the sender declared, and `dump` adds its own. -/
theorem parsed_unframed : ¬∀ req : HttpRequest, req.headers.Clean →
    Framed req.startLine req.body req.dump := by
  intro hall
  have hclean : (postSent.request plainEnv).headers.Clean := by
    unfold HeaderMap.Clean
    decide +kernel
  have hframed := hall (postSent.request plainEnv) hclean
  have hlength := ((request_framed_iff _ hclean).mp hframed).2.contentLength
  exact absurd hlength (by decide +kernel)

end Http
end TwServer
