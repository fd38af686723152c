import Mathlib.Data.List.Basic
import TwServer.Http.Grammar
import TwServer.Http.Segmentation
import TwServer.Http.Serialise

/-! A request that is written by `dump` and parsed again. The machine is taken to split
the text into the tokens that were written; the callbacks, the header map and the
length of the body have to make the request of them. -/

namespace TwServer
open Programs Program Blocks Lines Automaton

namespace Http

/-! ## Numbers read back -/

/-- A conversion to `uint64_t` that reads what `<<` writes. -/
def ReadsDecimal (lexicalCast : List UInt8 → Option (BitVec 64)) : Prop :=
  ∀ n < 2 ^ 64, lexicalCast (decimalText n) = some (BitVec.ofNat 64 n)

theorem decimalText_value (n : Nat) :
    (decimalText n).foldl (fun n b => n * 10 + (b.toNat - 48)) 0 = n := by
  rw [decimalText, List.foldl_map]
  refine Eq.trans (List.foldl_ext _ _ 0 ?_) (Nat.ofDigitChars_toDigits (b := 10) (by decide)
    (by decide))
  intro value c hc
  have hdigit := Nat.isDigit_of_mem_toDigits (by decide) (by decide) hc
  rw [Char.isDigit, Bool.and_eq_true, decide_eq_true_eq, decide_eq_true_eq] at hdigit
  have hlt : c.toNat < 256 := Nat.lt_of_le_of_lt hdigit.2 (by decide)
  rw [UInt8.toNat_ofNat', Nat.mod_eq_of_lt hlt, Nat.mul_comm]
  rfl

theorem decimal_readsDecimal : ReadsDecimal decimal := by
  intro n hn
  have hdigits : decimalText n ≠ [] ∧ ∀ b ∈ decimalText n, 48 ≤ b ∧ b ≤ 57 :=
    ⟨decimalText_ne_nil n, decimalText_digits⟩
  rw [decimal, if_pos hdigits]
  simp only [decimalText_value, if_pos hn]

/-! ## What is written -/

namespace HttpRequest

/-- The text in front of the body. -/
def head (req : HttpRequest) : List UInt8 := req.startLine ++ crlf ++ block 13 10 req.lines

theorem dump_head (req : HttpRequest) : req.dump = req.head ++ req.body := req.dump_eq

def connectionField (req : HttpRequest) : Header :=
  (bytes "connection", bytes (if req.close then "close" else "keep-alive"))

def lengthField (req : HttpRequest) : Header :=
  (bytes "content-length", decimalText req.body.length)

def fields (req : HttpRequest) : List Header :=
  req.connectionField :: req.headers.emitted ++ if req.body = [] then [] else [req.lengthField]

/-- The parts of the text, in the order of the grammar. -/
def tokens (req : HttpRequest) : List Token :=
  [.method (httpMethodToString req.method), .path req.path] ++
    (if req.query = [] then [] else [.query req.query]) ++
    (if req.fragment = [] then [] else [.fragment req.fragment]) ++
    [.version (versionText req.version)] ++ req.fields.map fun h => .field h.1 h.2

end HttpRequest

/-- The machine accepts the header of the text, and its callbacks see the parts. -/
structure Splits (m : Machine) (req : HttpRequest) : Prop where
  isHeader : m.IsHeader req.head
  tokens : ((m.scan .init req.head).state.calls.map (Callback.token req.head)).filter (· ≠ .uri) =
    req.tokens

/-- A method of letters, a version that the parser knows, and names that are not empty. -/
structure HttpRequest.Expressible (req : HttpRequest) : Prop where
  method : ∀ b ∈ httpMethodToString req.method, 65 ≤ b ∧ b ≤ 90
  version : req.version = 0x10 ∨ req.version = 0x11
  names : ∀ h ∈ req.headers.entries, h.1 ≠ []

/-! ## What is read back -/

/-- The request of a text: what the parser makes of it, with the bytes behind the header
as the body, if there are as many as the header declares. -/
def parseBack (env : Env) (text : List UInt8) : Option HttpRequest :=
  match HttpRequestParser.execute env.machine text text.length .new with
  | .ok (offset, data) parser =>
    let length := (parser.getContentLength env.lexicalCast).toNat
    if parser.hasError ∨ ¬parser.isFinished ∨ text.length - offset < length then none
    else some { parser.data with body := data.take length }
  | .throw _ _ | .fault _ => none

/-- The headers that `dump` does not write itself. -/
def HeaderMap.others (m : HeaderMap) : List Header :=
  OrderedMap.keep
    (fun view => view ≠ caseless (bytes "connection") ∧ view ≠ caseless (bytes "content-length"))
    caseless m.entries

def RoundTrips (env : Env) (req : HttpRequest) : Prop :=
  ∃ req', parseBack env req.dump = some req' ∧ req'.method = req.method ∧
    req'.path = req.path ∧ req'.query = req.query ∧ req'.fragment = req.fragment ∧
    req'.version = req.version ∧ req'.close = req.close ∧ req'.body = req.body ∧
    req'.headers.others = req.headers.others

/-! ## The parsed request -/

def HeaderMap.putAll (m : HeaderMap) (hs : List Header) : HeaderMap :=
  hs.foldl (fun m h => m.put h.1 h.2) m

theorem HeaderMap.entries_putAll (m : HeaderMap) (hs : List Header) :
    (m.putAll hs).entries = OrderedMap.putAll less caseless m.entries hs := by
  induction hs generalizing m with
  | nil => rfl
  | cons h hs ih => exact ih (m.put h.1 h.2)

theorem foldl_fields (req : HttpRequest) (hs : List Header) :
    (hs.map fun h => Token.field h.1 h.2).foldl Token.apply req =
      { req with headers := req.headers.putAll hs } := by
  induction hs generalizing req with
  | nil => rfl
  | cons h hs ih => exact ih (req.setHeader h.1 h.2)

theorem methodOf_toString {method : HttpMethod}
    (h : ∀ b ∈ httpMethodToString method, 65 ≤ b ∧ b ≤ 90) :
    (Token.method (httpMethodToString method)).Legal ∧
      Token.methodOf (httpMethodToString method) = method := by
  unfold httpMethodToString at h ⊢
  cases hfind : methodMap.find? fun entry => entry.1 = method with
  | none =>
    simp only [hfind] at h
    exact absurd h (by decide +kernel)
  | some entry =>
    have hentry := List.mem_of_find?_eq_some hfind
    have hmethod : entry.1 = method := by simpa using List.find?_some hfind
    exact ⟨⟨entry, hentry, rfl⟩, (methodOf_name hentry).trans hmethod⟩

/-- The request that the tokens make. -/
def HttpRequest.parsed (req : HttpRequest) : HttpRequest :=
  { req with
    close := true
    body := []
    headers := HeaderMap.empty.putAll req.fields }

section
variable {req : HttpRequest} (h : req.Expressible)
include h

theorem versionText_legal : (Token.version (versionText req.version)).Legal ∧
    (if versionText req.version = bytes "HTTP/1.1" then 0x11 else 0x10) = req.version := by
  rcases h.version with hversion | hversion
  · rw [hversion]
    exact ⟨.inr (by decide +kernel), by decide +kernel⟩
  · rw [hversion]
    exact ⟨.inl (by decide +kernel), by decide +kernel⟩

omit h in
/-- The names that `dump` writes itself. -/
theorem reserved_names : bytes "connection" ≠ [] ∧ bytes "content-length" ≠ [] ∧
    caseless (bytes "content-length") ≠ caseless (bytes "connection") := by
  decide +kernel

theorem tokens_legal : ∀ t ∈ req.tokens, t.Legal := by
  intro t ht
  have hfield : ∀ header ∈ req.fields, header.1 ≠ [] := by
    intro header hheader
    rcases List.mem_append.mp hheader with hheader | hheader
    · rcases List.mem_cons.mp hheader with rfl | hheader
      · exact reserved_names.1
      · exact h.names header (List.mem_of_mem_filter hheader)
    · split at hheader
      · cases hheader
      · rw [List.mem_singleton.mp hheader]
        exact reserved_names.2.1
  simp only [HttpRequest.tokens, List.mem_append, List.mem_cons, List.not_mem_nil, or_false,
    List.mem_map] at ht
  rcases ht with (((ht | ht) | ht) | ht) | ⟨header, hheader, rfl⟩
  · rcases ht with rfl | rfl
    · exact (methodOf_toString h.method).1
    · trivial
  · split at ht
    · cases ht
    · rw [List.mem_singleton.mp ht]
      trivial
  · split at ht
    · cases ht
    · rw [List.mem_singleton.mp ht]
      trivial
  · rw [ht]
    exact (versionText_legal h).1
  · exact hfield header hheader

theorem foldl_tokens : req.tokens.foldl Token.apply .new = req.parsed := by
  have hmethod := (methodOf_toString h.method).2
  have hversion := (versionText_legal h).2
  unfold HttpRequest.tokens
  simp only [List.foldl_append, List.foldl_cons, List.foldl_nil, foldl_fields]
  by_cases hquery : req.query = []
  · by_cases hfragment : req.fragment = []
    · simp [hquery, hfragment, Token.apply, hmethod, hversion, HttpRequest.parsed, HttpRequest.new]
    · simp [hquery, hfragment, Token.apply, hmethod, hversion, HttpRequest.parsed, HttpRequest.new]
  · by_cases hfragment : req.fragment = []
    · simp [hquery, hfragment, Token.apply, hmethod, hversion, HttpRequest.parsed, HttpRequest.new]
    · simp [hquery, hfragment, Token.apply, hmethod, hversion, HttpRequest.parsed, HttpRequest.new]

end

/-! ## Its headers -/

theorem keep_fields (p : List UInt8 → Bool) (hconnection : p (caseless (bytes "connection")) = false)
    (req : HttpRequest) (hlength : req.body = [] ∨ p (caseless (bytes "content-length")) = false) :
    OrderedMap.keep p caseless req.fields = OrderedMap.keep p caseless req.headers.emitted := by
  have htail : (if req.body = [] then [] else [req.lengthField]).filter
      (fun h => p (caseless h.1)) = [] := by
    split
    · rfl
    · have hp := hlength.resolve_left ‹_›
      rw [List.filter_cons_of_neg (by rw [HttpRequest.lengthField, hp]; exact Bool.false_ne_true)]
      rfl
  unfold OrderedMap.keep HttpRequest.fields
  rw [List.filter_append, htail, List.append_nil, List.filter_cons_of_neg]
  rw [HttpRequest.connectionField, hconnection]
  exact Bool.false_ne_true

/-- The headers that `dump` writes come back, where `p` leaves out those that it adds. -/
theorem keep_parsed (p : List UInt8 → Bool) (hconnection : p (caseless (bytes "connection")) = false)
    (req : HttpRequest) (hlength : req.body = [] ∨ p (caseless (bytes "content-length")) = false) :
    OrderedMap.keep p caseless req.parsed.headers.entries =
      OrderedMap.keep p caseless req.headers.entries := by
  have hkept : OrderedMap.keep p caseless req.headers.emitted =
      OrderedMap.keep p caseless req.headers.entries := by
    refine OrderedMap.keep_keep _ fun view hview => decide_eq_true ?_
    rintro rfl
    rw [hconnection] at hview
    cases hview
  have hsorted : OrderedMap.Sorted less caseless
      (OrderedMap.keep p caseless req.headers.entries) := req.headers.sorted.keep p
  show OrderedMap.keep p caseless (HeaderMap.empty.putAll req.fields).entries = _
  rw [HeaderMap.entries_putAll, OrderedMap.keep_putAll p strict_less HeaderMap.empty.sorted,
    keep_fields p hconnection req hlength, hkept]
  exact OrderedMap.putAll_sorted hsorted fun a ha => (nomatch ha)

theorem others_parsed (req : HttpRequest) : req.parsed.headers.others = req.headers.others :=
  keep_parsed _ (by simp) req (.inr (by simp))

/-- The length that the parsed header declares. -/
theorem getHeaderAs_parsed {lexicalCast : List UInt8 → Option (BitVec 64)}
    (hcast : ReadsDecimal lexicalCast) (req : HttpRequest) (hbody : req.body.length < 2 ^ 64) :
    req.parsed.getHeaderAs lexicalCast (bytes "content-length") =
      if req.body = [] then req.getHeaderAs lexicalCast (bytes "content-length")
      else BitVec.ofNat 64 req.body.length := by
  by_cases hnil : req.body = []
  · have hkept := keep_parsed (fun view => view ≠ caseless (bytes "connection"))
      (by simp) req (.inl hnil)
    have hlength : (decide (caseless (bytes "content-length") ≠ caseless (bytes "connection"))) =
        true := decide_eq_true reserved_names.2.2
    have hget : OrderedMap.get? caseless (caseless (bytes "content-length"))
          req.parsed.headers.entries =
        OrderedMap.get? caseless (caseless (bytes "content-length")) req.headers.entries := by
      rw [← OrderedMap.get?_keep (fun view => view ≠ caseless (bytes "connection")) hlength, hkept,
        OrderedMap.get?_keep (fun view => view ≠ caseless (bytes "connection")) hlength]
    rw [if_pos hnil, HttpRequest.getHeaderAs, hget, HttpRequest.getHeaderAs]
  · have hget : OrderedMap.get? caseless (caseless (bytes "content-length"))
        req.parsed.headers.entries = some (decimalText req.body.length) := by
      show OrderedMap.get? _ _ (HeaderMap.empty.putAll req.fields).entries = _
      rw [HeaderMap.entries_putAll, HttpRequest.fields, if_neg hnil, OrderedMap.putAll,
        List.foldl_append]
      exact OrderedMap.get?_put strict_less
    rw [if_neg hnil, HttpRequest.getHeaderAs, hget]
    show (lexicalCast (decimalText req.body.length)).getD 0 = _
    rw [hcast _ hbody]
    rfl

/-! ## The header of the text -/

theorem foldl_uri (ts : List Token) (req : HttpRequest) :
    (ts.filter (· ≠ .uri)).foldl Token.apply req = ts.foldl Token.apply req := by
  induction ts generalizing req with
  | nil => rfl
  | cons t ts ih =>
    rw [List.filter_cons]
    by_cases ht : t = .uri
    · subst ht
      exact ih req
    · rw [if_pos (decide_eq_true ht)]
      exact ih (t.apply req)

theorem parsed_head {m : Machine} {req : HttpRequest} (h : req.Expressible) (hsplits : Splits m req)
    (hlen : req.head.length < 2 ^ 63) :
    (m.parsed req.head).data = req.parsed ∧ (m.parsed req.head).error = 0 := by
  have hlegal : ∀ c ∈ (m.scan .init req.head).state.calls, (c.token req.head).Legal := by
    intro c hc
    by_cases huri : c.token req.head = .uri
    · rw [huri]
      trivial
    · refine tokens_legal h _ ?_
      rw [← hsplits.tokens]
      exact List.mem_filter.mpr ⟨List.mem_map_of_mem hc, decide_eq_true huri⟩
  have hruns := runs_tokens .new hlen (m.scan_inv req.head).calls hlegal
  obtain ⟨s, hcalls, hparsed⟩ := m.parsed_eq hlen
  rw [hruns, ← foldl_uri, hsplits.tokens] at hcalls
  injection hcalls with _ hs
  rw [hparsed, ← hs]
  exact ⟨foldl_tokens h, rfl⟩

/-! ## The whole text -/

section
variable {env : Env} {req : HttpRequest} (h : req.Expressible) (hsplits : Splits env.machine req)
  (hcast : ReadsDecimal env.lexicalCast)
include h hsplits hcast

/-- What is read back of a text that the parser takes. -/
theorem parseBack_dump (hlen : req.dump.length < 2 ^ 31) :
    parseBack env req.dump =
      if req.body = [] ∧ req.getHeaderAs env.lexicalCast (bytes "content-length") ≠ 0 then none
      else some { req.parsed with body := req.body } := by
  have hheader := hsplits.isHeader
  rw [req.dump_head] at hlen ⊢
  have hlength : (req.head ++ req.body).length = req.head.length + req.body.length :=
    List.length_append
  have hsmall : (req.head ++ req.body).length < 2 ^ 63 := hlen.trans (by decide)
  have hhead : req.head.length < 2 ^ 63 := by omega
  have hbody : req.body.length < 2 ^ 64 := by omega
  obtain ⟨hdata, herror⟩ := parsed_head h hsplits hhead
  have hexecute := env.machine.execute_new (hheader.append_ne_nil req.body) hlen
  rw [hheader.scan_append, hheader.2, hheader.parsed_append hsmall] at hexecute
  have hdeclared : (env.machine.parsed req.head).getContentLength env.lexicalCast =
      req.parsed.getHeaderAs env.lexicalCast (bytes "content-length") := by
    rw [HttpRequestParser.getContentLength, hdata]
  have hrest : (req.head ++ req.body).length - req.head.length = req.body.length := by omega
  have hmoved := moved_take req.head req.body
  rw [hrest] at hmoved hexecute
  rw [parseBack, hexecute]
  simp only [parsed_hasError hheader hhead, parsed_isFinished hheader hhead, herror, hdeclared,
    getHeaderAs_parsed hcast req hbody, hdata, hrest]
  by_cases hnil : req.body = []
  · rw [if_pos hnil]
    by_cases hzero : req.getHeaderAs env.lexicalCast (bytes "content-length") = 0
    · simp [hzero, hnil]
    · have hpos : 0 < (req.getHeaderAs env.lexicalCast (bytes "content-length")).toNat := by
        rw [Nat.pos_iff_ne_zero]
        exact fun htoNat => hzero (BitVec.eq_of_toNat_eq htoNat)
      rw [if_pos (.inr (.inr (by simpa [hnil] using hpos))), if_pos ⟨hnil, hzero⟩]
  · have htoNat : (BitVec.ofNat 64 req.body.length).toNat = req.body.length := by
      rw [BitVec.toNat_ofNat, Nat.mod_eq_of_lt hbody]
    rw [if_neg hnil, htoNat, hmoved, if_neg (by simp), if_neg fun hempty => hnil hempty.1]

/-- A request that the machine splits comes back exactly when it says `close`, declares no
body that it does not have, and is not too long for the parser. -/
theorem roundTrips_iff : RoundTrips env req ↔
    req.close = true ∧
      (req.body ≠ [] ∨ req.getHeaderAs env.lexicalCast (bytes "content-length") = 0) ∧
      req.dump.length < 2 ^ 31 := by
  constructor
  · rintro ⟨req', hback, -, -, -, -, -, hclose, -, -⟩
    have hlen : req.dump.length < 2 ^ 31 := by
      by_contra hlong
      rw [parseBack, execute_long (Nat.le_of_not_lt hlong)] at hback
      cases hback
    rw [parseBack_dump h hsplits hcast hlen] at hback
    by_cases hmissing : req.body = [] ∧
        req.getHeaderAs env.lexicalCast (bytes "content-length") ≠ 0
    · rw [if_pos hmissing] at hback
      cases hback
    · rw [if_neg hmissing] at hback
      injection hback with hreq
      refine ⟨?_, ?_, hlen⟩
      · rw [← hclose, ← hreq]
        rfl
      · by_contra hnot
        rw [not_or, not_not] at hnot
        exact hmissing hnot
  · rintro ⟨hclose, hdeclared, hlen⟩
    have hpresent : ¬(req.body = [] ∧
        req.getHeaderAs env.lexicalCast (bytes "content-length") ≠ 0) := by
      rintro ⟨hnil, hne⟩
      exact hdeclared.elim (fun hbody => hbody hnil) hne
    refine ⟨{ req.parsed with body := req.body }, ?_, rfl, rfl, rfl, rfl, rfl, hclose.symm, rfl,
      others_parsed req⟩
    rw [parseBack_dump h hsplits hcast hlen, if_neg hpresent]

end

/-! ## A plain request -/

def plainRequest (close : Bool) : HttpRequest :=
  { HttpRequest.new with
    close := close
    body := bytes "hi"
    headers := HeaderMap.empty.put (bytes "Host") (bytes "tw") }

theorem plain_splits (close : Bool) : Splits plain (plainRequest close) := by
  cases close with
  | false => exact ⟨by decide +kernel, by decide +kernel⟩
  | true => exact ⟨by decide +kernel, by decide +kernel⟩

theorem plain_expressible (close : Bool) : (plainRequest close).Expressible where
  method := by
    show ∀ b ∈ httpMethodToString .GET, 65 ≤ b ∧ b ≤ 90
    decide +kernel
  version := .inr rfl
  names := by
    show ∀ h ∈ (HeaderMap.empty.put (bytes "Host") (bytes "tw")).entries, h.1 ≠ []
    decide +kernel

theorem roundTrips_plain : RoundTrips plainEnv (plainRequest true) :=
  (roundTrips_iff (plain_expressible true) (plain_splits true) decimal_readsDecimal).mpr
    ⟨rfl, .inl (by decide +kernel), by decide +kernel⟩

/-- `keep-alive` is written and not read. -/
theorem keepAlive_lost : ¬∀ (env : Env) (req : HttpRequest), req.Expressible →
    Splits env.machine req → ReadsDecimal env.lexicalCast → RoundTrips env req := by
  intro hall
  obtain ⟨req', hback, -, -, -, -, -, hclose, -, -⟩ :=
    hall plainEnv (plainRequest false) (plain_expressible false) (plain_splits false)
      decimal_readsDecimal
  have hlen : (plainRequest false).dump.length < 2 ^ 31 := by decide +kernel
  rw [parseBack_dump (plain_expressible false) (plain_splits false) decimal_readsDecimal hlen,
    if_neg (by decide +kernel)] at hback
  injection hback with hreq
  rw [← hreq] at hclose
  cases hclose

end Http
end TwServer
