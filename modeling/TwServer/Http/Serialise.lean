import TwServer.Http.Request
import TwServer.Lib.Lines

/-! `dump` of requests and responds: the text that an `ostream` is given. -/

namespace TwServer
open Lines

namespace Http

/-! ## Words and numbers -/

def crlf : List UInt8 := [13, 10]

/-- `os << n`. -/
def decimalText (n : Nat) : List UInt8 := (Nat.toDigits 10 n).map fun c => UInt8.ofNat c.toNat

def httpMethodToString (m : HttpMethod) : List UInt8 :=
  match methodMap.find? fun entry => entry.1 = m with
  | some entry => bytes entry.2
  | none => bytes "<unknown>"

/-- The codes and messages of `HTTP_STATUS_MAP`. -/
def statusMap : List (UInt32 × String) :=
  [(100, "Continue"), (101, "Switching Protocols"), (102, "Processing"), (200, "OK"),
    (201, "Created"), (202, "Accepted"), (203, "Non-Authoritative Information"),
    (204, "No Content"), (205, "Reset Content"), (206, "Partial Content"), (207, "Multi-Status"),
    (208, "Already Reported"), (226, "IM Used"), (300, "Multiple Choices"),
    (301, "Moved Permanently"), (302, "Found"), (303, "See Other"), (304, "Not Modified"),
    (305, "Use Proxy"), (307, "Temporary Redirect"), (308, "Permanent Redirect"),
    (400, "Bad Request"), (401, "Unauthorized"), (402, "Payment Required"), (403, "Forbidden"),
    (404, "Not Found"), (405, "Method Not Allowed"), (406, "Not Acceptable"),
    (407, "Proxy Authentication Required"), (408, "Request Timeout"), (409, "Conflict"),
    (410, "Gone"), (411, "Length Required"), (412, "Precondition Failed"),
    (413, "Payload Too Large"), (414, "URI Too Long"), (415, "Unsupported Media Type"),
    (416, "Range Not Satisfiable"), (417, "Expectation Failed"), (421, "Misdirected Request"),
    (422, "Unprocessable Entity"), (423, "Locked"), (424, "Failed Dependency"),
    (426, "Upgrade Required"), (428, "Precondition Required"), (429, "Too Many Requests"),
    (431, "Request Header Fields Too Large"), (451, "Unavailable For Legal Reasons"),
    (500, "Internal Server Error"), (501, "Not Implemented"), (502, "Bad Gateway"),
    (503, "Service Unavailable"), (504, "Gateway Timeout"), (505, "HTTP Version Not Supported"),
    (506, "Variant Also Negotiates"), (507, "Insufficient Storage"), (508, "Loop Detected"),
    (510, "Not Extended"), (511, "Network Authentication Required")]

/-- Any code can be cast to `HttpStatus`. -/
def httpStatusToString (s : UInt32) : List UInt8 :=
  match statusMap.find? fun entry => entry.1 = s with
  | some entry => bytes entry.2
  | none => bytes "<unknown>"

structure HttpRespond where
  version : UInt8
  status : UInt32
  close : Bool
  body : List UInt8
  reason : List UInt8
  headers : HeaderMap
  deriving DecidableEq, Repr

/-- `HttpRespond(version, close)`. -/
def HttpRespond.new (version : UInt8) (close : Bool) : HttpRespond :=
  ⟨version, 200, close, [], [], .empty⟩

/-! ## `dump` -/

/-- The version as in `HTTP/1.1`. -/
def versionText (version : UInt8) : List UInt8 :=
  bytes "HTTP/" ++ decimalText (version >>> 4).toNat ++ bytes "." ++
    decimalText (version &&& 0x0f).toNat

def connectionLine (close : Bool) : List UInt8 :=
  bytes "connection: " ++ bytes (if close then "close" else "keep-alive")

/-- The headers that `dump` does not skip. -/
def HeaderMap.emitted (m : HeaderMap) : List Header :=
  OrderedMap.keep (fun view => view ≠ caseless (bytes "connection")) caseless m.entries

def headerLine (h : Header) : List UInt8 := h.1 ++ bytes ":" ++ h.2

def HeaderMap.dump (m : HeaderMap) : List UInt8 := m.emitted.flatMap fun h => headerLine h ++ crlf

def lengthLine (body : List UInt8) : List UInt8 := bytes "content-length: " ++ decimalText body.length

def dumpBody (body : List UInt8) : List UInt8 :=
  if body ≠ [] then lengthLine body ++ crlf ++ crlf ++ body else crlf

namespace HttpRequest

def startLine (req : HttpRequest) : List UInt8 :=
  httpMethodToString req.method ++ bytes " " ++ req.path ++
    (if req.query = [] then [] else bytes "?") ++ req.query ++
    (if req.fragment = [] then [] else bytes "#") ++ req.fragment ++ bytes " " ++
    versionText req.version

/-- The connection header comes first. -/
def dump (req : HttpRequest) : List UInt8 :=
  req.startLine ++ crlf ++ connectionLine req.close ++ crlf ++ req.headers.dump ++
    dumpBody req.body

end HttpRequest

namespace HttpRespond

def startLine (res : HttpRespond) : List UInt8 :=
  versionText res.version ++ bytes " " ++ decimalText res.status.toNat ++ bytes " " ++
    (if res.reason = [] then httpStatusToString res.status else res.reason)

/-- The connection header comes behind the others. -/
def dump (res : HttpRespond) : List UInt8 :=
  res.startLine ++ crlf ++ res.headers.dump ++ connectionLine res.close ++ crlf ++
    dumpBody res.body

end HttpRespond

/-! ## The lines of a text -/

/-- The lines of a header with the length of the body behind them. -/
def lengthLines (body : List UInt8) : List (List UInt8) :=
  if body = [] then [] else [lengthLine body]

def HttpRequest.lines (req : HttpRequest) : List (List UInt8) :=
  connectionLine req.close :: req.headers.emitted.map headerLine ++ lengthLines req.body

def HttpRespond.lines (res : HttpRespond) : List (List UInt8) :=
  res.headers.emitted.map headerLine ++ connectionLine res.close :: lengthLines res.body

theorem block_headers (hs : List Header) (ls : List (List UInt8)) :
    block 13 10 (hs.map headerLine ++ ls) =
      (hs.flatMap fun h => headerLine h ++ crlf) ++ block 13 10 ls := by
  induction hs with
  | nil => rfl
  | cons h hs ih =>
    rw [List.map_cons, List.cons_append, block, ih, List.flatMap_cons]
    simp [crlf]

theorem block_lengthLines (body : List UInt8) :
    block 13 10 (lengthLines body) ++ body = dumpBody body := by
  unfold lengthLines dumpBody
  by_cases hbody : body = []
  · simp [hbody, block, crlf]
  · simp [hbody, block, crlf]

theorem HttpRequest.dump_eq (req : HttpRequest) :
    req.dump = req.startLine ++ crlf ++ block 13 10 req.lines ++ req.body := by
  have hbody := block_lengthLines req.body
  rw [dump, ← hbody, lines, List.cons_append, block, block_headers, HeaderMap.dump]
  simp [crlf]

theorem HttpRespond.dump_eq (res : HttpRespond) :
    res.dump = res.startLine ++ crlf ++ block 13 10 res.lines ++ res.body := by
  have hbody := block_lengthLines res.body
  rw [dump, ← hbody, lines, block_headers, block, HeaderMap.dump]
  simp [crlf]

/-! ## Bytes that the words and numbers do not have -/

theorem decimalText_ne_nil (n : Nat) : decimalText n ≠ [] := by
  simp [decimalText]

theorem decimalText_digits {n : Nat} : ∀ b ∈ decimalText n, 48 ≤ b ∧ b ≤ 57 := by
  intro b hb
  obtain ⟨c, hc, rfl⟩ := List.mem_map.mp hb
  have hdigit := Nat.isDigit_of_mem_toDigits (by decide) (by decide) hc
  rw [Char.isDigit, Bool.and_eq_true, decide_eq_true_eq, decide_eq_true_eq] at hdigit
  obtain ⟨hlo, hhi⟩ := hdigit
  have hlo' : 48 ≤ c.toNat := hlo
  have hhi' : c.toNat ≤ 57 := hhi
  rw [UInt8.le_iff_toNat_le, UInt8.le_iff_toNat_le, UInt8.toNat_ofNat',
    Nat.mod_eq_of_lt (by omega)]
  exact ⟨hlo', hhi'⟩

end Http
end TwServer
