import TwServer.Http.Request
import TwServer.Lib.Automaton

/-! The request parser: `http_parser_execute` around the generated machine, the
callbacks, and `HttpRequestParser`. A `Machine` is the table of the machine with
what its transitions keep to. The callbacks are collected while the machine scans
and run afterwards: the scan does not look at what they do. -/

namespace TwServer
open Programs Program Blocks Automaton

namespace Http

/-! ## The machine -/

/-- The callbacks on a text from `mark` on. -/
inductive Element where
  | requestMethod
  | requestUri
  | fragment
  | requestPath
  | httpVersion
  deriving DecidableEq, Repr

inductive Action where
  | mark
  | fieldStart
  | fieldLen
  | httpField
  | element (which : Element)
  | queryStart
  | queryString
  | xmlSent
  | jsonSent
  deriving DecidableEq, Repr

/-- `done` also runs the machine's action of that name, which leaves the loop. -/
inductive Transition where
  | error
  | goto (actions : List Action) (cs : Nat)
  | done (actions : List Action) (cs : Nat)

def Transition.actions : Transition → List Action
  | error => []
  | goto actions _ | done actions _ => actions

/-- What holds in a state: `field_len` measures the field at `field_start`,
`query_start` has been set. -/
structure Known where
  measured : Bool
  queried : Bool
  deriving DecidableEq, Repr

namespace Known

def after (k : Known) : Action → Known
  | .fieldStart => { k with measured := false }
  | .fieldLen => { k with measured := true }
  | .queryStart => { k with queried := true }
  | _ => k

def Allows (k : Known) (b : UInt8) : Action → Prop
  | .httpField => k.measured = true
  | .queryString => k.queried = true
  | .element .requestMethod => b = 32
  | _ => True

def AllowsAll (b : UInt8) : Known → List Action → Prop
  | _, [] => True
  | k, a :: as => k.Allows b a ∧ AllowsAll b (k.after a) as

/-- Everything known in `k` holds where `k'` does. -/
def Le (k k' : Known) : Prop :=
  (k.measured = true → k'.measured = true) ∧ (k.queried = true → k'.queried = true)

end Known

/-- `http_parser_start`, `http_parser_error` and `http_parser_first_final`. -/
def startState : Nat := 1
def errorState : Nat := 0
def firstFinal : Nat := 348

/-- The generated table for one value of `uri_relaxed`, which some transitions test. -/
structure Machine where
  step : Nat → UInt8 → Transition
  known : Nat → Known
  goto_cs : ∀ {cs b actions cs'}, step cs b = .goto actions cs' →
    cs' ≠ errorState ∧ cs' < firstFinal
  done_cs : ∀ {cs b actions cs'}, step cs b = .done actions cs' → firstFinal ≤ cs'
  allowed : ∀ cs b, (known cs).AllowsAll b (step cs b).actions
  known_start : known startState = ⟨false, false⟩
  known_goto : ∀ {cs b actions cs'}, step cs b = .goto actions cs' →
    (known cs').Le (actions.foldl Known.after (known cs))

/-! ## Scanning -/

/-- `http_parser`. `http_parser_init` leaves `query_start` unset, and `uri_relaxed`,
which only the machine looks at. -/
structure HttpParser where
  cs : Nat
  bodyStart : Nat
  nread : Nat
  mark : Nat
  fieldStart : Nat
  fieldLen : Nat
  queryStart : Option Nat
  xmlSent : Bool
  jsonSent : Bool
  deriving DecidableEq, Repr

def HttpParser.init : HttpParser := ⟨startState, 0, 0, 0, 0, 0, none, false, false⟩

/-- A callback with its arguments, pointers as offsets into the buffer. `unset` is
`query_string` with an unset `query_start`. -/
inductive Callback where
  | httpField (field flen value vlen : Nat)
  | element (which : Element) (start length : Nat)
  | queryString (start length : Nat)
  | unset
  deriving DecidableEq, Repr

/-- `LEN`, in `size_t`. -/
def lengthFrom (start p : Nat) : Nat := if start ≤ p then p - start else 2 ^ 64 - (start - p)

structure Scan where
  cs : Nat
  parser : HttpParser
  p : Nat
  calls : List Callback
  deriving DecidableEq, Repr

namespace Scan

def start (parser : HttpParser) : Scan := ⟨parser.cs, parser, 0, []⟩

def call (s : Scan) (c : Callback) : Scan := { s with calls := s.calls ++ [c] }

def act (s : Scan) : Action → Scan
  | .mark => { s with parser.mark := s.p }
  | .fieldStart => { s with parser.fieldStart := s.p }
  | .fieldLen => { s with parser.fieldLen := lengthFrom s.parser.fieldStart s.p }
  | .httpField =>
    s.call (.httpField s.parser.fieldStart s.parser.fieldLen s.parser.mark
      (lengthFrom s.parser.mark s.p))
  | .element which => s.call (.element which s.parser.mark (lengthFrom s.parser.mark s.p))
  | .queryStart => { s with parser.queryStart := some s.p }
  | .queryString =>
    match s.parser.queryStart with
    | some start => s.call (.queryString start (lengthFrom start s.p))
    | none => s.call .unset
  | .xmlSent => { s with parser.xmlSent := true }
  | .jsonSent => { s with parser.jsonSent := true }

/-- The action `done`; its callback `header_done` does nothing. -/
def done (s : Scan) : Scan :=
  { s with
    parser.bodyStart :=
      if s.parser.xmlSent || s.parser.jsonSent then s.parser.mark else s.p + 1 }

end Scan

def Machine.move (m : Machine) (s : Scan) (b : UInt8) : Move Scan :=
  match m.step s.cs b with
  | .error => .reject { s with cs := errorState }
  | .goto actions cs => .next { actions.foldl Scan.act s with cs := cs, p := s.p + 1 }
  | .done actions cs => .accept { (actions.foldl Scan.act s).done with cs := cs, p := s.p + 1 }

def Machine.scan (m : Machine) (parser : HttpParser) (bs : List UInt8) : Result Scan :=
  run m.move (Scan.start parser) bs

/-! ## The callbacks -/

structure HttpRequestParser where
  parser : HttpParser
  data : HttpRequest
  error : Nat
  deriving DecidableEq, Repr

def HttpRequestParser.new : HttpRequestParser := ⟨.init, .new, 0⟩

def setError (v : Nat) : Program HttpRequestParser Unit := modify fun s => { s with error := v }

def setData (f : HttpRequest → HttpRequest) : Program HttpRequestParser Unit :=
  modify fun s => { s with data := f s.data }

def onRequestHttpField (m : List UInt8) (field flen value vlen : Nat) :
    Program HttpRequestParser Unit :=
  if flen = 0 then setError 1002
  else do
    let key ← readString m field flen
    let val ← readString m value vlen
    setData fun data => data.setHeader key val

def onRequestMethod (m : List UInt8) (start length : Nat) : Program HttpRequestParser Unit :=
  match charsToHttpMethod (m.drop start) with
  | none => crash .outOfBounds
  | some method =>
    if method = .INVALID_MATHOD then do
      let _ ← readString m start length
      setError 1000
    else setData fun data => { data with method := method }

def onRequestFragment (m : List UInt8) (start length : Nat) : Program HttpRequestParser Unit := do
  let text ← readString m start length
  setData fun data => { data with fragment := text }

def onRequestPath (m : List UInt8) (start length : Nat) : Program HttpRequestParser Unit := do
  let text ← readString m start length
  setData fun data => { data with path := text }

def onRequestQueryString (m : List UInt8) (start length : Nat) :
    Program HttpRequestParser Unit := do
  let text ← readString m start length
  setData fun data => { data with query := text }

def onRequestHttpVersion (m : List UInt8) (start length : Nat) : Program HttpRequestParser Unit :=
  match strncmp (m.drop start) (literal "HTTP/1.1") length,
    strncmp (m.drop start) (literal "HTTP/1.0") length with
  | some true, _ => setData fun data => { data with version := 0x11 }
  | some false, some true => setData fun data => { data with version := 0x10 }
  | some false, some false => do
    let _ ← readString m start length
    setError 1001
  | _, _ => crash .outOfBounds

def Callback.run (m : List UInt8) : Callback → Program HttpRequestParser Unit
  | .httpField field flen value vlen => onRequestHttpField m field flen value vlen
  | .element .requestMethod start length => onRequestMethod m start length
  | .element .requestUri _ _ => return ()
  | .element .fragment start length => onRequestFragment m start length
  | .element .requestPath start length => onRequestPath m start length
  | .element .httpVersion start length => onRequestHttpVersion m start length
  | .queryString start length => onRequestQueryString m start length
  | .unset => crash .outOfBounds

/-! ## `HttpRequestParser` -/

def check (c : Prop) [Decidable c] (text : String) : Program HttpRequestParser Unit :=
  if c then return () else crash (.assertion text)

/-- What `http_parser_execute` stores when the scan of a buffer is over. -/
def HttpParser.scanned (parser : HttpParser) (r : Result Scan) : HttpParser :=
  { r.state.parser with
    cs := if parser.cs = errorState then parser.cs else r.state.cs
    nread := parser.nread + r.consumed }

def httpParserExecute (m : Machine) (buffer : List UInt8) (len : Nat) :
    Program HttpRequestParser Nat :=
  if len = 0 then return 0
  else do
    check ((len : Int).bmod (2 ^ 32) = len) "pointers aren't same distance"
    let s ← get
    let r := m.scan s.parser (buffer.take len)
    r.state.calls.forM (Callback.run buffer)
    let parser := s.parser.scanned r
    modify fun s => { s with parser := parser }
    check (r.consumed ≤ len) "Buffer overflow after parsing."
    check (parser.nread ≤ len) "nread longer than length"
    check (parser.bodyStart ≤ len) "body starts after buffer end"
    check (parser.mark < len) "mark is after buffer end"
    check (parser.fieldLen ≤ len) "field has length longer than whole buffer"
    check (parser.fieldStart < len) "field starts after buffer end"
    return parser.nread

namespace HttpRequestParser

/-- The second component is the buffer after the `memmove`. -/
def execute (m : Machine) (data : List UInt8) (len : Nat) :
    Program HttpRequestParser (Nat × List UInt8) := do
  let offset ← httpParserExecute m data len
  return (offset, overwrite data 0 (slice data offset (len - offset)))

def hasError (s : HttpRequestParser) : Bool := s.error ≠ 0 || s.parser.cs = errorState

def isFinished (s : HttpRequestParser) : Bool :=
  s.parser.cs = errorState || firstFinal ≤ s.parser.cs

def getContentLength (lexicalCast : List UInt8 → Option (BitVec 64)) (s : HttpRequestParser) :
    BitVec 64 :=
  s.data.getHeaderAs lexicalCast (bytes "content-length")

end HttpRequestParser
end Http
end TwServer
