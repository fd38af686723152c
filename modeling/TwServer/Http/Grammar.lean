import TwServer.Http.Scanning

/-! The tokens of a request header. A callback sees a part of the buffer; what it makes
of it depends on that part alone, although it is given no more than where the part
starts and how long it is. -/

namespace TwServer
open Programs Program Blocks

namespace Http

/-! ## Tokens -/

inductive Token where
  | method (text : List UInt8)
  | uri
  | path (text : List UInt8)
  | query (text : List UInt8)
  | fragment (text : List UInt8)
  | version (text : List UInt8)
  | field (name value : List UInt8)
  | unset
  deriving DecidableEq, Repr

/-- What a callback sees of the buffer. -/
def Callback.token (m : List UInt8) : Callback → Token
  | .httpField field flen value vlen => .field (slice m field flen) (slice m value vlen)
  | .element .requestMethod start length => .method (slice m start length)
  | .element .requestUri _ _ => .uri
  | .element .fragment start length => .fragment (slice m start length)
  | .element .requestPath start length => .path (slice m start length)
  | .element .httpVersion start length => .version (slice m start length)
  | .queryString start length => .query (slice m start length)
  | .unset => .unset

namespace Token

/-- The method of a name. -/
def methodOf (text : List UInt8) : HttpMethod :=
  match methodMap.find? fun entry => bytes entry.2 = text with
  | some entry => entry.1
  | none => .INVALID_MATHOD

def apply (req : HttpRequest) : Token → HttpRequest
  | method text => { req with method := methodOf text }
  | path text => { req with path := text }
  | query text => { req with query := text }
  | fragment text => { req with fragment := text }
  | version text => { req with version := if text = bytes "HTTP/1.1" then 0x11 else 0x10 }
  | field name value => req.setHeader name value
  | uri | unset => req

/-- What no callback reports an error for. -/
def Legal : Token → Prop
  | method text => ∃ entry ∈ methodMap, bytes entry.2 = text
  | version text => text = bytes "HTTP/1.1" ∨ text = bytes "HTTP/1.0"
  | field name _ => name ≠ []
  | unset => False
  | uri | path _ | query _ | fragment _ => True

end Token

/-! ## Methods and versions -/

theorem charsToHttpMethod_name {entry : HttpMethod × String} (h : entry ∈ methodMap)
    (rest : List UInt8) : charsToHttpMethod (bytes entry.2 ++ rest) = some entry.1 := by
  have hnames : ∀ entry ∈ methodMap, charsToHttpMethod (bytes entry.2) = some entry.1 := by
    decide +kernel
  exact firstMethod_append (hnames entry h)

theorem methodOf_name {entry : HttpMethod × String} (h : entry ∈ methodMap) :
    Token.methodOf (bytes entry.2) = entry.1 := by
  have hnames : ∀ entry ∈ methodMap, Token.methodOf (bytes entry.2) = entry.1 := by decide +kernel
  exact hnames entry h

theorem methodMap_valid {entry : HttpMethod × String} (h : entry ∈ methodMap) :
    entry.1 ≠ .INVALID_MATHOD := by
  have hvalid : ∀ entry ∈ methodMap, entry.1 ≠ .INVALID_MATHOD := by decide
  exact hvalid entry h

/-! ## What a callback does -/

theorem drop_eq_slice (m : List UInt8) (start length : Nat) :
    m.drop start = slice m start length ++ m.drop (start + length) := by
  rw [slice, ← List.drop_drop, List.take_append_drop]

theorem length_slice {m : List UInt8} {start length : Nat} (h : start + length ≤ m.length) :
    (slice m start length).length = length := by
  rw [slice, List.length_take, List.length_drop]
  omega

section
variable {m : List UInt8} (s : HttpRequestParser)

theorem readData (hm : m.length < 2 ^ 63) {start length : Nat}
    (h : start + length ≤ m.length)
    (f : List UInt8 → HttpRequest → HttpRequest) :
    (readString m start length >>= fun text => setData (f text)) s =
      .ok () { s with data := f (slice m start length) s.data } :=
  (bind_ok (readString_ok hm h s)).trans rfl

theorem onRequestMethod_legal {start length : Nat} (hspace : m[start + length]? = some 32)
    (hlegal : ∃ entry ∈ methodMap, bytes entry.2 = slice m start length) :
    onRequestMethod m start length s =
      .ok () { s with data := { s.data with method := Token.methodOf (slice m start length) } } := by
  obtain ⟨entry, hentry, htext⟩ := hlegal
  obtain ⟨hlt, hbyte⟩ := List.getElem?_eq_some_iff.mp hspace
  have hdrop : m.drop start = bytes entry.2 ++ 32 :: m.drop (start + length + 1) := by
    rw [drop_eq_slice m start length, htext, List.drop_eq_getElem_cons hlt, hbyte]
  rw [onRequestMethod, hdrop, charsToHttpMethod_name hentry, ← htext, methodOf_name hentry]
  simp only [if_neg (methodMap_valid hentry)]
  rfl

theorem onRequestHttpVersion_legal {start length : Nat} (h : start + length ≤ m.length)
    (hlegal : slice m start length = bytes "HTTP/1.1" ∨ slice m start length = bytes "HTTP/1.0") :
    onRequestHttpVersion m start length s =
      .ok () { s with data := { s.data with
        version := if slice m start length = bytes "HTTP/1.1" then 0x11 else 0x10 } } := by
  have hlength := length_slice h
  have hcmp (equal : Bool) {text literal : List UInt8} (hslice : slice m start length = text)
      (hequal : strncmp text literal text.length = some equal) :
      strncmp (m.drop start) literal length = some equal := by
    have happend := strncmp_append (c := m.drop (start + length)) (d := []) hequal
    rw [List.append_nil, ← hslice, hlength, ← drop_eq_slice] at happend
    exact happend
  unfold onRequestHttpVersion
  rcases hlegal with hslice | hslice
  · rw [hcmp true hslice (by decide +kernel), hslice]
    rfl
  · rw [hcmp false hslice (by decide +kernel), hcmp true hslice (by decide +kernel), hslice,
      if_neg (by decide +kernel)]
    rfl

/-- A legal token is stored, and nothing else changes. -/
theorem Callback.run_token (hm : m.length < 2 ^ 63) {c : Callback} (h : c.Within m) (hlegal : (c.token m).Legal) :
    c.run m s = .ok () { s with data := (c.token m).apply s.data } := by
  cases c with
  | httpField field flen value vlen =>
    have hflen : flen ≠ 0 := by
      rintro rfl
      exact hlegal (by simp [slice])
    show onRequestHttpField m field flen value vlen s = _
    rw [onRequestHttpField, if_neg hflen]
    exact (bind_ok (readString_ok hm h.1 s)).trans
      (readData s hm h.2 fun val data => data.setHeader (slice m field flen) val)
  | element which start length =>
    obtain ⟨hin, hspace⟩ := h
    cases which with
    | requestMethod => exact onRequestMethod_legal s (hspace rfl) hlegal
    | requestUri => rfl
    | fragment => exact readData s hm hin fun text data => { data with fragment := text }
    | requestPath => exact readData s hm hin fun text data => { data with path := text }
    | httpVersion => exact onRequestHttpVersion_legal s hin hlegal
  | queryString start length => exact readData s hm h fun text data => { data with query := text }
  | unset => exact h.elim

theorem runs_tokens (hm : m.length < 2 ^ 63) {calls : List Callback} (h : ∀ c ∈ calls, c.Within m)
    (hlegal : ∀ c ∈ calls, (c.token m).Legal) :
    calls.forM (Callback.run m) s =
      .ok () { s with data := (calls.map (Callback.token m)).foldl Token.apply s.data } := by
  induction calls generalizing s with
  | nil => rfl
  | cons c calls ih =>
    have hc := Callback.run_token s hm (h c (by simp)) (hlegal c (by simp))
    have hrest := ih { s with data := (c.token m).apply s.data }
      (fun c hc => h c (List.mem_cons_of_mem _ hc))
      (fun c hc => hlegal c (List.mem_cons_of_mem _ hc))
    exact (bind_ok hc).trans hrest

end

end Http
end TwServer
