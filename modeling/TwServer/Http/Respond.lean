import TwServer.Http.RespondParser
import TwServer.Http.Serialise
import TwServer.Lib.Strtol

/-! `HttpRespondParser` with the respond that it fills: what the actions of the machine do
besides the offsets. They are collected while the machine scans and run afterwards: the scan
does not look at what they do. -/

namespace TwServer
open Programs Program Blocks Automaton

namespace Http

/-- `m_headers[key] = val`. -/
def HttpRespond.setHeader (res : HttpRespond) (key val : List UInt8) : HttpRespond :=
  { res with headers := res.headers.put key val }

/-- `httpclient_parser` and what `HttpRespondParser` has besides it. Nothing sets `status`
before a status line does. -/
structure HttpRespondParser where
  parser : HttpclientParser
  contentLen : Int
  status : Option Int
  chunked : Bool
  chunksDone : Bool
  close : Bool
  data : HttpRespond
  error : Nat
  deriving DecidableEq, Repr

namespace HttpRespondParser
open HttpclientParser (Table)

def new : HttpRespondParser := ⟨.init, -1, none, false, false, false, .new 0x11 true, 0⟩

/-- `httpclient_parser_init`. -/
def reset (s : HttpRespondParser) : HttpRespondParser :=
  { s with
    parser := .init
    contentLen := -1
    chunked := false
    chunksDone := false
    close := false }

/-! ## The actions that leave the offsets alone -/

/-- An action with its arguments, pointers as offsets into the buffer. -/
inductive Call where
  | httpField (field flen value vlen : Nat)
  | reasonPhrase (start length : Nat)
  | statusCode (start : Nat)
  | httpVersion (start length : Nat)
  | writeContentLength (start : Nat)
  | chunkSize (start : Nat)
  | transferEncodingChunked
  | connClose
  deriving DecidableEq, Repr

/-- A `long` in an `int`. -/
def toInt (n : Int) : Int := n.bmod (2 ^ 32)

def setError (v : Nat) : Program HttpRespondParser Unit := modify fun s => { s with error := v }

def setData (f : HttpRespond → HttpRespond) : Program HttpRespondParser Unit :=
  modify fun s => { s with data := f s.data }

/-- `strtol(PTR_TO(mark), NULL, base)` in an `int`. -/
def readInt (base : Nat) (m : List UInt8) (start : Nat) : Program HttpRespondParser Int :=
  match Strtol.strtol base (m.drop start) with
  | some n => return toInt n
  | none => crash .outOfBounds

def onRespondHttpField (m : List UInt8) (field flen value vlen : Nat) :
    Program HttpRespondParser Unit :=
  if flen = 0 then setError 1002
  else do
    let key ← readString m field flen
    let val ← readString m value vlen
    setData fun data => data.setHeader key val

def onRespondReasonPhrase (m : List UInt8) (start length : Nat) :
    Program HttpRespondParser Unit := do
  let text ← readString m start length
  setData fun data => { data with reason := text }

/-- `atoi` is `strtol` in an `int`. -/
def onRespondStatusCode (m : List UInt8) (start : Nat) : Program HttpRespondParser Unit := do
  let n ← readInt 10 m start
  setData fun data => { data with status := ⟨BitVec.ofInt 32 n⟩ }

def onRespondHttpVersion (m : List UInt8) (start length : Nat) : Program HttpRespondParser Unit :=
  match strncmp (m.drop start) (literal "HTTP/1.1") length,
    strncmp (m.drop start) (literal "HTTP/1.0") length with
  | some true, _ => setData fun data => { data with version := 0x11 }
  | some false, some true => setData fun data => { data with version := 0x10 }
  | some false, some false => do
    let _ ← readString m start length
    setError 1001
  | _, _ => crash .outOfBounds

/-- The callbacks `chunk_size`, `last_chunk` and `header_done` do nothing. -/
def Call.run (m : List UInt8) : Call → Program HttpRespondParser Unit
  | .httpField field flen value vlen => onRespondHttpField m field flen value vlen
  | .reasonPhrase start length => onRespondReasonPhrase m start length
  | .statusCode start => do
    let n ← readInt 10 m start
    modify fun s => { s with status := some n }
    onRespondStatusCode m start
  | .httpVersion start length => onRespondHttpVersion m start length
  | .writeContentLength start => do
    let n ← readInt 10 m start
    modify fun s => { s with contentLen := n }
  | .chunkSize start => do
    let n ← readInt 16 m start
    modify fun s => { s with chunked := true, contentLen := n, chunksDone := n ≤ 0 }
  | .transferEncodingChunked => modify fun s => { s with chunked := true }
  | .connClose => modify fun s => { s with close := true }

/-! ## Scanning -/

structure Trace where
  scan : HttpclientParser.Scan
  calls : List Call

namespace Trace

def call (t : Trace) (c : Call) : Trace := { t with calls := t.calls ++ [c] }

def act (t : Trace) (a : HttpclientParser.Action) : Trace :=
  let mark := t.scan.parser.mark
  match a with
  | .httpField =>
    t.call (.httpField t.scan.parser.fieldStart t.scan.parser.fieldLen mark
      (lengthFrom mark t.scan.p))
  | .reasonPhrase => t.call (.reasonPhrase mark (lengthFrom mark t.scan.p))
  | .statusCode => t.call (.statusCode mark)
  | .httpVersion => t.call (.httpVersion mark (lengthFrom mark t.scan.p))
  | .writeContentLength => t.call (.writeContentLength mark)
  | .chunkSize => t.call (.chunkSize mark)
  | .transferEncodingChunked => t.call .transferEncodingChunked
  | .connClose => t.call .connClose
  | .mark | .startField | .writeField | .startValue => { t with scan := t.scan.act a }

end Trace

/-- `Table.move` with the calls. -/
def move (table : Table) (t : Trace) (b : UInt8) : Move Trace :=
  match table t.scan.parser.cs b with
  | .error => .reject { t with scan.parser.cs := 0 }
  | .goto actions cs =>
    let t := actions.foldl Trace.act t
    .next { t with scan.parser.cs := cs, scan.p := t.scan.p + 1 }
  | .done actions cs =>
    let t := actions.foldl Trace.act t
    .accept { t with
      scan.parser.bodyStart := t.scan.p + 1
      scan.parser.cs := cs
      scan.p := t.scan.p + 1 }

/-- The calls of a buffer. -/
def calls (table : Table) (parser : HttpclientParser) (bs : List UInt8) : List Call :=
  if parser.cs = 0 ∧ bs ≠ [] then [] else (run (move table) ⟨⟨parser, 0⟩, []⟩ bs).state.calls

theorem act_scan (t : Trace) (a : HttpclientParser.Action) : (t.act a).scan = t.scan.act a := by
  cases a with
  | _ => rfl

theorem acts_scan (t : Trace) (actions : List HttpclientParser.Action) :
    (actions.foldl Trace.act t).scan = actions.foldl HttpclientParser.Scan.act t.scan := by
  induction actions generalizing t with
  | nil => rfl
  | cons a actions ih => rw [List.foldl_cons, ih, act_scan, List.foldl_cons]

theorem move_scan (table : Table) (t : Trace) (b : UInt8) :
    (move table t b).map Trace.scan = table.move t.scan b := by
  unfold move Table.move
  cases table t.scan.parser.cs b with
  | error => rfl
  | goto actions cs => simp only [Move.map, acts_scan]
  | done actions cs => simp only [Move.map, acts_scan]

/-! ## `HttpRespondParser::execute` -/

/-- A program on the `httpclient_parser`. -/
def onParser {α : Type} (m : Program HttpclientParser α) : Program HttpRespondParser α :=
  zoom parser (fun s parser => { s with parser := parser }) m

open HttpclientParser (assert scanned result) in
def httpclientParserExecute (table : Table) (buffer : List UInt8) (len : Nat) :
    Program HttpRespondParser Int := do
  onParser (assert (buffer[len]? = some 0) "pointer does not end on NUL")
  onParser (assert ((len : Int).bmod (2 ^ 32) = len) "pointers aren't same distance")
  let start ← get
  (calls table start.parser (buffer.take len)).forM (Call.run buffer)
  onParser (modify (scanned table buffer len))
  let s ← get
  onParser (assert (s.parser.nread - start.parser.nread ≤ len) "buffer overflow after parsing execute")
  onParser (assert (s.parser.nread ≤ len) "nread longer than length")
  onParser (assert (s.parser.bodyStart ≤ len) "body starts after buffer end")
  return result len s.parser

/-- The second component is the buffer after the `memmove`. -/
def execute (table : Table) (data : List UInt8) (len : Nat) (chunck : Bool) :
    Program HttpRespondParser (BitVec 64 × List UInt8) := do
  if chunck then modify reset
  let offset ← httpclientParserExecute table data len
  let offset := BitVec.ofInt 64 offset
  let data ← onParser (HttpclientParser.memmove data offset (BitVec.ofNat 64 len - offset))
  return (offset, data)

/-- `httpclient_parser_finish`. -/
def isFinished (s : HttpRespondParser) : Int :=
  if s.parser.cs = 0 then -1 else if s.parser.cs = 120 then 1 else 0

def hasError (s : HttpRespondParser) : Bool := s.error ≠ 0 || s.parser.cs = 0

theorem hasError_eq_false_iff {s : HttpRespondParser} :
    s.hasError = false ↔ s.error = 0 ∧ s.parser.cs ≠ 0 := by
  simp [hasError]

/-! ## The offsets of a call -/

theorem setData_keeps (f : HttpRespond → HttpRespond) (p : HttpclientParser) :
    Keeps (fun s => s.parser = p) (setData f) := by
  intro s hs
  exact (Outcome.leaves_ok _ _ _).mpr hs

theorem readString_keeps (I : HttpRespondParser → Prop) (m : List UInt8) (start length : Nat) :
    Keeps I (readString m start length) := by
  unfold readString
  exact keeps_ite (keeps_raise I _) (keeps_ite (keeps_pure I _) (keeps_crash I _))

theorem readInt_keeps (I : HttpRespondParser → Prop) (base : Nat) (m : List UInt8) (start : Nat) :
    Keeps I (readInt base m start) := by
  unfold readInt
  cases Strtol.strtol base (m.drop start) with
  | some n => exact keeps_pure I _
  | none => exact keeps_crash I _

/-- A call does not touch the offsets. -/
theorem call_keeps (m : List UInt8) (c : Call) (p : HttpclientParser) :
    Keeps (fun s => s.parser = p) (c.run m) := by
  have hmodify : ∀ f : HttpRespondParser → HttpRespondParser, (∀ s, (f s).parser = s.parser) →
      Keeps (fun s => s.parser = p) (modify f) := by
    intro f hf s hs
    exact (Outcome.leaves_ok _ _ _).mpr ((hf s).trans hs)
  cases c with
  | httpField field flen value vlen =>
    refine keeps_ite (hmodify _ fun _ => rfl) ?_
    exact keeps_bind (readString_keeps _ _ _ _) fun _ =>
      keeps_bind (readString_keeps _ _ _ _) fun _ => setData_keeps _ p
  | reasonPhrase start length =>
    exact keeps_bind (readString_keeps _ _ _ _) fun _ => setData_keeps _ p
  | statusCode start =>
    refine keeps_bind (readInt_keeps _ _ _ _) fun _ => keeps_bind (hmodify _ fun _ => rfl) fun _ => ?_
    exact keeps_bind (readInt_keeps _ _ _ _) fun _ => setData_keeps _ p
  | httpVersion start length =>
    show Keeps _ (onRespondHttpVersion m start length)
    unfold onRespondHttpVersion
    split
    · exact setData_keeps _ p
    · exact setData_keeps _ p
    · exact keeps_bind (readString_keeps _ _ _ _) fun _ => hmodify _ fun _ => rfl
    · exact keeps_crash _ _
  | writeContentLength start =>
    exact keeps_bind (readInt_keeps _ _ _ _) fun _ => hmodify _ fun _ => rfl
  | chunkSize start =>
    exact keeps_bind (readInt_keeps _ _ _ _) fun _ => hmodify _ fun _ => rfl
  | transferEncodingChunked => exact hmodify _ fun _ => rfl
  | connClose => exact hmodify _ fun _ => rfl

theorem calls_keep {m : List UInt8} {cs : List Call} {s t : HttpRespondParser} {u : Unit}
    (h : cs.forM (Call.run m) s = .ok u t) : t.parser = s.parser := by
  have hkeeps := keeps_forM (fun c => call_keeps m c s.parser) cs s rfl
  rw [h, Outcome.leaves_ok] at hkeeps
  exact hkeeps

theorem onParser_ok {α : Type} {m : Program HttpclientParser α} {s : HttpRespondParser} {a : α}
    {p : HttpclientParser} (h : m s.parser = .ok a p) :
    onParser m s = .ok a { s with parser := p } := zoom_ok h

theorem onParser_bind {α β : Type} (m : Program HttpclientParser α)
    (f : α → Program HttpclientParser β) :
    onParser (m >>= f) = onParser m >>= fun a => onParser (f a) := by
  refine zoom_bind ?_ ?_ m f
  · exact fun _ _ => rfl
  · exact fun _ _ _ => rfl

theorem of_assert {c : Prop} [Decidable c] {text : String} {s t : HttpRespondParser} {u : Unit}
    (h : onParser (HttpclientParser.assert c text) s = .ok u t) : c ∧ t = s := by
  obtain ⟨p, hassert, rfl⟩ := of_zoom_ok h
  obtain ⟨hc, rfl⟩ := HttpclientParser.of_assert hassert
  exact ⟨hc, rfl⟩

theorem assert_of {c : Prop} [Decidable c] (hc : c) (text : String) (s : HttpRespondParser) :
    onParser (HttpclientParser.assert c text) s = .ok () s :=
  onParser_ok (HttpclientParser.assert_of hc text s.parser)

/-- Behind the calls of the buffer, the C function does what it does to the offsets. -/
theorem httpclientParserExecute_eq {table : Table} {data : List UInt8} {len : Nat}
    {s t : HttpRespondParser} (hnul : data[len]? = some 0) (hint : (len : Int).bmod (2 ^ 32) = len)
    (hcalls : (calls table s.parser (data.take len)).forM (Call.run data) s = .ok () t) :
    httpclientParserExecute table data len s =
      onParser (HttpclientParser.httpclientParserExecute table data len) t := by
  have hget : ∀ s : HttpRespondParser, Program.get s = .ok s s := fun _ => rfl
  have hgetParser : ∀ s : HttpRespondParser, onParser Program.get s = .ok s.parser s := fun _ => rfl
  have hscan : onParser (modify (HttpclientParser.scanned table data len)) t =
      .ok () { t with parser := HttpclientParser.scanned table data len t.parser } := rfl
  rw [httpclientParserExecute, bind_ok (assert_of hnul _ _), bind_ok (assert_of hint _ _),
    bind_ok (hget s), bind_ok hcalls, bind_ok hscan, bind_ok (hget _),
    HttpclientParser.httpclientParserExecute, onParser_bind, bind_ok (assert_of hnul _ _),
    onParser_bind, bind_ok (assert_of hint _ _), onParser_bind, bind_ok (hgetParser t),
    onParser_bind, bind_ok hscan, onParser_bind, bind_ok (hgetParser _), onParser_bind,
    calls_keep hcalls]
  simp only [onParser_bind]
  rfl

theorem httpclientParserExecute_ok_iff {table : Table} {data : List UInt8} {len : Nat}
    {s u : HttpRespondParser} {n : Int} : httpclientParserExecute table data len s = .ok n u ↔
      ∃ t, (calls table s.parser (data.take len)).forM (Call.run data) s = .ok () t ∧
        onParser (HttpclientParser.httpclientParserExecute table data len) t = .ok n u := by
  constructor
  · intro h
    obtain ⟨_, s₁, hrun, h₁⟩ := of_bind_ok h
    obtain ⟨hnul, rfl⟩ := of_assert hrun
    obtain ⟨_, s₂, hrun, h₂⟩ := of_bind_ok h₁
    obtain ⟨hint, rfl⟩ := of_assert hrun
    obtain ⟨start, s₃, hrun, h₃⟩ := of_bind_ok h₂
    injection hrun with hstart hs₃
    obtain ⟨_, t, hcalls, -⟩ := of_bind_ok h₃
    rw [← hstart, ← hs₃] at hcalls
    exact ⟨t, hcalls, httpclientParserExecute_eq hnul hint hcalls ▸ h⟩
  · rintro ⟨t, hcalls, h⟩
    obtain ⟨p, hoffsets, -⟩ := of_zoom_ok h
    obtain ⟨hnul, hint, -⟩ := HttpclientParser.of_httpclientParserExecute hoffsets
    rw [httpclientParserExecute_eq hnul (HttpclientParser.bmod_eq_iff.mpr hint) hcalls]
    exact h

/-- The parser that the call starts from. -/
def start (chunck : Bool) (s : HttpRespondParser) : HttpRespondParser :=
  if chunck then s.reset else s

theorem start_keeps (chunck : Bool) (s : HttpRespondParser) :
    (s.start chunck).parser = HttpclientParser.start chunck s.parser := by
  cases chunck with
  | true => rfl
  | false => rfl

theorem execute_eq (table : Table) (data : List UInt8) (len : Nat) (chunck : Bool)
    (s : HttpRespondParser) : execute table data len chunck s =
      (httpclientParserExecute table data len >>= fun offset => do
        let data ← onParser (HttpclientParser.memmove data (BitVec.ofInt 64 offset)
          (BitVec.ofNat 64 len - BitVec.ofInt 64 offset))
        return (BitVec.ofInt 64 offset, data)) (s.start chunck) := by
  cases chunck with
  | true => rfl
  | false => rfl

/-- A call that returns has run the calls of the buffer and left the offsets that
`HttpclientParser.execute` leaves. -/
theorem execute_ok_iff {table : Table} {data : List UInt8} {len : Nat} {chunck : Bool}
    {s u : HttpRespondParser} {r : BitVec 64 × List UInt8} :
    execute table data len chunck s = .ok r u ↔
      ∃ t, (calls table (s.start chunck).parser (data.take len)).forM (Call.run data)
          (s.start chunck) = .ok () t ∧
        HttpclientParser.execute table data len chunck s.parser = .ok r u.parser ∧
        u = { t with parser := u.parser } := by
  rw [execute_eq, HttpclientParser.execute_eq, ← start_keeps]
  constructor
  · intro h
    obtain ⟨n, v, hrun, h⟩ := of_bind_ok h
    obtain ⟨t, hcalls, hrun⟩ := httpclientParserExecute_ok_iff.mp hrun
    obtain ⟨p, hoffsets, rfl⟩ := of_zoom_ok hrun
    obtain ⟨moved, w, hrun, h⟩ := of_bind_ok h
    obtain ⟨q, hmove, rfl⟩ := of_zoom_ok hrun
    injection h with hr hu
    subst hu
    rw [calls_keep hcalls] at hoffsets
    refine ⟨t, hcalls, ?_, rfl⟩
    rw [bind_ok hoffsets, bind_ok hmove, ← hr]
    rfl
  · rintro ⟨t, hcalls, h, hu⟩
    obtain ⟨n, p, hoffsets, h⟩ := of_bind_ok h
    obtain ⟨moved, q, hmove, h⟩ := of_bind_ok h
    injection h with hr hq
    rw [← calls_keep hcalls] at hoffsets
    have hrun := httpclientParserExecute_ok_iff.mpr ⟨t, hcalls, onParser_ok hoffsets⟩
    rw [bind_ok hrun, bind_ok (onParser_ok hmove), hu, ← hq, ← hr]
    rfl

end HttpRespondParser
end Http
end TwServer
