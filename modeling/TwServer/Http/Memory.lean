import TwServer.Http.Scanning
import TwServer.Http.Table

/-! What the memory of a new parser decides. Neither `HttpRequestParser()` nor
`http_parser_init` writes `query_start` and `uri_relaxed`. The machine sets the first
one before it reads it; the second one is read at a few bytes of a URI. -/

namespace TwServer
open Programs Program Blocks Automaton

namespace Http

/-! ## New parsers -/

/-- What the memory held at the fields that nothing writes. -/
structure Memory where
  queryStart : Nat
  uriRelaxed : Int

def HttpRequestParser.newIn (g : Memory) : HttpRequestParser :=
  { HttpRequestParser.new with parser.queryStart := some g.queryStart }

/-- The generated machine: its table for each outcome of the test of `uri_relaxed`, and
the places of these tests. Where the test fails the machine rejects. -/
structure Tables where
  table : Bool → Machine
  tests : Nat → UInt8 → Bool
  same : ∀ {cs b}, tests cs b = false → (table true).step cs b = (table false).step cs b
  strict : ∀ {cs b}, tests cs b = true → (table false).step cs b = .error
  chars : ∀ {cs b}, tests cs b = true → b = 94 ∨ b = 123 ∨ b = 125

namespace Tables

def parse (t : Tables) (g : Memory) (text : List UInt8) :
    Outcome HttpRequestParser (Nat × List UInt8) :=
  HttpRequestParser.execute (t.table (g.uriRelaxed ≠ 0)) text text.length (.newIn g)

/-- No byte of the text makes the machine test `uri_relaxed`. -/
def Untested (t : Tables) (relaxed : Bool) (text : List UInt8) : Prop :=
  Always (t.table relaxed).move (fun s b => t.tests s.cs b = false) (Scan.start .init) text

/-- A text with none of the bytes `^`, `{` and `}`. -/
theorem untested_of_bytes (t : Tables) (relaxed : Bool) {text : List UInt8}
    (h : ∀ b ∈ text, b ≠ 94 ∧ b ≠ 123 ∧ b ≠ 125) : t.Untested relaxed text := by
  refine always_of_forall fun s b hb => ?_
  obtain ⟨hcaret, hopen, hclose⟩ := h b hb
  cases htests : t.tests s.cs b with
  | false => rfl
  | true =>
    rcases t.chars htests with hb | hb | hb
    · exact absurd hb hcaret
    · exact absurd hb hopen
    · exact absurd hb hclose

theorem move_same (t : Tables) {s : Scan} {b : UInt8} (h : t.tests s.cs b = false) :
    (t.table true).move s b = (t.table false).move s b := by
  unfold Machine.move
  rw [t.same h]

theorem Untested.relaxed {t : Tables} {text : List UInt8} (h : t.Untested false text) :
    t.Untested true text :=
  Always.congr (fun _ _ hb => t.move_same hb) h

end Tables

/-! ## Two scans that differ in `query_start` -/

def Scan.withQuery (s : Scan) (q : Option Nat) : Scan := { s with parser.queryStart := q }

/-- `s` is `s'` but for a `query_start` that `s'` has not set, and that `k` does not
know of. -/
def Scan.Alike (k : Known) (s s' : Scan) : Prop :=
  ∃ q, s = s'.withQuery q ∧ (∀ start ∈ s'.parser.queryStart, q = some start) ∧
    (k.queried = true → s'.parser.queryStart ≠ none)

namespace Scan.Alike
variable {k : Known} {s s' : Scan} {b : UInt8}

theorem weaken (h : Alike k s s') : Alike ⟨false, false⟩ s s' := by
  obtain ⟨q, hs, hquery, -⟩ := h
  exact ⟨q, hs, hquery, Bool.noConfusion⟩

theorem mono {k' : Known} (h : Alike k s s') (hk : k'.Le k) : Alike k' s s' := by
  obtain ⟨q, hs, hquery, hqueried⟩ := h
  exact ⟨q, hs, hquery, fun hk' => hqueried (hk.2 hk')⟩

theorem act {a : Action} (h : Alike k s s') (hallow : k.Allows b a) :
    Alike (k.after a) (s.act a) (s'.act a) := by
  obtain ⟨q, rfl, hquery, hqueried⟩ := h
  cases a with
  | queryStart =>
    refine ⟨some s'.p, rfl, ?_, fun _ => Option.some_ne_none _⟩
    intro start hstart
    exact hstart.symm ▸ rfl
  | queryString =>
    cases hset : s'.parser.queryStart with
    | none => exact absurd hset (hqueried hallow)
    | some start =>
      obtain rfl := hquery start hset
      have hact : s'.act .queryString = s'.call (.queryString start (lengthFrom start s'.p)) := by
        rw [Scan.act, hset]
      rw [hact]
      exact ⟨some start, rfl, hquery, hqueried⟩
  | _ => exact ⟨q, rfl, hquery, hqueried⟩

theorem acts {actions : List Action} (h : Alike k s s') (hallow : k.AllowsAll b actions) :
    Alike (actions.foldl Known.after k) (actions.foldl Scan.act s)
      (actions.foldl Scan.act s') := by
  induction actions generalizing k s s' with
  | nil => exact h
  | cons a actions ih => exact ih (h.act hallow.1) hallow.2

theorem calls_eq (h : Alike k s s') : s.calls = s'.calls := by
  obtain ⟨q, rfl, -⟩ := h
  rfl

theorem parser_eq (h : Alike k s s') :
    s.parser = { s'.parser with queryStart := s.parser.queryStart } := by
  obtain ⟨q, rfl, -⟩ := h
  rfl

theorem p_eq (h : Alike k s s') : s.p = s'.p := by
  obtain ⟨q, rfl, -⟩ := h
  rfl

theorem cs_eq (h : Alike k s s') : s.cs = s'.cs := by
  obtain ⟨q, rfl, -⟩ := h
  rfl

end Scan.Alike

theorem Scan.Alike.moved {k : Known} {s s' : Scan} (h : s.Alike k s') (cs p : Nat) :
    Scan.Alike k { s with cs := cs, p := p } { s' with cs := cs, p := p } := by
  obtain ⟨q, rfl, hquery, hqueried⟩ := h
  exact ⟨q, rfl, hquery, hqueried⟩

theorem Scan.Alike.done {k : Known} {s s' : Scan} (h : s.Alike k s') : s.done.Alike k s'.done := by
  obtain ⟨q, rfl, hquery, hqueried⟩ := h
  exact ⟨q, rfl, hquery, hqueried⟩

namespace Machine

/-- Alike, with what is known in the state of a scan that still runs. -/
def AlikeAt (m : Machine) : Status → Scan → Scan → Prop
  | .running, s, s' => s.Alike (m.known s'.cs) s'
  | _, s, s' => s.Alike ⟨false, false⟩ s'

section
variable {m m' : Machine} {P : Nat → UInt8 → Prop}
  (hsame : ∀ cs b, P cs b → m.step cs b = m'.step cs b)
include hsame

theorem move_alike (s s' : Scan) (b : UInt8) (h : m'.AlikeAt .running s s') (hP : P s'.cs b) :
    (m.move s b).Related m'.AlikeAt (m'.move s' b) := by
  have halike : s.Alike (m'.known s'.cs) s' := h
  have hallow := m'.allowed s'.cs b
  unfold move
  rw [halike.cs_eq, halike.p_eq, hsame s'.cs b hP]
  cases hstep : m'.step s'.cs b with
  | error =>
    obtain ⟨q, rfl, hquery, -⟩ := halike
    exact ⟨rfl, q, rfl, hquery, Bool.noConfusion⟩
  | goto actions cs =>
    rw [hstep] at hallow
    exact ⟨rfl, ((halike.acts hallow).mono (m'.known_goto hstep)).moved cs (s'.p + 1)⟩
  | done actions cs =>
    rw [hstep] at hallow
    exact ⟨rfl, (halike.acts hallow).done.weaken.moved cs (s'.p + 1)⟩

/-- The scan of a new parser, whatever its memory held. -/
theorem scan_newIn (g : Memory) {text : List UInt8}
    (hP : Always m'.move (fun s b => P s.cs b) (Scan.start .init) text) :
    (m.scan (HttpRequestParser.newIn g).parser text).consumed = (m'.scan .init text).consumed ∧
      (m.scan (HttpRequestParser.newIn g).parser text).state.Alike ⟨false, false⟩
        (m'.scan .init text).state := by
  have hstart : m'.AlikeAt .running (Scan.start (HttpRequestParser.newIn g).parser)
      (Scan.start .init) := by
    refine ⟨some g.queryStart, rfl, fun start hstart => (nomatch hstart), fun hqueried => ?_⟩
    rw [show (Scan.start .init).cs = startState from rfl, m'.known_start] at hqueried
    cases hqueried
  obtain ⟨-, hconsumed, halike⟩ := run_related (m.move_alike hsame) hstart hP
  refine ⟨hconsumed, ?_⟩
  change m'.AlikeAt (m.scan (HttpRequestParser.newIn g).parser text).status _ _ at halike
  cases hstatus : (m.scan (HttpRequestParser.newIn g).parser text).status with
  | running =>
    rw [hstatus] at halike
    exact Scan.Alike.weaken halike
  | accepted | rejected =>
    rw [hstatus] at halike
    exact halike

/-- It leaves what a scan without that memory leaves, but for `query_start`. -/
theorem execute_newIn (g : Memory) {text : List UInt8} (hne : text ≠ [])
    (hint : text.length < 2 ^ 31)
    (hP : Always m'.move (fun s b => P s.cs b) (Scan.start .init) text) :
    ∃ r q, HttpRequestParser.execute m text text.length (.newIn g) =
      .ok r { m'.parsed text with parser.queryStart := q } := by
  obtain ⟨hconsumed, halike⟩ := scan_newIn hsame g hP
  obtain ⟨s, hcalls, hparsed⟩ := m'.parsed_eq (hint.trans (by decide))
  have hpos : 0 < text.length := List.length_pos_iff.mpr hne
  have htake : text.take text.length = text := List.take_length
  have hscanned : HttpParser.scanned (HttpRequestParser.newIn g).parser
      (m.scan (HttpRequestParser.newIn g).parser text) =
        { HttpParser.init.scanned (m'.scan .init text) with
          queryStart := (m.scan (HttpRequestParser.newIn g).parser text).state.parser.queryStart } := by
    unfold HttpParser.scanned
    rw [halike.parser_eq, halike.cs_eq, hconsumed]
    rfl
  have hcalls' : (m.scan (HttpRequestParser.newIn g).parser text).state.calls.forM
      (Callback.run text) (.newIn g) =
        .ok () { s with parser.queryStart := some g.queryStart } := by
    have hignore := ignores_forM (Callback.ignores_run
      (fun parser => { parser with queryStart := some g.queryStart }) text)
      (m'.scan .init text).state.calls .new
    rw [hcalls] at hignore
    rw [halike.calls_eq]
    exact hignore
  have hfits : (HttpParser.scanned (HttpRequestParser.newIn g).parser
      (m.scan (HttpRequestParser.newIn g).parser text)).Fits text.length := by
    rw [hscanned]
    exact m'.scan_fits hne
  have hexecute : httpParserExecute m text text.length (.newIn g) = _ :=
    httpParserExecute_ok hpos.ne' hint (by rw [htake]; exact hcalls') (by rw [htake]; exact hfits)
  rw [htake, hscanned] at hexecute
  rw [hparsed]
  exact ⟨_, _, (bind_ok hexecute).trans rfl⟩

end
end Machine

/-! ## What a caller sees -/

/-- Whether the text is accepted, and the request. -/
def HttpRequestParser.verdict (s : HttpRequestParser) : Bool × Bool × HttpRequest :=
  (s.hasError, s.isFinished, s.data)

namespace Tables

def result (t : Tables) (g : Memory) (text : List UInt8) :
    Outcome (Bool × Bool × HttpRequest) Unit :=
  (t.parse g text).map HttpRequestParser.verdict fun _ => ()

/-- Two new parsers make the same of the text. -/
def Agrees (t : Tables) (text : List UInt8) : Prop := ∀ g g', t.result g text = t.result g' text

/-- The scan of the text, if it takes place, reads neither of the two fields before it
is set. -/
def Initialised (t : Tables) (text : List UInt8) : Prop :=
  text.length < 2 ^ 31 → ∀ relaxed, t.Untested relaxed text ∧
    .unset ∉ ((t.table relaxed).scan .init text).state.calls

theorem initialised_iff (t : Tables) {text : List UInt8} :
    t.Initialised text ↔ (text.length < 2 ^ 31 → t.Untested false text) := by
  refine ⟨fun h hint => (h hint false).1, fun h hint relaxed => ⟨?_, ?_⟩⟩
  · cases relaxed with
    | false => exact h hint
    | true => exact (h hint).relaxed
  · exact fun hunset => ((t.table relaxed).scan_inv text).calls .unset hunset

theorem result_nil (t : Tables) (g : Memory) : t.result g [] = .ok () (false, false, .new) := rfl

theorem result_long (t : Tables) (g : Memory) {text : List UInt8} (hlong : 2 ^ 31 ≤ text.length) :
    t.result g text = .fault (.assertion "pointers aren't same distance") := by
  rw [result, parse, execute_long hlong]
  rfl

section
variable (t : Tables) (g : Memory) {text : List UInt8} (hne : text ≠ [])
  (hint : text.length < 2 ^ 31)
include hne hint

/-- The result of the table that the memory selects. -/
theorem result_selected :
    t.result g text = .ok () ((t.table (g.uriRelaxed ≠ 0)).parsed text).verdict := by
  have hsame (cs : Nat) (b : UInt8) (_ : True) :
      (t.table (g.uriRelaxed ≠ 0)).step cs b = (t.table (g.uriRelaxed ≠ 0)).step cs b := rfl
  have halways : Always (t.table (g.uriRelaxed ≠ 0)).move (fun _ _ => True) (Scan.start .init)
      text := always_of_forall fun _ _ _ => trivial
  obtain ⟨r, q, hexecute⟩ := Machine.execute_newIn hsame g hne hint halways
  rw [result, parse, hexecute]
  rfl

theorem result_untested (h : t.Untested false text) :
    t.result g text = .ok () ((t.table false).parsed text).verdict := by
  have hsame (cs : Nat) (b : UInt8) (htests : t.tests cs b = false) :
      (t.table (g.uriRelaxed ≠ 0)).step cs b = (t.table false).step cs b := by
    cases decide (g.uriRelaxed ≠ 0) with
    | false => rfl
    | true => exact t.same htests
  obtain ⟨r, q, hexecute⟩ := Machine.execute_newIn hsame g hne hint h
  rw [result, parse, hexecute]
  rfl

omit hne in
/-- Without `uri_relaxed` the first test is the end. -/
theorem hasError_of_tested (h : ¬t.Untested false text) :
    ((t.table false).parsed text).hasError = true := by
  have hreject (s : Scan) (b : UInt8) (htests : ¬t.tests s.cs b = false) :
      ((t.table false).move s b).status = .rejected := by
    unfold Machine.move
    rw [t.strict (eq_true_of_ne_false htests)]
    rfl
  have hstatus := rejected_of_not_always hreject h
  have hcs := (t.table false).run_cs (s := Scan.start .init) ⟨by decide, by decide⟩ text
  rw [hstatus] at hcs
  have hparsed := (t.table false).parsed_cs text (hint.trans (by decide))
  rw [show ((t.table false).scan .init text).state.cs = errorState from hcs] at hparsed
  rw [HttpRequestParser.hasError, hparsed]
  simp

end

/-- New parsers agree on a text, without reading what is not set, exactly where the
text makes the machine test `uri_relaxed` nowhere. Where it does, they disagree if the
machine goes on to parse the text. -/
theorem agrees_iff (t : Tables) (text : List UInt8) :
    (t.Agrees text ∧ t.Initialised text ↔ (text.length < 2 ^ 31 → t.Untested false text)) ∧
      (text.length < 2 ^ 31 → ((t.table true).parsed text).hasError = false →
        (t.Agrees text ↔ t.Untested false text)) := by
  have hagrees (hcond : text.length < 2 ^ 31 → t.Untested false text) : t.Agrees text := by
    intro g g'
    by_cases hint : text.length < 2 ^ 31
    · by_cases hne : text = []
      · rw [hne, result_nil, result_nil]
      · rw [t.result_untested g hne hint (hcond hint), t.result_untested g' hne hint (hcond hint)]
    · rw [t.result_long g (Nat.le_of_not_lt hint), t.result_long g' (Nat.le_of_not_lt hint)]
  refine ⟨?_, fun hint haccepted => ⟨fun h => ?_, fun h => hagrees fun _ => h⟩⟩
  · rw [initialised_iff]
    exact ⟨fun h => h.2, fun h => ⟨hagrees h, h⟩⟩
  · by_contra htested
    have hne : text ≠ [] := by
      rintro rfl
      exact htested trivial
    have hsame := h ⟨0, 0⟩ ⟨0, 1⟩
    rw [t.result_selected ⟨0, 0⟩ hne hint, t.result_selected ⟨0, 1⟩ hne hint] at hsame
    injection hsame with hvalue hverdict
    have herror : ((t.table false).parsed text).hasError = ((t.table true).parsed text).hasError :=
      congrArg Prod.fst hverdict
    rw [t.hasError_of_tested hint htested, haccepted] at herror
    cases herror

end Tables

/-! ## A caret in the path -/

/-- The machine of some rules, and of those that hold where `uri_relaxed` is set. -/
def Tables.ofRules (relaxed rules : List Rule) (known : Nat → Known)
    (hstart : known startState = ⟨false, false⟩) (hall : ∀ r ∈ relaxed ++ rules, r.Sound known)
    (htests : ∀ r ∈ relaxed, r.lo = r.hi ∧ (r.lo = 94 ∨ r.lo = 123 ∨ r.lo = 125) ∧
      (rules.find? fun r' => r'.Matches r.cs r.lo) = none) : Tables where
  table
    | true => .ofTable (relaxed ++ rules) known hstart hall
    | false => .ofTable rules known hstart fun r hr => hall r (List.mem_append_right _ hr)
  tests cs b := relaxed.any fun r => r.Matches cs b
  same := by
    intro cs b h
    show tableStep (relaxed ++ rules) cs b = tableStep rules cs b
    have hnone : (relaxed.find? fun r => r.Matches cs b) = none := by
      rw [List.find?_eq_none]
      exact List.any_eq_false.mp h
    rw [tableStep, List.find?_append, hnone]
    rfl
  strict := by
    intro cs b h
    obtain ⟨r, hr, hmatch⟩ := List.any_eq_true.mp h
    obtain ⟨hcs, hlo, hhi⟩ := of_decide_eq_true hmatch
    obtain ⟨hbyte, -, hnone⟩ := htests r hr
    rw [← hbyte] at hhi
    rw [hcs, UInt8.le_antisymm hlo hhi] at hnone
    show tableStep rules cs b = .error
    rw [tableStep, hnone]
  chars := by
    intro cs b h
    obtain ⟨r, hr, hmatch⟩ := List.any_eq_true.mp h
    obtain ⟨-, hlo, hhi⟩ := of_decide_eq_true hmatch
    obtain ⟨hbyte, hchars, -⟩ := htests r hr
    rw [← hbyte] at hhi
    rw [UInt8.le_antisymm hlo hhi] at hchars
    exact hchars

/-- Behind the slash a path with one more byte. -/
def tailRules : List Rule := [⟨26, 32, 32, .goto [.element .requestPath, .element .requestUri] 4⟩]

def relaxedRules : List Rule :=
  [⟨33, 94, 94, .goto [] 26⟩, ⟨33, 123, 123, .goto [] 26⟩, ⟨33, 125, 125, .goto [] 26⟩]

theorem relaxed_sound :
    ∀ r ∈ relaxedRules ++ (methodRules ++ lineRules ++ headerRules ++ tailRules),
      r.Sound plainKnown := by
  decide

theorem relaxed_tests : ∀ r ∈ relaxedRules, r.lo = r.hi ∧ (r.lo = 94 ∨ r.lo = 123 ∨ r.lo = 125) ∧
    ((methodRules ++ lineRules ++ headerRules ++ tailRules).find? fun r' =>
      r'.Matches r.cs r.lo) = none := by
  intro r hr
  refine ⟨?_, ?_, ?_⟩
  · revert r
    decide
  · revert r
    decide
  · rw [List.find?_eq_none]
    revert r
    decide

def plainTables : Tables :=
  .ofRules relaxedRules _ plainKnown plain_start relaxed_sound relaxed_tests

def caretRequest : List UInt8 := bytes "GET /^ HTTP/1.1\r\n\r\n"

theorem agrees_iff_caret :
    plainTables.Agrees caretRequest ↔ plainTables.Untested false caretRequest :=
  (Tables.agrees_iff plainTables caretRequest).2 (by decide) (by decide +kernel)

/-- What the memory held decides whether the request is accepted. -/
theorem caret_disagrees : ¬∀ (t : Tables) (text : List UInt8), t.Agrees text := by
  intro hall
  have hint : caretRequest.length < 2 ^ 31 := by decide
  have hne : caretRequest ≠ [] := by decide
  have hsame := hall plainTables caretRequest ⟨0, 0⟩ ⟨0, 1⟩
  rw [plainTables.result_selected ⟨0, 0⟩ hne hint, plainTables.result_selected ⟨0, 1⟩ hne hint]
    at hsame
  injection hsame with hvalue hverdict
  have hzero : ((plainTables.table false).parsed caretRequest).hasError = true := by decide +kernel
  have hone : ((plainTables.table true).parsed caretRequest).hasError = false := by decide +kernel
  have herror : ((plainTables.table false).parsed caretRequest).hasError =
      ((plainTables.table true).parsed caretRequest).hasError := congrArg Prod.fst hverdict
  rw [hzero, hone] at herror
  cases herror

end Http
end TwServer
