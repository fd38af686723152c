import TwServer.Http.RespondLines

/-! The head of a respond, read by the whole machine: a status line, header lines and an empty
line. Each line is read from the state that the line in front leaves, and adds the calls that
make of the parser what the line says. -/

namespace TwServer
open Programs Program Blocks Automaton Lines

namespace Http
/-- The offsets that a call leaves. -/
theorem HttpclientParser.execute_state {table : Table} {data : List UInt8} {len : Nat}
    {chunck : Bool} {s t : HttpclientParser} {r : BitVec 64 × List UInt8}
    (h : execute table data len chunck s = .ok r t) :
    t = scanned table data len (start chunck s) := by
  rw [execute_eq] at h
  obtain ⟨n, u, hrun, h⟩ := of_bind_ok h
  obtain ⟨moved, v, hmove, h⟩ := of_bind_ok h
  injection h with _ ht
  obtain ⟨-, -, hu, -⟩ := of_httpclientParserExecute hrun
  rw [← ht, of_memmove hmove, hu]

namespace HttpRespondParser
open HttpclientParser (httpclient lineStarts valueStarts isToken isBlank isDigit isValue firstName
  nameState valueStart valueState)

/-- Where a scan stands, and its calls. -/
structure At (t : Trace) (cs p : Nat) (calls : List Call) : Prop where
  cs : t.scan.parser.cs = cs
  p : t.scan.p = p
  calls : t.calls = calls

/-! ## Bytes that only move the machine -/

def Trace.moved (t : Trace) (cs n : Nat) : Trace :=
  { t with scan.parser.cs := cs, scan.p := t.scan.p + n }

theorem move_goto {table : HttpclientParser.Table} {t : Trace} {b : UInt8}
    {actions : List HttpclientParser.Action} {cs : Nat}
    (h : table t.scan.parser.cs b = .goto actions cs) :
    move table t b = .next ((actions.foldl Trace.act t).moved cs 1) := by
  rw [move, h]
  rfl

theorem moved_moved (t : Trace) (cs cs' m n : Nat) :
    (t.moved cs m).moved cs' n = t.moved cs' (m + n) := by
  unfold Trace.moved
  rw [Nat.add_assoc]

/-- Bytes without an action, in states that they do not leave. -/
theorem feed_quiet {table : HttpclientParser.Table} {next : Nat → UInt8 → Nat} {Q : Nat → Prop}
    {bs : List UInt8} {t : Trace}
    (hquiet : ∀ cs, Q cs → ∀ b ∈ bs, table cs b = .goto [] (next cs b) ∧ Q (next cs b))
    (h : Q t.scan.parser.cs) :
    feed (move table) t bs = some (t.moved (bs.foldl next t.scan.parser.cs) bs.length) := by
  induction bs generalizing t with
  | nil => rfl
  | cons b bs ih =>
    obtain ⟨hb, hnext⟩ := hquiet _ h b List.mem_cons_self
    rw [feed_next (move_goto hb)]
    show feed (move table) (t.moved _ 1) bs = _
    rw [ih (fun cs hcs c hc => hquiet cs hcs c (List.mem_cons_of_mem b hc)) hnext, moved_moved,
      Nat.add_comm, List.length_cons]
    rfl

/-- Bytes without an action in one state. -/
theorem feed_stay {table : HttpclientParser.Table} {cs : Nat} {bs : List UInt8} {t : Trace}
    (hstay : ∀ b ∈ bs, table cs b = .goto [] cs) (h : t.scan.parser.cs = cs) :
    feed (move table) t bs = some (t.moved cs bs.length) := by
  have hconst : ∀ bs : List UInt8, bs.foldl (fun _ _ => cs) cs = cs := by
    intro bs
    induction bs with
    | nil => rfl
    | cons b bs ih => exact ih
  have hfeed : feed (move table) t bs =
      some (t.moved (bs.foldl (fun _ _ => cs) t.scan.parser.cs) bs.length) :=
    feed_quiet (fun next (hnext : next = cs) b hb => ⟨hnext ▸ hstay b hb, rfl⟩) h
  rw [hfeed, h, hconst]

/-- A first byte that may have actions, and bytes behind it that have none. -/
theorem feed_word {table : HttpclientParser.Table} {t : Trace}
    {actions : List HttpclientParser.Action} {next : Nat} {text : List UInt8} (hne : text ≠ [])
    (hfirst : ∀ b ∈ text, table t.scan.parser.cs b = .goto actions next)
    (hnext : ∀ b ∈ text, table next b = .goto [] next) :
    feed (move table) t text = some ((actions.foldl Trace.act t).moved next text.length) := by
  obtain ⟨b, bs, rfl⟩ := List.exists_cons_of_ne_nil hne
  have hrest : feed (move table) ((actions.foldl Trace.act t).moved next 1) bs =
      some (((actions.foldl Trace.act t).moved next 1).moved next bs.length) :=
    feed_stay (fun c hc => hnext c (List.mem_cons_of_mem b hc)) rfl
  rw [feed_next (move_goto (hfirst b List.mem_cons_self)), hrest, moved_moved, Nat.add_comm,
    List.length_cons]

theorem feed_byte {t : Trace} {cs next : Nat} {b : UInt8} {actions : List HttpclientParser.Action}
    (ht : t.scan.parser.cs = cs) (h : httpclient cs b = .goto actions next) :
    feed (move httpclient) t [b] = some ((actions.foldl Trace.act t).moved next 1) :=
  feed_next (move_goto (ht ▸ h))

theorem lengthFrom_add (start n : Nat) : lengthFrom start (start + n) = n := by
  rw [lengthFrom, if_pos (by omega), Nat.add_sub_cancel_left]

/-! ## A header line -/

/-- What the end of a line has left to do. -/
def pendingCalls (cs : Nat) : List Call := if cs = 43 then [.connClose] else []

theorem feed_name {t : Trace} {cs p : Nat} {calls : List Call} {name : List UInt8}
    (h : At t cs p calls) (hcs : cs ∈ lineStarts) (hne : name ≠ [])
    (hname : ∀ b ∈ name, isToken b = true) :
    ∃ t', feed (move httpclient) t name = some t' ∧
      At t' (nameState cs name) (p + name.length) (calls ++ pendingCalls cs) ∧
      t'.scan.parser.fieldStart = p := by
  obtain ⟨rfl, rfl, rfl⟩ := h
  obtain ⟨b, bs, rfl⟩ := List.exists_cons_of_ne_nil hne
  obtain ⟨marks, hmarks, hopen⟩ := HttpclientParser.httpclient_open hcs (hname b List.mem_cons_self)
  have hfirst : ∃ t₁, move httpclient t b = .next t₁ ∧
      At t₁ (firstName t.scan.parser.cs b) (t.scan.p + 1) (t.calls ++ pendingCalls t.scan.parser.cs) ∧
      t₁.scan.parser.fieldStart = t.scan.p := by
    refine ⟨_, move_goto hopen, ?_⟩
    unfold HttpclientParser.pending pendingCalls
    rcases hmarks with rfl | rfl
    · split
      · exact ⟨⟨rfl, rfl, rfl⟩, rfl⟩
      · exact ⟨⟨rfl, rfl, (List.append_nil _).symm⟩, rfl⟩
    · split
      · exact ⟨⟨rfl, rfl, rfl⟩, rfl⟩
      · exact ⟨⟨rfl, rfl, (List.append_nil _).symm⟩, rfl⟩
  obtain ⟨t₁, hmove, ⟨hcs₁, hp₁, hcalls₁⟩, hfield₁⟩ := hfirst
  have hrest : feed (move httpclient) t₁ bs =
      some (t₁.moved (HttpclientParser.spells 21 t₁.scan.parser.cs bs) bs.length) := by
    refine feed_quiet (fun next hnext c hc => ⟨?_, ?_⟩) (hcs₁ ▸ HttpclientParser.firstName_mem _ b)
    · exact HttpclientParser.httpclient_token hnext (hname c (List.mem_cons_of_mem b hc))
    · exact HttpclientParser.spell_mem (by decide) HttpclientParser.names_closed hnext c
  refine ⟨_, (feed_next hmove).trans hrest, ⟨congrArg (HttpclientParser.spells 21 · bs) hcs₁, ?_,
    hcalls₁⟩, hfield₁⟩
  show t₁.scan.p + bs.length = _
  rw [hp₁, List.length_cons]
  omega

theorem feed_colon {t : Trace} {cs p : Nat} {calls : List Call} (h : At t cs p calls)
    (hcs : cs ∈ HttpclientParser.names) :
    ∃ t', feed (move httpclient) t [58] = some t' ∧
      At t' (HttpclientParser.colon cs) (p + 1) calls ∧
      t'.scan.parser.fieldStart = t.scan.parser.fieldStart ∧
      t'.scan.parser.fieldLen = lengthFrom t.scan.parser.fieldStart p := by
  obtain ⟨rfl, rfl, rfl⟩ := h
  have hmove := move_goto (HttpclientParser.httpclient_colon hcs)
  exact ⟨_, feed_next hmove, ⟨rfl, rfl, rfl⟩, rfl, rfl⟩

/-- The value of a header without the blanks in front. -/
def trim (value : List UInt8) : List UInt8 := value.dropWhile isBlank

theorem feed_blanks {t : Trace} {cs p : Nat} {calls : List Call} {blanks : List UInt8}
    (h : At t cs p calls) (hcs : cs ∈ valueStarts) (hblanks : ∀ b ∈ blanks, isBlank b = true) :
    ∃ t', feed (move httpclient) t blanks = some t' ∧ At t' cs (p + blanks.length) calls ∧
      t'.scan.parser.fieldStart = t.scan.parser.fieldStart ∧
      t'.scan.parser.fieldLen = t.scan.parser.fieldLen := by
  induction blanks generalizing t p with
  | nil => exact ⟨t, rfl, h, rfl, rfl⟩
  | cons b bs ih =>
    have hfirst : ∃ t₁, move httpclient t b = .next t₁ ∧ At t₁ cs (p + 1) calls ∧
        t₁.scan.parser.fieldStart = t.scan.parser.fieldStart ∧
        t₁.scan.parser.fieldLen = t.scan.parser.fieldLen := by
      obtain ⟨rfl, rfl, rfl⟩ := h
      exact ⟨_, move_goto (HttpclientParser.httpclient_blank hcs (hblanks b List.mem_cons_self)),
        ⟨rfl, rfl, rfl⟩, rfl, rfl⟩
    obtain ⟨t₁, hmove, hat₁, hstart₁, hlen₁⟩ := hfirst
    obtain ⟨t', hfeed, hat, hstart, hlen⟩ :=
      ih hat₁ fun c hc => hblanks c (List.mem_cons_of_mem b hc)
    rw [Nat.add_right_comm, Nat.add_assoc p] at hat
    exact ⟨t', (feed_next hmove).trans hfeed, hat, hstart.trans hstart₁, hlen.trans hlen₁⟩

/-- What the end of a line takes from a scan: the name and where the value starts. -/
structure Field (t : Trace) (field flen mark : Nat) : Prop where
  field : t.scan.parser.fieldStart = field
  flen : t.scan.parser.fieldLen = flen
  mark : t.scan.parser.mark = mark

theorem feed_text {t : Trace} {cs p : Nat} {calls : List Call} {v : List UInt8}
    (h : At t cs p calls) (hcs : cs ∈ valueStarts) (hne : v ≠ []) (hline : IsLine v)
    (hfirst : ∀ b ∈ v.head?, isBlank b = false) :
    ∃ t', feed (move httpclient) t v = some t' ∧ At t' (valueState cs v) (p + v.length) calls ∧
      Field t' t.scan.parser.fieldStart t.scan.parser.fieldLen p := by
  obtain ⟨b, bs, rfl⟩ := List.exists_cons_of_ne_nil hne
  obtain ⟨hclosed, hplain⟩ := HttpclientParser.values_closed _ hcs
  have hbytes : ∀ c ∈ b :: bs, c ≠ 10 ∧ c ≠ 13 :=
    fun c hc => ⟨fun heq => hline.2 (heq ▸ hc), fun heq => hline.1 (heq ▸ hc)⟩
  have hopen : ∃ t₁, move httpclient t b = .next t₁ ∧
      At t₁ (HttpclientParser.firstValue cs b) (p + 1) calls ∧
      Field t₁ t.scan.parser.fieldStart t.scan.parser.fieldLen p := by
    obtain ⟨rfl, rfl, rfl⟩ := h
    obtain ⟨hlf, hcr⟩ := hbytes b List.mem_cons_self
    exact ⟨_, move_goto (HttpclientParser.httpclient_first hcs (hfirst b rfl) hlf hcr),
      ⟨rfl, rfl, rfl⟩, rfl, rfl, rfl⟩
  obtain ⟨t₁, hmove, ⟨hcs₁, hp₁, hcalls₁⟩, hfield₁⟩ := hopen
  have hrest : feed (move httpclient) t₁ bs =
      some (t₁.moved (HttpclientParser.spells 23 t₁.scan.parser.cs bs) bs.length) := by
    refine feed_quiet (fun next hnext c hc => ⟨?_, ?_⟩)
      (hcs₁ ▸ HttpclientParser.firstValue_mem cs b)
    · obtain ⟨hlf, hcr⟩ := hbytes c (List.mem_cons_of_mem b hc)
      exact HttpclientParser.httpclient_text (hclosed next hnext).1 hlf hcr
    · exact HttpclientParser.spell_mem hplain (fun cs hcs => (hclosed cs hcs).2) hnext c
  refine ⟨_, (feed_next hmove).trans hrest,
    ⟨congrArg (HttpclientParser.spells 23 · bs) hcs₁, ?_, hcalls₁⟩,
    hfield₁.field, hfield₁.flen, hfield₁.mark⟩
  show t₁.scan.p + bs.length = _
  rw [hp₁, List.length_cons]
  omega

/-- The calls at the end of a line whose value leaves the state `cs`. -/
def endCalls (cs field flen q length : Nat) : List Call :=
  (if cs = 119 then [.writeContentLength q] else []) ++ [.httpField field flen q length] ++
    if cs = 87 then [.transferEncodingChunked] else []

/-- The calls of a value `v` at the offset `q`, from the state in front of it. -/
def valueCalls (cs field flen q : Nat) (v : List UInt8) : List Call :=
  if v = [] then [.httpField field flen q 0]
  else endCalls (valueState cs v) field flen q v.length

/-- The state at the start of the next line. -/
def lineAfter (cs : Nat) (v : List UInt8) : Nat :=
  if v = [] then HttpclientParser.emptyEnd cs else if valueState cs v = 100 then 43 else 20

theorem feed_end {t : Trace} {cs field flen q length : Nat} {calls : List Call}
    (h : At t cs (q + length) calls) (hfield : Field t field flen q) (hcs : isValue cs = true) :
    ∃ t', feed (move httpclient) t crlf = some t' ∧
      At t' (if cs = 100 then 43 else 20) (q + length + 2)
        (calls ++ endCalls cs field flen q length) := by
  obtain ⟨next, hcr, hlf⟩ := HttpclientParser.httpclient_end hcs
  have hopen : ∃ t₁, move httpclient t 13 = .next t₁ ∧ At t₁ next (q + length + 1)
      (calls ++ ((if cs = 119 then [.writeContentLength q] else []) ++
        [.httpField field flen q length])) := by
    obtain ⟨rfl, hp, rfl⟩ := h
    obtain ⟨rfl, rfl, rfl⟩ := hfield
    have hlength : lengthFrom t.scan.parser.mark t.scan.p = length := by
      rw [hp, lengthFrom_add]
    refine ⟨_, move_goto hcr, ?_⟩
    by_cases hnumber : t.scan.parser.cs = 119
    · rw [if_pos hnumber, if_pos hnumber, ← hp, ← hlength]
      exact ⟨rfl, rfl, List.append_assoc _ [_] [_]⟩
    · rw [if_neg hnumber, if_neg hnumber, ← hp, ← hlength]
      exact ⟨rfl, rfl, rfl⟩
  obtain ⟨t₁, hmove, rfl, hp₁, hcalls₁⟩ := hopen
  refine ⟨_, (feed_next hmove).trans (feed_next (move_goto hlf)), rfl, ?_, ?_⟩
  · show (List.foldl Trace.act t₁ _).scan.p + 1 = _
    split
    · exact congrArg (· + 1) hp₁
    · exact congrArg (· + 1) hp₁
  · show (List.foldl Trace.act t₁ _).calls = _
    unfold endCalls
    rw [← List.append_assoc, ← hcalls₁]
    split
    · rfl
    · exact (List.append_nil _).symm

theorem trim_head {value : List UInt8} : ∀ b ∈ (trim value).head?, isBlank b = false := by
  intro b hb
  have hhead := List.head?_dropWhile_not isBlank value
  rw [show value.dropWhile isBlank = trim value from rfl, Option.mem_def.mp hb] at hhead
  exact hhead

/-- What stands behind the colon, blanks first. -/
theorem feed_value {t : Trace} {cs p : Nat} {calls : List Call} {value : List UInt8}
    (h : At t cs p calls) (hcs : cs ∈ valueStarts) (hline : IsLine value) :
    ∃ t', feed (move httpclient) t (value ++ crlf) = some t' ∧
      At t' (lineAfter cs (trim value)) (p + value.length + 2)
        (calls ++ valueCalls cs t.scan.parser.fieldStart t.scan.parser.fieldLen
          (p + (value.length - (trim value).length)) (trim value)) := by
  have hvalue : value.takeWhile isBlank ++ trim value = value := List.takeWhile_append_dropWhile
  have hlength : (value.takeWhile isBlank).length + (trim value).length = value.length := by
    rw [← List.length_append, hvalue]
  obtain ⟨t₁, hblanks, hat₁, hstart₁, hlen₁⟩ :=
    feed_blanks h hcs fun b hb => List.mem_takeWhile_imp hb
  have hq : p + (value.length - (trim value).length) = p + (value.takeWhile isBlank).length := by
    omega
  rw [← hstart₁, ← hlen₁, hq]
  conv => enter [1, t', 1]; rw [← hvalue, List.append_assoc, feed_append hblanks]
  unfold lineAfter valueCalls
  by_cases hne : trim value = []
  · rw [if_pos hne, if_pos hne, hne, List.nil_append]
    rw [hne, List.length_nil, Nat.add_zero] at hlength
    rw [hlength] at hat₁ ⊢
    obtain ⟨rfl, hp, rfl⟩ := hat₁
    obtain ⟨next, hcr, hlf⟩ := HttpclientParser.httpclient_empty hcs
    have hcr' := move_goto hcr
    have hlf' := move_goto (t := ((t₁.act .startValue).act .httpField).moved next 1) hlf
    refine ⟨_, (feed_next hcr').trans (feed_next hlf'), rfl, congrArg (· + 2) hp, ?_⟩
    have hempty : lengthFrom t₁.scan.p t₁.scan.p = 0 := lengthFrom_add t₁.scan.p 0
    show t₁.calls ++ [.httpField _ _ t₁.scan.p (lengthFrom t₁.scan.p t₁.scan.p)] = _
    rw [hempty, hp]
    rfl
  · rw [if_neg hne, if_neg hne]
    have htrim : IsLine (trim value) := (isLine_append.mp (hvalue.symm ▸ hline)).2
    obtain ⟨t₂, htext, hat₂, hfield₂⟩ := feed_text hat₁ hcs hne htrim trim_head
    have hclosed := (HttpclientParser.values_closed cs hcs).1 _
      (HttpclientParser.valueState_mem hcs hne)
    obtain ⟨t₃, hend, hat₃⟩ := feed_end hat₂ hfield₂ hclosed.1
    rw [← hlength, ← Nat.add_assoc]
    exact ⟨t₃, (feed_append htext).trans hend, hat₃⟩

/-- The calls of a header line that starts at `start`. -/
def lineCalls (h : Header) (start : Nat) : List Call :=
  valueCalls (valueStart h.1) start h.1.length
    (start + h.1.length + 1 + (h.2.length - (trim h.2).length)) (trim h.2)

theorem feed_line {t : Trace} {cs p : Nat} {calls : List Call} {h : Header}
    (hat : At t cs p calls) (hcs : cs ∈ lineStarts) (hne : h.1 ≠ [])
    (hname : ∀ b ∈ h.1, isToken b = true) (hline : IsLine h.2) :
    ∃ t', feed (move httpclient) t (headerLine h ++ crlf) = some t' ∧
      At t' (lineAfter (valueStart h.1) (trim h.2)) (p + (headerLine h ++ crlf).length)
        (calls ++ pendingCalls cs ++ lineCalls h p) := by
  obtain ⟨t₁, hfeed₁, hat₁, hfield₁⟩ := feed_name hat hcs hne hname
  obtain ⟨t₂, hfeed₂, hat₂, hfield₂, hlen₂⟩ := feed_colon hat₁ (HttpclientParser.nameState_mem hne)
  rw [HttpclientParser.colon_nameState hcs hne] at hat₂
  obtain ⟨t₃, hfeed₃, hat₃⟩ := feed_value hat₂ (HttpclientParser.valueStart_mem h.1) hline
  rw [hfield₂, hfield₁] at hat₃
  rw [hlen₂, hfield₁, lengthFrom_add] at hat₃
  have htext : headerLine h ++ crlf = h.1 ++ ([58] ++ (h.2 ++ crlf)) := by
    rw [headerLine, List.append_assoc, List.append_assoc]
    rfl
  refine ⟨t₃, ?_, ?_⟩
  · rw [htext, feed_append hfeed₁, feed_append hfeed₂, hfeed₃]
  · have hlength : p + (headerLine h ++ crlf).length = p + h.1.length + 1 + h.2.length + 2 := by
      rw [htext]
      simp only [List.length_append, List.length_cons, List.length_nil, crlf]
      omega
    rw [hlength]
    exact hat₃

/-! ## What a header line says -/

/-- It declares the length of the body. -/
def Measures (h : Header) : Prop :=
  h.1.map toLower = bytes "content-length" ∧ trim h.2 ≠ [] ∧ ∀ b ∈ trim h.2, isDigit b = true

def Chunks (h : Header) : Prop :=
  h.1.map toLower = bytes "transfer-encoding" ∧ (trim h.2).map toLower = bytes "chunked"

def Closes (h : Header) : Prop :=
  h.1.map toLower = bytes "connection" ∧ (trim h.2).map toLower = bytes "close"

/-- It has no value, but for the machine there may be one on the next line. -/
def Opens (h : Header) : Prop :=
  trim h.2 = [] ∧ (h.1.map toLower = bytes "connection" ∨
    h.1.map toLower = bytes "transfer-encoding" ∨ h.1.map toLower = bytes "content-length")

instance (h : Header) : Decidable (Measures h) := inferInstanceAs (Decidable (_ ∧ _))
instance (h : Header) : Decidable (Chunks h) := inferInstanceAs (Decidable (_ ∧ _))
instance (h : Header) : Decidable (Closes h) := inferInstanceAs (Decidable (_ ∧ _))
instance (h : Header) : Decidable (Opens h) := inferInstanceAs (Decidable (_ ∧ _))

/-- The parser behind a header line. -/
def received (h : Header) (s : HttpRespondParser) : HttpRespondParser :=
  { s with
    data := s.data.setHeader h.1 (trim h.2)
    contentLen :=
      if Measures h then toInt (min (2 ^ 63 - 1) (Strtol.number 10 (trim h.2))) else s.contentLen
    chunked := s.chunked || Chunks h
    close := s.close || Closes h }

theorem valueStart_iff (name : List UInt8) :
    (valueStart name = 35 ↔ name.map toLower = bytes "connection") ∧
      (valueStart name = 61 ↔ name.map toLower = bytes "transfer-encoding") ∧
      (valueStart name = 112 ↔ name.map toLower = bytes "content-length") := by
  have hdistinct : bytes "transfer-encoding" ≠ bytes "connection" ∧
      bytes "content-length" ≠ bytes "connection" ∧
      bytes "content-length" ≠ bytes "transfer-encoding" := by decide
  unfold valueStart
  grind

theorem lineCalls_eq (h : Header) (start : Nat) :
    lineCalls h start ++ pendingCalls (lineAfter (valueStart h.1) (trim h.2)) =
      (if Measures h then
        [.writeContentLength (start + h.1.length + 1 + (h.2.length - (trim h.2).length))] else []) ++
      [.httpField start h.1.length (start + h.1.length + 1 + (h.2.length - (trim h.2).length))
        (trim h.2).length] ++
      (if Chunks h then [.transferEncodingChunked] else []) ++
      if Closes h then [.connClose] else [] := by
  obtain ⟨hconnection, htransfer, hlength⟩ := valueStart_iff h.1
  unfold lineCalls valueCalls lineAfter
  by_cases hne : trim h.2 = []
  · have hmeasures : ¬Measures h := fun hmeasures => hmeasures.2.1 hne
    have hchunks : ¬Chunks h := by
      rintro ⟨-, hchunks⟩
      rw [hne] at hchunks
      exact absurd hchunks (by decide)
    have hcloses : ¬Closes h := by
      rintro ⟨-, hcloses⟩
      rw [hne] at hcloses
      exact absurd hcloses (by decide)
    have hpending : pendingCalls (HttpclientParser.emptyEnd (valueStart h.1)) = [] := by
      unfold HttpclientParser.emptyEnd pendingCalls
      grind
    rw [if_pos hne, if_pos hne, if_neg hmeasures, if_neg hchunks, if_neg hcloses, hpending, hne]
    rfl
  · obtain ⟨hclose, hchunked, hnumber⟩ :=
      HttpclientParser.valueState_eq_iff (HttpclientParser.valueStart_mem h.1) hne
    rw [hconnection] at hclose
    rw [htransfer] at hchunked
    rw [hlength] at hnumber
    have hmeasures : valueState (valueStart h.1) (trim h.2) = 119 ↔ Measures h :=
      hnumber.trans (and_congr_right fun _ => (and_iff_right hne).symm)
    rw [if_neg hne, if_neg hne, endCalls, if_congr hmeasures rfl rfl, if_congr hchunked rfl rfl,
      if_congr hclose rfl rfl]
    have hpending : pendingCalls (if Closes h then 43 else 20) =
        if Closes h then [.connClose] else [] := by
      split
      · rfl
      · rfl
    exact congrArg (_ ++ ·) hpending

/-! ## Running the calls -/

/-- A part of the buffer. -/
theorem readString_part {m pre text post : List UInt8} (hm : m = pre ++ (text ++ post))
    (hlen : m.length < 2 ^ 63) (s : HttpRespondParser) :
    readString m pre.length text.length s = .ok text s := by
  subst hm
  simp only [List.length_append] at hlen
  have hslice : slice (pre ++ (text ++ post)) (pre.length + 0) text.length =
      slice (text ++ post) 0 text.length := slice_append_right
  rw [Nat.add_zero] at hslice
  rw [readString, if_neg (by omega), if_pos (by simp only [List.length_append]; omega), hslice,
    slice, List.drop_zero, List.take_left]
  rfl

theorem digit_of_isDigit {b : UInt8} (h : isDigit b = true) : Strtol.isDigit 10 b = true := by
  unfold isDigit at h
  rw [Bool.and_eq_true, decide_eq_true_eq, decide_eq_true_eq, UInt8.le_iff_toNat_le,
    UInt8.le_iff_toNat_le] at h
  obtain ⟨hlo, hhi⟩ := h
  have hhi' : b.toNat ≤ 57 := hhi
  rw [Strtol.isDigit, Strtol.value, if_pos ⟨hlo, hhi⟩]
  exact decide_eq_true (by omega)

/-- The number at a place of the buffer. -/
theorem readInt_part {m pre text post : List UInt8} {b : UInt8} (hm : m = pre ++ (text ++ b :: post))
    (hne : text ≠ []) (htext : ∀ d ∈ text, isDigit d = true) (hb : b = 13 ∨ b = 32)
    (s : HttpRespondParser) :
    readInt 10 m pre.length s = .ok (toInt (min (2 ^ 63 - 1) (Strtol.number 10 text))) s := by
  have hdrop : m.drop pre.length = text ++ b :: post := by rw [hm, List.drop_left]
  have hend : Strtol.isDigit 10 b = false ∧ b ≠ 88 ∧ b ≠ 120 := by
    rcases hb with rfl | rfl
    · decide
    · decide
  rw [readInt, hdrop, Strtol.strtol_digits (by decide) hne
    (fun d hd => digit_of_isDigit (htext d hd)) hend.1 hend.2]
  rfl

/-- A call that is only made under a condition. -/
theorem run_if {m : List UInt8} {c : Prop} [Decidable c] {call : Call} {s t : HttpRespondParser}
    (h : c → call.run m s = .ok () t) :
    (if c then [call] else []).forM (Call.run m) s = .ok () (if c then t else s) := by
  by_cases hc : c
  · rw [if_pos hc, if_pos hc, forM_cons, bind_ok (h hc)]
    rfl
  · rw [if_neg hc, if_neg hc]
    rfl

theorem run_line {h : Header} {m pre post : List UInt8}
    (hm : m = pre ++ (headerLine h ++ crlf) ++ post) (hlen : m.length < 2 ^ 63) (hne : h.1 ≠ [])
    (s : HttpRespondParser) :
    (lineCalls h pre.length ++ pendingCalls (lineAfter (valueStart h.1) (trim h.2))).forM
      (Call.run m) s = .ok () (received h s) := by
  have hcolon : bytes ":" = [58] := rfl
  have hvalue : h.2.takeWhile isBlank ++ trim h.2 = h.2 := List.takeWhile_append_dropWhile
  have hname : m = pre ++ (h.1 ++ (58 :: (h.2 ++ crlf ++ post))) := by
    rw [hm, headerLine, hcolon]
    simp only [List.append_assoc, List.cons_append, List.nil_append]
  have hfield : m = (pre ++ h.1 ++ [58] ++ h.2.takeWhile isBlank) ++ (trim h.2 ++ 13 :: 10 :: post) := by
    rw [hname]
    conv => lhs; rw [← hvalue]
    simp only [List.append_assoc, List.cons_append, List.nil_append, crlf]
  have hstart : pre.length + h.1.length + 1 + (h.2.length - (trim h.2).length) =
      (pre ++ h.1 ++ [58] ++ h.2.takeWhile isBlank).length := by
    have hlength := congrArg List.length hvalue
    simp only [List.length_append, List.length_cons, List.length_nil] at hlength ⊢
    omega
  have hput : ∀ s, (Call.httpField pre.length h.1.length
      (pre ++ h.1 ++ [58] ++ h.2.takeWhile isBlank).length (trim h.2).length).run m s =
      .ok () { s with data := s.data.setHeader h.1 (trim h.2) } := by
    intro s
    rw [Call.run, onRespondHttpField, if_neg (by simpa using hne),
      bind_ok (readString_part hname hlen s), bind_ok (readString_part hfield hlen s)]
    rfl
  have hmeasure := run_if (m := m) (c := Measures h) (s := s) fun hmeasures =>
    show (Call.writeContentLength _).run m s = _ from
      bind_ok (readInt_part hfield hmeasures.2.1 hmeasures.2.2 (.inl rfl) s)
  have hchunk : ∀ s, (if Chunks h then [Call.transferEncodingChunked] else []).forM (Call.run m) s =
      .ok () (if Chunks h then { s with chunked := true } else s) := fun s => run_if fun _ => rfl
  have hclose : ∀ s, (if Closes h then [Call.connClose] else []).forM (Call.run m) s =
      .ok () (if Closes h then { s with close := true } else s) := fun s => run_if fun _ => rfl
  have hfieldRun : ∀ s, [Call.httpField pre.length h.1.length
      (pre ++ h.1 ++ [58] ++ h.2.takeWhile isBlank).length (trim h.2).length].forM (Call.run m) s =
      .ok () { s with data := s.data.setHeader h.1 (trim h.2) } := by
    intro s
    rw [forM_cons, bind_ok (hput s)]
    rfl
  rw [lineCalls_eq, hstart, forM_append_ok (forM_append_ok (forM_append_ok hmeasure (hfieldRun _))
    (hchunk _)) (hclose _)]
  unfold received
  congr 1
  by_cases h₁ : Measures h <;> by_cases h₂ : Chunks h <;> by_cases h₃ : Closes h <;> simp [h₁, h₂, h₃]

/-! ## Header lines -/

/-- A scan at the start of a line, with calls that do `f`. -/
def Ready (m : List UInt8) (t : Trace) (cs p : Nat) (f : HttpRespondParser → HttpRespondParser) :
    Prop :=
  ∃ calls, cs ∈ lineStarts ∧ At t cs p calls ∧
    ∀ s, (calls ++ pendingCalls cs).forM (Call.run m) s = .ok () (f s)

/-- The state at the start of the line behind a header. -/
def stateBehind (h : Header) : Nat := lineAfter (valueStart h.1) (trim h.2)

/-- A header that can be written as a line. -/
structure IsField (h : Header) : Prop where
  ne : h.1 ≠ []
  name : ∀ b ∈ h.1, isToken b = true
  value : IsLine h.2

theorem lineAfter_mem (name v : List UInt8) : lineAfter (valueStart name) v ∈ lineStarts := by
  have hempty : ∀ cs ∈ valueStarts, HttpclientParser.emptyEnd cs ∈ lineStarts := by decide
  unfold lineAfter
  split
  · exact hempty _ (HttpclientParser.valueStart_mem name)
  · split <;> decide

/-- Behind any other header the empty line ends the head. -/
theorem finalState_stateBehind (h : Header) :
    HttpclientParser.finalState (stateBehind h) = 120 ↔ ¬Opens h := by
  obtain ⟨hconnection, htransfer, hlength⟩ := valueStart_iff h.1
  unfold stateBehind lineAfter Opens
  by_cases hne : trim h.2 = []
  · rw [if_pos hne, and_iff_right hne, ← hconnection, ← htransfer, ← hlength]
    unfold HttpclientParser.emptyEnd HttpclientParser.finalState
    grind
  · rw [if_neg hne]
    refine iff_of_true ?_ fun hopens => hne hopens.1
    split <;> rfl

theorem Ready.line {m pre post : List UInt8} {t : Trace} {cs : Nat} {h : Header}
    {f : HttpRespondParser → HttpRespondParser} (hready : Ready m t cs pre.length f)
    (hm : m = pre ++ (headerLine h ++ crlf) ++ post) (hlen : m.length < 2 ^ 63) (hfield : IsField h) :
    ∃ t', feed (move httpclient) t (headerLine h ++ crlf) = some t' ∧
      Ready m t' (stateBehind h) (pre ++ (headerLine h ++ crlf)).length
        fun s => received h (f s) := by
  obtain ⟨calls, hcs, hat, hruns⟩ := hready
  obtain ⟨t', hfeed, hat'⟩ := feed_line hat hcs hfield.ne hfield.name hfield.value
  rw [← List.length_append] at hat'
  refine ⟨t', hfeed, _, lineAfter_mem _ _, hat', fun s => ?_⟩
  rw [List.append_assoc]
  exact forM_append_ok (hruns s) (run_line hm hlen hfield.ne (f s))

theorem Ready.lines {m pre post : List UInt8} {t : Trace} {cs : Nat} {hs : List Header}
    {f : HttpRespondParser → HttpRespondParser} (hready : Ready m t cs pre.length f)
    (hm : m = pre ++ (hs.flatMap fun h => headerLine h ++ crlf) ++ post) (hlen : m.length < 2 ^ 63)
    (hfields : ∀ h ∈ hs, IsField h) :
    ∃ t', feed (move httpclient) t (hs.flatMap fun h => headerLine h ++ crlf) = some t' ∧
      Ready m t' (hs.foldl (fun _ h => stateBehind h) cs)
        (pre ++ (hs.flatMap fun h => headerLine h ++ crlf)).length fun s =>
          hs.foldl (fun s h => received h s) (f s) := by
  induction hs generalizing pre t cs f with
  | nil => exact ⟨t, rfl, by simpa using hready⟩
  | cons h hs ih =>
    rw [List.flatMap_cons] at hm ⊢
    rw [← List.append_assoc pre, List.append_assoc (pre ++ _)] at hm
    obtain ⟨t₁, hfeed₁, hready₁⟩ := hready.line hm hlen (hfields h List.mem_cons_self)
    rw [← List.append_assoc] at hm
    obtain ⟨t', hfeed, hready'⟩ := ih hready₁ hm fun k hk => hfields k (List.mem_cons_of_mem h hk)
    rw [List.append_assoc] at hready'
    exact ⟨t', (feed_append hfeed₁).trans hfeed, hready'⟩

/-- The line feed behind which the machine stops. -/
theorem run_stop {t : Trace} {cs : Nat} (h : httpclient t.scan.parser.cs 10 = .done [] cs)
    (rest : List UInt8) :
    ∃ t', run (move httpclient) t (10 :: rest) = ⟨t', 1, .accepted⟩ ∧ t'.scan.parser.cs = cs ∧
      t'.calls = t.calls := by
  have hstop : move httpclient t 10 = .accept { t with
      scan.parser.bodyStart := t.scan.p + 1
      scan.parser.cs := cs
      scan.p := t.scan.p + 1 } := by
    rw [move, h]
    rfl
  exact ⟨_, run_accept hstop, rfl, rfl⟩

/-- The empty line. -/
theorem Ready.done {m : List UInt8} {t : Trace} {cs p : Nat}
    {f : HttpRespondParser → HttpRespondParser} (hready : Ready m t cs p f) (rest : List UInt8) :
    ∃ t', run (move httpclient) t (crlf ++ rest) = ⟨t', 2, .accepted⟩ ∧
      t'.scan.parser.cs = HttpclientParser.finalState cs ∧
      ∀ s, t'.calls.forM (Call.run m) s = .ok () (f s) := by
  obtain ⟨calls, hcs, ⟨rfl, rfl, rfl⟩, hruns⟩ := hready
  obtain ⟨next, hcr, hlf⟩ := HttpclientParser.httpclient_done hcs
  have hopen : ∃ t₁, move httpclient t 13 = .next t₁ ∧ t₁.scan.parser.cs = next ∧
      t₁.calls = t.calls ++ pendingCalls t.scan.parser.cs := by
    refine ⟨_, move_goto hcr, rfl, ?_⟩
    unfold HttpclientParser.pending pendingCalls
    split
    · rfl
    · exact (List.append_nil _).symm
  obtain ⟨t₁, hmove, rfl, hcalls⟩ := hopen
  obtain ⟨t', hstop, hcs', hcalls'⟩ := run_stop hlf rest
  refine ⟨t', (run_next hmove).trans (congrArg Result.after hstop), hcs', ?_⟩
  rwa [hcalls', hcalls]

/-! ## The status line -/

/-- Digits, at least one. -/
def Digits : Type := { text : List UInt8 // text ≠ [] ∧ ∀ b ∈ text, isDigit b = true }

/-- The head of a respond: the numbers of its version, its status and its reason, and its
headers. -/
structure Head where
  major : Digits
  minor : Digits
  status : Digits
  reason : List UInt8
  fields : List Header
  reason_ne : reason ≠ []
  reason_line : IsLine reason
  fields_ok : ∀ h ∈ fields, IsField h

namespace Head

def version (head : Head) : List UInt8 :=
  bytes "HTTP/" ++ head.major.1 ++ bytes "." ++ head.minor.1

def startLine (head : Head) : List UInt8 :=
  head.version ++ bytes " " ++ head.status.1 ++ bytes " " ++ head.reason

/-- The text of the head, up to the empty line. -/
def text (head : Head) : List UInt8 :=
  head.startLine ++ crlf ++ block 13 10 (head.fields.map headerLine)

/-- The parser behind the status line. -/
def begun (head : Head) (s : HttpRespondParser) : HttpRespondParser :=
  let n := toInt (min (2 ^ 63 - 1) (Strtol.number 10 head.status.1))
  let version :=
    if head.version = bytes "HTTP/1.1" then 0x11
    else if head.version = bytes "HTTP/1.0" then 0x10
    else s.data.version
  { s with
    error :=
      if head.version = bytes "HTTP/1.1" ∨ head.version = bytes "HTTP/1.0" then s.error else 1001
    status := some n
    data := { s.data with
      version := version
      status := ⟨BitVec.ofInt 32 n⟩
      reason := head.reason } }

/-- The state behind its lines. -/
def lastState (head : Head) : Nat := head.fields.foldl (fun _ h => stateBehind h) 20

/-- The last header line leaves its value open. -/
def Unfinished (head : Head) : Prop := ∃ h ∈ head.fields.getLast?, Opens h

instance (head : Head) : Decidable head.Unfinished :=
  inferInstanceAs (Decidable (∃ h ∈ head.fields.getLast?, Opens h))

theorem finalState_iff (head : Head) :
    HttpclientParser.finalState head.lastState = 120 ↔ ¬head.Unfinished := by
  unfold lastState Unfinished
  rcases List.eq_nil_or_concat head.fields with hnil | ⟨hs, h, hlast⟩
  · rw [hnil]
    exact iff_of_true rfl fun ⟨h, hh, _⟩ => by cases hh
  · rw [hlast, List.concat_eq_append, List.foldl_append, List.getLast?_concat]
    refine (finalState_stateBehind h).trans (not_congr ?_)
    exact ⟨fun hopens => ⟨h, rfl, hopens⟩, fun ⟨_, heq, hopens⟩ => Option.some.inj heq ▸ hopens⟩

/-- The parser behind the head. -/
def apply (head : Head) (s : HttpRespondParser) : HttpRespondParser :=
  head.fields.foldl (fun s h => received h s) (head.begun s)

end Head

/-- The trace behind the version. -/
def versionTrace (head : Head) : Trace :=
  ⟨⟨⟨16, 0, 0, 0, 0, 0⟩, head.version.length + 1⟩, [.httpVersion 0 head.version.length]⟩

theorem feed_version (head : Head) :
    feed (move httpclient) ⟨⟨.init, 0⟩, []⟩ (head.version ++ bytes " ") = some (versionTrace head) := by
  have hhttp : bytes "HTTP/" = [72, 84, 84, 80, 47] := rfl
  have hdot : bytes "." = [46] := rfl
  have hspace : bytes " " = [32] := rfl
  have htext : head.version ++ bytes " " =
      bytes "HTTP/" ++ (head.major.1 ++ ([46] ++ (head.minor.1 ++ [32]))) := by
    rw [Head.version, hdot, hspace]
    simp only [List.append_assoc]
  have hlength : head.version.length = 5 + head.major.1.length + 1 + head.minor.1.length := by
    simp only [Head.version, hhttp, hdot, List.length_append, List.length_cons, List.length_nil]
  have hstart : feed (move httpclient) ⟨⟨.init, 0⟩, []⟩ (bytes "HTTP/") =
      some ⟨⟨⟨12, 0, 0, 0, 0, 0⟩, 5⟩, []⟩ := by
    rw [hhttp]
    rfl
  have hmajor := feed_word (t := ⟨⟨⟨12, 0, 0, 0, 0, 0⟩, 5⟩, []⟩) head.major.2.1
    (fun d hd => (HttpclientParser.httpclient_digit (head.major.2.2 d hd)).1)
    (fun d hd => (HttpclientParser.httpclient_digit (head.major.2.2 d hd)).2.1)
  have hpoint : httpclient 13 46 = .goto [] 14 := rfl
  have hminor : ∀ t : Trace, t.scan.parser.cs = 14 →
      feed (move httpclient) t head.minor.1 = some (t.moved 15 head.minor.1.length) := by
    intro t ht
    exact feed_word head.minor.2.1
      (fun d hd => ht ▸ (HttpclientParser.httpclient_digit (head.minor.2.2 d hd)).2.2.1)
      (fun d hd => (HttpclientParser.httpclient_digit (head.minor.2.2 d hd)).2.2.2.1)
  have hend : httpclient 15 32 = .goto [.httpVersion] 16 := rfl
  rw [htext, feed_append hstart, feed_append hmajor, feed_append (feed_byte rfl hpoint),
    feed_append (hminor _ rfl), feed_byte rfl hend, versionTrace, hlength]
  have hcall := lengthFrom_add 0 (5 + head.major.1.length + 1 + head.minor.1.length)
  rw [Nat.zero_add] at hcall
  show some (Trace.mk _ [.httpVersion _ (lengthFrom 0 (5 + head.major.1.length + 1 +
    head.minor.1.length))]) = _
  rw [hcall]
  rfl

/-- The trace behind the status. -/
def statusTrace (head : Head) : Trace :=
  let start := head.version.length + 1
  ⟨⟨⟨18, 0, 0, start, 0, 0⟩, start + head.status.1.length + 1⟩,
    [.httpVersion 0 head.version.length, .statusCode start]⟩

theorem feed_status (head : Head) :
    feed (move httpclient) (versionTrace head) (head.status.1 ++ bytes " ") =
      some (statusTrace head) := by
  have hspace : bytes " " = [32] := rfl
  have hdigits := feed_word (t := versionTrace head) head.status.2.1
    (fun d hd => (HttpclientParser.httpclient_digit (head.status.2.2 d hd)).2.2.2.2.1)
    (fun d hd => (HttpclientParser.httpclient_digit (head.status.2.2 d hd)).2.2.2.2.2)
  have hend : httpclient 17 32 = .goto [.statusCode] 18 := rfl
  rw [hspace, feed_append hdigits, feed_byte rfl hend]
  rfl

/-- The trace behind the status line. -/
def lineTrace (head : Head) : Trace :=
  let start := head.version.length + 1
  let q := start + head.status.1.length + 1
  ⟨⟨⟨20, 0, 0, q, 0, 0⟩, q + head.reason.length + 2⟩,
    [.httpVersion 0 head.version.length, .statusCode start, .reasonPhrase q head.reason.length]⟩

theorem feed_reason (head : Head) :
    feed (move httpclient) (statusTrace head) (head.reason ++ crlf) = some (lineTrace head) := by
  have hbytes : ∀ c ∈ head.reason,
      httpclient 18 c = .goto [.mark] 19 ∧ httpclient 19 c = .goto [] 19 := fun c hc =>
    HttpclientParser.httpclient_reason (fun h => head.reason_line.2 (h ▸ hc))
      fun h => head.reason_line.1 (h ▸ hc)
  have htext := feed_word (t := statusTrace head) head.reason_ne (fun c hc => (hbytes c hc).1)
    fun c hc => (hbytes c hc).2
  have hcr : httpclient 19 13 = .goto [.reasonPhrase] 24 := rfl
  have hlf : httpclient 24 10 = .goto [] 20 := rfl
  rw [show crlf = [13] ++ [10] from rfl, feed_append htext, feed_append (feed_byte rfl hcr),
    feed_byte rfl hlf, lineTrace]
  show some (Trace.mk _ [_, _, .reasonPhrase _ (lengthFrom (head.version.length + 1 +
    head.status.1.length + 1) (head.version.length + 1 + head.status.1.length + 1 +
      head.reason.length))]) = _
  rw [lengthFrom_add]
  rfl

/-- The version is compared up to its end. -/
theorem strncmp_literal {text rest : List UInt8} {w : String} (h0 : 0 ∉ text)
    (hw : (bytes w).length ≤ text.length) :
    strncmp (text ++ rest) (literal w) text.length = some (decide (text = bytes w)) := by
  unfold literal
  generalize bytes w = b at hw
  induction text generalizing b with
  | nil =>
    rw [List.eq_nil_of_length_eq_zero (Nat.le_zero.mp hw), List.length_nil, strncmp]
    rfl
  | cons x text ih =>
    obtain ⟨hx, h0⟩ := not_or.mp (mt List.mem_cons.mpr h0)
    cases b with
    | nil =>
      rw [List.cons_append, List.nil_append, List.length_cons, strncmp, if_neg (Ne.symm hx)]
      simp
    | cons y b =>
      rw [List.cons_append, List.cons_append, List.length_cons, strncmp]
      by_cases hxy : x = y
      · subst hxy
        rw [if_pos rfl, if_neg (Ne.symm hx), ih h0 b (by simpa using hw)]
        simp
      · rw [if_neg hxy]
        simp [hxy]

theorem Head.version_bytes (head : Head) : 0 ∉ head.version ∧ 8 ≤ head.version.length := by
  have hhttp : bytes "HTTP/" = [72, 84, 84, 80, 47] := rfl
  have hdot : bytes "." = [46] := rfl
  have hdigits : ∀ digits : Digits, 0 ∉ digits.1 ∧ 0 < digits.1.length := by
    intro digits
    refine ⟨fun hmem => ?_, List.length_pos_iff.mpr digits.2.1⟩
    exact absurd (digits.2.2 0 hmem) (by decide)
  obtain ⟨hmajor, hmajorLen⟩ := hdigits head.major
  obtain ⟨hminor, hminorLen⟩ := hdigits head.minor
  constructor
  · simp only [Head.version, hhttp, hdot, List.mem_append, not_or]
    exact ⟨⟨⟨by decide, hmajor⟩, by decide⟩, hminor⟩
  · simp only [Head.version, hhttp, hdot, List.length_append, List.length_cons, List.length_nil]
    omega

theorem run_version {head : Head} {m post : List UInt8} (hm : m = head.version ++ post)
    (hlen : m.length < 2 ^ 63) (s : HttpRespondParser) :
    (Call.httpVersion 0 head.version.length).run m s = .ok () { s with
      error :=
        if head.version = bytes "HTTP/1.1" ∨ head.version = bytes "HTTP/1.0" then s.error else 1001
      data.version :=
        if head.version = bytes "HTTP/1.1" then 0x11
        else if head.version = bytes "HTTP/1.0" then 0x10
        else s.data.version } := by
  obtain ⟨h0, h8⟩ := head.version_bytes
  have hlength : (bytes "HTTP/1.1").length = 8 ∧ (bytes "HTTP/1.0").length = 8 := by decide
  show onRespondHttpVersion m 0 head.version.length s = _
  rw [onRespondHttpVersion, List.drop_zero, hm, strncmp_literal h0 (hlength.1 ▸ h8),
    strncmp_literal h0 (hlength.2 ▸ h8), ← hm]
  by_cases h₁ : head.version = bytes "HTTP/1.1"
  · have hknown : head.version = bytes "HTTP/1.1" ∨ head.version = bytes "HTTP/1.0" := .inl h₁
    rw [decide_eq_true h₁, if_pos hknown, if_pos h₁]
    rfl
  · by_cases h₀ : head.version = bytes "HTTP/1.0"
    · have hknown : head.version = bytes "HTTP/1.1" ∨ head.version = bytes "HTTP/1.0" := .inr h₀
      rw [decide_eq_false h₁, decide_eq_true h₀, if_pos hknown, if_neg h₁, if_pos h₀]
      rfl
    · have hunknown := not_or.mpr ⟨h₁, h₀⟩
      have hread := readString_part (hm.trans (List.nil_append _).symm) hlen s
      rw [decide_eq_false h₁, decide_eq_false h₀, if_neg hunknown, if_neg h₁, if_neg h₀]
      exact bind_ok hread

/-- The status line, and what its calls do. -/
theorem ready_startLine {head : Head} {m post : List UInt8} (hm : m = head.startLine ++ crlf ++ post)
    (hlen : m.length < 2 ^ 63) :
    ∃ t, feed (move httpclient) ⟨⟨.init, 0⟩, []⟩ (head.startLine ++ crlf) = some t ∧
      Ready m t 20 (head.startLine ++ crlf).length head.begun := by
  have hspace : bytes " " = [32] := rfl
  have hstart : head.startLine ++ crlf =
      (head.version ++ bytes " ") ++ ((head.status.1 ++ bytes " ") ++ (head.reason ++ crlf)) := by
    simp only [Head.startLine, List.append_assoc]
  have hstatus : m = (head.version ++ bytes " ") ++
      (head.status.1 ++ 32 :: (head.reason ++ crlf ++ post)) := by
    rw [hm, hstart, hspace]
    simp only [List.append_assoc, List.cons_append, List.nil_append]
  have hreason : m = (head.version ++ bytes " " ++ (head.status.1 ++ bytes " ")) ++
      (head.reason ++ (crlf ++ post)) := by
    rw [hm, hstart]
    simp only [List.append_assoc]
  have hversionLen : (head.version ++ bytes " ").length = head.version.length + 1 := by
    rw [hspace, List.length_append]
    rfl
  have hstatusLen : (head.version ++ bytes " " ++ (head.status.1 ++ bytes " ")).length =
      head.version.length + 1 + head.status.1.length + 1 := by
    rw [List.length_append, hversionLen, hspace, List.length_append]
    rfl
  refine ⟨lineTrace head, ?_, _, by decide, ⟨rfl, ?_, rfl⟩, fun s => ?_⟩
  · rw [hstart, feed_append (feed_version head), feed_append (feed_status head), feed_reason]
  · rw [hstart, ← List.append_assoc, List.length_append, hstatusLen, List.length_append]
    rfl
  · have hversion : m = head.version ++
        (bytes " " ++ head.status.1 ++ bytes " " ++ head.reason ++ crlf ++ post) := by
      rw [hm, Head.startLine]
      simp only [List.append_assoc]
    have hread := readInt_part hstatus head.status.2.1 head.status.2.2 (.inr rfl)
    have htext := readString_part hreason hlen
    rw [hversionLen] at hread
    rw [hstatusLen] at htext
    have hstatusRun : ∀ s, (Call.statusCode (head.version.length + 1)).run m s = .ok ()
        { s with
          status := some (toInt (min (2 ^ 63 - 1) (Strtol.number 10 head.status.1)))
          data.status := ⟨BitVec.ofInt 32
            (toInt (min (2 ^ 63 - 1) (Strtol.number 10 head.status.1)))⟩ } := by
      intro s
      have hnext := hread { s with
        status := some (toInt (min (2 ^ 63 - 1) (Strtol.number 10 head.status.1))) }
      exact (bind_ok (hread s)).trans (bind_ok hnext)
    have hreasonRun : ∀ s, (Call.reasonPhrase (head.version.length + 1 + head.status.1.length + 1)
        head.reason.length).run m s = .ok () { s with data.reason := head.reason } :=
      fun s => bind_ok (htext s)
    show ([Call.httpVersion _ _, .statusCode _, .reasonPhrase _ _] : List Call).forM (Call.run m) s = _
    rw [forM_cons, bind_ok (run_version hversion hlen s), forM_cons, bind_ok (hstatusRun _),
      forM_cons, bind_ok (hreasonRun _)]
    rfl

/-! ## The whole head -/

theorem Head.text_eq (head : Head) : head.text = head.startLine ++ crlf ++
    ((head.fields.flatMap fun h => headerLine h ++ crlf) ++ crlf) := by
  have hblock := block_headers head.fields []
  rw [List.append_nil] at hblock
  rw [Head.text, hblock]
  rfl

/-- A head is scanned to its end, whatever follows it, and its calls do what it says. -/
theorem run_head {head : Head} {rest nul : List UInt8}
    (hlen : (head.text ++ rest ++ nul).length < 2 ^ 63) :
    ∃ t, run (move httpclient) ⟨⟨.init, 0⟩, []⟩ (head.text ++ rest) =
        ⟨t, head.text.length, .accepted⟩ ∧
      t.scan.parser.cs = HttpclientParser.finalState head.lastState ∧
      ∀ s, t.calls.forM (Call.run (head.text ++ rest ++ nul)) s = .ok () (head.apply s) := by
  have hline : head.text ++ rest ++ nul = head.startLine ++ crlf ++
      ((head.fields.flatMap fun h => headerLine h ++ crlf) ++ crlf ++ rest ++ nul) := by
    rw [head.text_eq]
    simp only [List.append_assoc]
  have hfields : head.text ++ rest ++ nul = head.startLine ++ crlf ++
      (head.fields.flatMap fun h => headerLine h ++ crlf) ++ (crlf ++ rest ++ nul) := by
    rw [head.text_eq]
    simp only [List.append_assoc]
  have hscan : head.text ++ rest = head.startLine ++ crlf ++
      ((head.fields.flatMap fun h => headerLine h ++ crlf) ++ (crlf ++ rest)) := by
    rw [head.text_eq]
    simp only [List.append_assoc]
  obtain ⟨t₁, hfeed₁, hready₁⟩ := ready_startLine hline hlen
  obtain ⟨t₂, hfeed₂, hready₂⟩ := hready₁.lines hfields hlen head.fields_ok
  obtain ⟨t, hrun, hcs, hcalls⟩ := hready₂.done rest
  refine ⟨t, ?_, hcs, hcalls⟩
  rw [hscan, run_of_feed hfeed₁, run_of_feed hfeed₂, hrun, head.text_eq]
  simp only [List.length_append, Nat.add_assoc]
  rfl

/-- The scan of a fresh parser, offsets only. -/
theorem scan_eq (table : HttpclientParser.Table) (bs : List UInt8) :
    (⟨(run (move table) ⟨⟨.init, 0⟩, []⟩ bs).state.scan,
      (run (move table) ⟨⟨.init, 0⟩, []⟩ bs).consumed,
      (run (move table) ⟨⟨.init, 0⟩, []⟩ bs).status⟩ : Result HttpclientParser.Scan) =
      table.scan .init bs := by
  rw [run_map Trace.scan (move_scan table), HttpclientParser.Table.scan, if_neg fun h => nomatch h.1]

/-- A parser that is or gets initialised consumes a text that the machine accepts, and moves the
rest to the front. -/
theorem execute_accepted {text rest : List UInt8} {cs : Nat}
    {f : HttpRespondParser → HttpRespondParser}
    (hlen : (text ++ rest).length < 2 ^ 31) (hne : text ≠ []) (hrun : ∃ t,
      run (move httpclient) ⟨⟨.init, 0⟩, []⟩ (text ++ rest) = ⟨t, text.length, .accepted⟩ ∧
      t.scan.parser.cs = cs ∧ ∀ s, t.calls.forM (Call.run (text ++ rest ++ [0])) s = .ok () (f s))
    {chunck : Bool} {s : HttpRespondParser} (hs : (s.start chunck).parser = .init) :
    ∃ parser, execute httpclient (text ++ rest ++ [0]) (text ++ rest).length chunck s =
        .ok (BitVec.ofNat 64 text.length, overwrite (text ++ rest ++ [0]) 0 rest)
        { f (s.start chunck) with parser := parser } ∧ parser.cs = cs := by
  have htake : (text ++ rest ++ [0]).take (text ++ rest).length = text ++ rest := List.take_left
  have hnul : (text ++ rest ++ [0])[(text ++ rest).length]? = some 0 := by simp
  have hslice : slice (text ++ rest ++ [0]) text.length ((text ++ rest).length - text.length) =
      rest := by
    have hlength : (text ++ rest).length - text.length = rest.length := by
      rw [List.length_append]
      omega
    rw [hlength, slice, List.append_assoc, List.drop_left, List.take_left]
  have hpos : 0 < (text ++ rest).length := by
    have := List.length_pos_iff.mpr hne
    rw [List.length_append]
    omega
  obtain ⟨t, hrun, hcs, hcalls⟩ := hrun
  have hscan := scan_eq httpclient (text ++ rest)
  rw [hrun] at hscan
  have hright : HttpclientParser.CallRight httpclient .init (text ++ rest ++ [0])
      (text ++ rest).length false :=
    HttpclientParser.callRight_of_sound HttpclientParser.reset_init httpclient
      ⟨hnul, hpos, hlen, .inr rfl⟩
  obtain ⟨-, p, hoffsets⟩ := hright
  have hstate := HttpclientParser.execute_state hoffsets
  simp only [HttpclientParser.start, HttpclientParser.scanned, Bool.false_eq_true, if_false, htake,
    ← hscan, hslice] at hoffsets hstate
  refine ⟨p, execute_ok_iff.mpr ⟨f (s.start chunck), ?_, ?_, rfl⟩, ?_⟩
  · have hcollected : calls httpclient .init (text ++ rest) = t.calls :=
      (if_neg fun h => absurd h.1 (by decide)).trans (congrArg (fun r => r.state.calls) hrun)
    rw [hs, htake, hcollected]
    exact hcalls _
  · rw [HttpclientParser.execute_eq, ← start_keeps, hs]
    exact hoffsets
  · rw [hstate]
    exact hcs

theorem head_accepted {head : Head} {rest : List UInt8}
    (hlen : (head.text ++ rest).length < 2 ^ 31) {chunck : Bool} {s : HttpRespondParser}
    (hs : (s.start chunck).parser = .init) :
    ∃ parser, execute httpclient (head.text ++ rest ++ [0]) (head.text ++ rest).length chunck s =
        .ok (BitVec.ofNat 64 head.text.length, overwrite (head.text ++ rest ++ [0]) 0 rest)
        { head.apply (s.start chunck) with parser := parser } ∧
      parser.cs = HttpclientParser.finalState head.lastState := by
  have hne : head.text ≠ [] := by
    rw [head.text_eq]
    simp [crlf]
  have hlong : (head.text ++ rest ++ [0]).length < 2 ^ 63 := by
    rw [List.length_append, List.length_singleton]
    omega
  exact execute_accepted hlen hne (run_head hlong) hs

/-- `execute` on a text that starts with a head. Behind a last line without its value the parser
is not finished. -/
theorem execute_head {head : Head} {rest : List UInt8} (hlen : (head.text ++ rest).length < 2 ^ 31)
    {chunck : Bool} {s : HttpRespondParser} (hs : (s.start chunck).parser = .init) :
    ∃ t, execute httpclient (head.text ++ rest ++ [0]) (head.text ++ rest).length chunck s =
        .ok (BitVec.ofNat 64 head.text.length, overwrite (head.text ++ rest ++ [0]) 0 rest) t ∧
      t.isFinished = (if head.Unfinished then 0 else 1) ∧
      t = { head.apply (s.start chunck) with parser := t.parser } := by
  obtain ⟨parser, hrun, hcs⟩ := head_accepted hlen hs
  refine ⟨_, hrun, ?_, rfl⟩
  rw [isFinished, hcs, if_neg (HttpclientParser.finalState_ne _), if_congr head.finalState_iff rfl rfl,
    ite_not]

/-- `HTTP/1.1 200 OK`, a server and a length. -/
def okHead : Head where
  major := ⟨[49], by decide, by decide +kernel⟩
  minor := ⟨[49], by decide, by decide +kernel⟩
  status := ⟨[50, 48, 48], by decide, by decide +kernel⟩
  reason := [79, 75]
  fields := [(bytes "Server", bytes " tw"), (bytes "Content-Length", bytes " 2")]
  reason_ne := by decide
  reason_line := by decide
  fields_ok := by
    intro h hh
    rcases List.mem_cons.mp hh with rfl | hh
    · exact ⟨by decide, by decide +kernel, by decide +kernel⟩
    · rw [List.mem_singleton.mp hh]
      exact ⟨by decide, by decide +kernel, by decide +kernel⟩

/-- Two bytes of the body come with it. -/
theorem execute_okHead :
    ∃ t, execute httpclient (okHead.text ++ bytes "hi" ++ [0]) (okHead.text ++ bytes "hi").length
        false .new =
        .ok (BitVec.ofNat 64 okHead.text.length,
          overwrite (okHead.text ++ bytes "hi" ++ [0]) 0 (bytes "hi")) t ∧
      t.isFinished = 1 ∧ t.contentLen = 2 ∧ t.data.status = 200 ∧
      t.data.headers.entries =
        [(bytes "Content-Length", bytes "2"), (bytes "Server", bytes "tw")] := by
  have hlen : (okHead.text ++ bytes "hi").length < 2 ^ 31 := by decide +kernel
  have hstart : (HttpRespondParser.new.start false).parser = .init := rfl
  obtain ⟨t, hrun, hfinished, ht⟩ := execute_head hlen hstart
  have hclosed : ¬okHead.Unfinished := by decide +kernel
  have hnew : HttpRespondParser.new.start false = .new := rfl
  have happly : (okHead.apply .new).contentLen = 2 ∧ (okHead.apply .new).data.status = 200 ∧
      (okHead.apply .new).data.headers.entries =
        [(bytes "Content-Length", bytes "2"), (bytes "Server", bytes "tw")] := by
    decide +kernel
  rw [if_neg hclosed] at hfinished
  refine ⟨t, hrun, hfinished, ?_⟩
  rw [ht, hnew]
  dsimp only
  exact happly

/-- With a `Connection` header without a value behind them the head is never finished. -/
example : Head.Unfinished { okHead with
    fields := [(bytes "Connection", [])]
    fields_ok := fun h hh => List.mem_singleton.mp hh ▸
      ⟨by decide, by decide +kernel, by decide⟩ } := by
  decide +kernel

end HttpRespondParser
end Http
end TwServer
