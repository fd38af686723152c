import TwServer.Http.Parser
import TwServer.Lib.Runs

/-! `HttpRespondParser::execute` around `httpclient_parser_execute`: how many bytes it
says it consumed, and what its `memmove` moves. The table of the generated machine is a
parameter; of its actions only those count here that write an offset. -/

namespace TwServer
open Programs Program Blocks Automaton Runs

namespace Http

/-- `httpclient_parser`, offsets into the buffer. -/
structure HttpclientParser where
  cs : Nat
  bodyStart : Nat
  nread : Nat
  mark : Nat
  fieldStart : Nat
  fieldLen : Nat
  deriving DecidableEq, Repr

namespace HttpclientParser

def init : HttpclientParser := ⟨1, 0, 0, 0, 0, 0⟩

/-! ## The machine -/

inductive Action where
  | mark
  | startField
  | writeField
  | startValue
  | writeContentLength
  | connClose
  | transferEncodingChunked
  | httpField
  | reasonPhrase
  | statusCode
  | httpVersion
  | chunkSize
  deriving DecidableEq, Repr

/-- `done` also runs the machine's action of that name, which leaves the loop. -/
inductive Transition where
  | error
  | goto (actions : List Action) (cs : Nat)
  | done (actions : List Action) (cs : Nat)

abbrev Table := Nat → UInt8 → Transition

structure Scan where
  parser : HttpclientParser
  p : Nat

def Scan.act (s : Scan) : Action → Scan
  | .mark | .startValue => { s with parser.mark := s.p }
  | .startField => { s with parser.fieldStart := s.p }
  | .writeField => { s with parser.fieldLen := lengthFrom s.parser.fieldStart s.p }
  | _ => s

def Table.move (table : Table) (s : Scan) (b : UInt8) : Move Scan :=
  match table s.parser.cs b with
  | .error => .reject { s with parser.cs := 0 }
  | .goto actions cs =>
    let s := actions.foldl Scan.act s
    .next { s with parser.cs := cs, p := s.p + 1 }
  | .done actions cs =>
    let s := actions.foldl Scan.act s
    .accept { s with parser.bodyStart := s.p + 1, parser.cs := cs, p := s.p + 1 }

/-- The `switch` has no case for the error state: what stands behind it sets the state 2. -/
def Table.scan (table : Table) (parser : HttpclientParser) (bs : List UInt8) : Result Scan :=
  if parser.cs = 0 ∧ bs ≠ [] then ⟨⟨{ parser with cs := 2 }, 0⟩, 0, .rejected⟩
  else run table.move ⟨parser, 0⟩ bs

/-! ## `httpclient_parser_execute` and `HttpRespondParser` -/

def assert (c : Prop) [Decidable c] (text : String) : Program HttpclientParser Unit :=
  if c then return () else crash (.assertion text)

/-- The parser when the scan of a buffer is over. -/
def scanned (table : Table) (buffer : List UInt8) (len : Nat) (parser : HttpclientParser) :
    HttpclientParser :=
  let r := table.scan parser (buffer.take len)
  { r.state.parser with nread := parser.nread + r.consumed }

/-- A `check` that fails jumps to `error`. -/
def result (len : Nat) (parser : HttpclientParser) : Int :=
  if parser.mark < len ∧ parser.fieldLen ≤ len ∧ parser.fieldStart < len then parser.nread else -1

def httpclientParserExecute (table : Table) (buffer : List UInt8) (len : Nat) :
    Program HttpclientParser Int := do
  assert (buffer[len]? = some 0) "pointer does not end on NUL"
  assert ((len : Int).bmod (2 ^ 32) = len) "pointers aren't same distance"
  let start ← get
  modify (scanned table buffer len)
  let parser ← get
  assert (parser.nread - start.nread ≤ len) "buffer overflow after parsing execute"
  assert (parser.nread ≤ len) "nread longer than length"
  assert (parser.bodyStart ≤ len) "body starts after buffer end"
  return result len parser

/-- `memmove(data, data + offset, n)`, where the sum wraps around. -/
def memmove (data : List UInt8) (offset n : BitVec 64) : Program HttpclientParser (List UInt8) :=
  if 0 ≤ offset.toInt ∧ offset.toNat + n.toNat ≤ data.length then
    return overwrite data 0 (slice data offset.toNat n.toNat)
  else crash .outOfBounds

/-- The second component is the buffer after the `memmove`. -/
def execute (table : Table) (data : List UInt8) (len : Nat) (chunck : Bool) :
    Program HttpclientParser (BitVec 64 × List UInt8) := do
  if chunck then modify fun _ => init
  let offset ← httpclientParserExecute table data len
  let offset := BitVec.ofInt 64 offset
  let data ← memmove data offset (BitVec.ofNat 64 len - offset)
  return (offset, data)

/-! ## Offsets -/

/-- Where the scan of `len` bytes leaves the offsets that started inside. -/
structure Within (len : Nat) (s : Scan) : Prop where
  mark : s.parser.mark < len
  fieldStart : s.parser.fieldStart < len
  fieldStart_le : s.parser.fieldStart ≤ s.p
  fieldLen : s.parser.fieldLen ≤ len
  bodyStart : s.parser.bodyStart ≤ len

theorem act_p (s : Scan) (a : Action) : (s.act a).p = s.p := by
  cases a with
  | _ => rfl

theorem Within.act {len : Nat} {s : Scan} (h : Within len s) (hp : s.p < len)
    (a : Action) : Within len (s.act a) := by
  cases a with
  | mark => exact ⟨hp, h.fieldStart, h.fieldStart_le, h.fieldLen, h.bodyStart⟩
  | startValue => exact ⟨hp, h.fieldStart, h.fieldStart_le, h.fieldLen, h.bodyStart⟩
  | startField => exact ⟨h.mark, hp, Nat.le_refl _, h.fieldLen, h.bodyStart⟩
  | writeField =>
    refine ⟨h.mark, h.fieldStart, h.fieldStart_le, ?_, h.bodyStart⟩
    show lengthFrom s.parser.fieldStart s.p ≤ len
    rw [lengthFrom, if_pos h.fieldStart_le]
    omega
  | _ => exact h

theorem Within.acts {len : Nat} {s : Scan} (h : Within len s) (hp : s.p < len)
    (actions : List Action) :
    Within len (actions.foldl Scan.act s) ∧ (actions.foldl Scan.act s).p = s.p := by
  induction actions generalizing s with
  | nil => exact ⟨h, rfl⟩
  | cons a actions ih =>
    rw [List.foldl_cons, ← act_p s a]
    exact ih (h.act hp a) (by rwa [act_p])

theorem Within.move {len : Nat} {s : Scan} (h : Within len s) (hp : s.p < len) (table : Table)
    (b : UInt8) : Within len (table.move s b).state ∧
      ∀ t, table.move s b = .next t → t.p = s.p + 1 := by
  unfold Table.move
  cases table s.parser.cs b with
  | error =>
    exact ⟨⟨h.mark, h.fieldStart, h.fieldStart_le, h.fieldLen, h.bodyStart⟩,
      fun t ht => nomatch ht⟩
  | goto actions cs =>
    obtain ⟨hacts, hpos⟩ := h.acts hp actions
    refine ⟨⟨hacts.mark, hacts.fieldStart, Nat.le_succ_of_le hacts.fieldStart_le, hacts.fieldLen,
      hacts.bodyStart⟩, ?_⟩
    rintro t ht
    cases ht
    exact congrArg (· + 1) hpos
  | done actions cs =>
    obtain ⟨hacts, hpos⟩ := h.acts hp actions
    refine ⟨⟨hacts.mark, hacts.fieldStart, Nat.le_succ_of_le hacts.fieldStart_le, hacts.fieldLen,
      ?_⟩, fun t ht => nomatch ht⟩
    show (actions.foldl Scan.act s).p + 1 ≤ len
    omega

theorem Within.run {len : Nat} {table : Table} {s : Scan} {bs : List UInt8} (h : Within len s)
    (hp : s.p + bs.length = len) : Within len (run table.move s bs).state := by
  induction bs generalizing s with
  | nil => exact h
  | cons b bs ih =>
    rw [List.length_cons] at hp
    obtain ⟨hmove, hnext⟩ := h.move (by omega) table b
    cases hb : table.move s b with
    | next t =>
      rw [run_next hb]
      rw [hb] at hmove
      exact ih hmove (by rw [hnext t hb]; omega)
    | accept t =>
      rw [run_accept hb]
      rwa [hb] at hmove
    | reject t =>
      rw [run_reject hb]
      rwa [hb] at hmove

/-- Offsets of a parser that has not consumed a byte since it was initialised. -/
def Untouched (parser : HttpclientParser) : Prop :=
  parser.bodyStart = 0 ∧ parser.mark = 0 ∧ parser.fieldStart = 0 ∧ parser.fieldLen = 0

theorem scan_within {len : Nat} (hlen : 0 < len) {parser : HttpclientParser}
    (h : parser.Untouched) (table : Table) {bs : List UInt8} (hbs : bs.length = len) :
    Within len (table.scan parser bs).state := by
  obtain ⟨hbody, hmark, hstart, hfield⟩ := h
  unfold Table.scan
  by_cases hcs : parser.cs = 0 ∧ bs ≠ []
  · rw [if_pos hcs]
    exact ⟨by simp [hmark, hlen], by simp [hstart, hlen], by simp [hstart], by simp [hfield],
      by simp [hbody]⟩
  · rw [if_neg hcs]
    have hwithin : Within len ⟨parser, 0⟩ :=
      ⟨by simp [hmark, hlen], by simp [hstart, hlen], by simp [hstart], by simp [hfield],
      by simp [hbody]⟩
    exact hwithin.run (by simpa using hbs)

theorem scan_consumed_le (table : Table) (parser : HttpclientParser) (bs : List UInt8) :
    (table.scan parser bs).consumed ≤ bs.length := by
  unfold Table.scan
  by_cases hcs : parser.cs = 0 ∧ bs ≠ []
  · rw [if_pos hcs]
    exact Nat.zero_le _
  · rw [if_neg hcs]
    exact consumed_le _ _ _

/-- A scan that consumes nothing writes no offset. -/
theorem scan_untouched {table : Table} {parser : HttpclientParser} {bs : List UInt8}
    (h : parser.Untouched) (hzero : (table.scan parser bs).consumed = 0) :
    (table.scan parser bs).state.parser.Untouched := by
  unfold Table.scan at hzero ⊢
  by_cases hcs : parser.cs = 0 ∧ bs ≠ []
  · rw [if_pos hcs]
    exact h
  · rw [if_neg hcs] at hzero ⊢
    cases bs with
    | nil => exact h
    | cons b bs =>
      cases hb : table.move ⟨parser, 0⟩ b with
      | next t =>
        rw [run_next hb] at hzero
        cases hzero
      | accept t =>
        rw [run_accept hb] at hzero
        cases hzero
      | reject t =>
        rw [run_reject hb]
        unfold Table.move at hb
        cases htable : table parser.cs b with
        | error =>
          rw [htable] at hb
          cases hb
          exact h
        | goto actions cs =>
          rw [htable] at hb
          cases hb
        | done actions cs =>
          rw [htable] at hb
          cases hb

/-! ## One call -/

theorem assert_of {c : Prop} [Decidable c] (h : c) (text : String) (s : HttpclientParser) :
    assert c text s = .ok () s := by
  rw [assert, if_pos h]
  rfl

theorem of_assert {c : Prop} [Decidable c] {text : String} {s t : HttpclientParser} {u : Unit}
    (h : assert c text s = .ok u t) : c ∧ t = s := by
  unfold assert at h
  by_cases hc : c
  · rw [if_pos hc] at h
    injection h with _ h
    exact ⟨hc, h.symm⟩
  · rw [if_neg hc] at h
    cases h

theorem of_get {s t u : HttpclientParser} (h : get s = .ok u t) : u = s ∧ t = s := by
  injection h with hu ht
  exact ⟨hu.symm, ht.symm⟩

theorem of_modify {f : HttpclientParser → HttpclientParser} {s t : HttpclientParser} {u : Unit}
    (h : modify f s = .ok u t) : t = f s := by
  injection h with _ ht
  exact ht.symm

theorem bmod_eq_iff {len : Nat} : (len : Int).bmod (2 ^ 32) = len ↔ len < 2 ^ 31 := by
  rw [Int.bmod_def]
  omega

/-- A call that returns gives the running total or -1. -/
theorem of_httpclientParserExecute {table : Table} {data : List UInt8} {len : Nat}
    {s t : HttpclientParser} {n : Int} (h : httpclientParserExecute table data len s = .ok n t) :
    data[len]? = some 0 ∧ len < 2 ^ 31 ∧ t = scanned table data len s ∧ t.nread ≤ len ∧
      n = result len t := by
  obtain ⟨_, s₁, hrun, h₁⟩ := of_bind_ok h
  obtain ⟨hnul, hs₁⟩ := of_assert hrun
  obtain ⟨_, s₂, hrun, h₂⟩ := of_bind_ok h₁
  obtain ⟨hint, hs₂⟩ := of_assert hrun
  obtain ⟨start, s₃, hrun, h₃⟩ := of_bind_ok h₂
  obtain ⟨-, hs₃⟩ := of_get hrun
  obtain ⟨_, s₄, hrun, h₄⟩ := of_bind_ok h₃
  have hs₄ := of_modify hrun
  obtain ⟨parser, s₅, hrun, h₅⟩ := of_bind_ok h₄
  obtain ⟨hparser, hs₅⟩ := of_get hrun
  obtain ⟨_, s₆, hrun, h₆⟩ := of_bind_ok h₅
  obtain ⟨-, hs₆⟩ := of_assert hrun
  obtain ⟨_, s₇, hrun, h₇⟩ := of_bind_ok h₆
  obtain ⟨hnread, hs₇⟩ := of_assert hrun
  obtain ⟨_, s₈, hrun, h₈⟩ := of_bind_ok h₇
  obtain ⟨-, hs₈⟩ := of_assert hrun
  injection h₈ with hn ht
  have hstate : s₄ = scanned table data len s := by rw [hs₄, hs₃, hs₂, hs₁]
  have ht : t = parser := by rw [← ht, hs₈, hs₇, hs₆, hs₅, hparser]
  exact ⟨hnul, bmod_eq_iff.mp hint, by rw [ht, hparser, hstate], ht ▸ hnread, by rw [← hn, ht]⟩

theorem httpclientParserExecute_eq {table : Table} {data : List UInt8} {len : Nat}
    {s : HttpclientParser} (hnul : data[len]? = some 0) (hint : len < 2 ^ 31)
    (hnread : (scanned table data len s).nread ≤ len)
    (hbody : (scanned table data len s).bodyStart ≤ len) :
    httpclientParserExecute table data len s =
      .ok (result len (scanned table data len s)) (scanned table data len s) := by
  have hconsumed : (scanned table data len s).nread - s.nread ≤ len := by omega
  have hget : ∀ t : HttpclientParser, get t = .ok t t := fun _ => rfl
  have hmodify : modify (scanned table data len) s = .ok () (scanned table data len s) := rfl
  rw [httpclientParserExecute, bind_ok (assert_of hnul _ _),
    bind_ok (assert_of (bmod_eq_iff.mpr hint) _ _), bind_ok (hget _), bind_ok hmodify,
    bind_ok (hget _), bind_ok (assert_of hconsumed _ _), bind_ok (assert_of hnread _ _),
    bind_ok (assert_of hbody _ _)]
  rfl

/-! ## The wrapper -/

/-- The parser that the call starts from. -/
def start (chunck : Bool) (s : HttpclientParser) : HttpclientParser := if chunck then init else s

theorem execute_eq (table : Table) (data : List UInt8) (len : Nat) (chunck : Bool)
    (s : HttpclientParser) : execute table data len chunck s =
      (httpclientParserExecute table data len >>= fun offset => do
        let data ← memmove data (BitVec.ofInt 64 offset)
          (BitVec.ofNat 64 len - BitVec.ofInt 64 offset)
        return (BitVec.ofInt 64 offset, data)) (start chunck s) := by
  cases chunck with
  | true => rfl
  | false => rfl

theorem memmove_front {data : List UInt8} {offset len : Nat} (hoffset : offset ≤ len)
    (hlen : len < 2 ^ 31) (hdata : len ≤ data.length) (s : HttpclientParser) :
    memmove data (BitVec.ofNat 64 offset) (BitVec.ofNat 64 len - BitVec.ofNat 64 offset) s =
      .ok (overwrite data 0 (slice data offset (len - offset))) s := by
  have ho : (BitVec.ofNat 64 offset).toNat = offset := by
    rw [BitVec.toNat_ofNat, Nat.mod_eq_of_lt (by omega)]
  have hn : (BitVec.ofNat 64 len - BitVec.ofNat 64 offset).toNat = len - offset := by
    rw [BitVec.toNat_sub, ho, BitVec.toNat_ofNat]
    omega
  have hi : 0 ≤ (BitVec.ofNat 64 offset).toInt := by
    rw [BitVec.toInt_eq_toNat_of_lt (by omega)]
    exact Int.natCast_nonneg _
  rw [memmove, ho, hn, if_pos ⟨hi, by omega⟩]
  rfl

theorem of_memmove {data moved : List UInt8} {offset n : BitVec 64} {s t : HttpclientParser}
    (h : memmove data offset n s = .ok moved t) : t = s := by
  unfold memmove at h
  by_cases hrange : 0 ≤ offset.toInt ∧ offset.toNat + n.toNat ≤ data.length
  · rw [if_pos hrange] at h
    injection h with _ ht
    exact ht.symm
  · rw [if_neg hrange] at h
    cases h

/-- The offset that is returned is the number of bytes that the call consumes, at most
`len`, and the others are moved to the front. -/
def CallRight (table : Table) (s : HttpclientParser) (data : List UInt8) (len : Nat)
    (chunck : Bool) : Prop :=
  let n := (table.scan (start chunck s) (data.take len)).consumed
  n ≤ len ∧ ∃ t, execute table data len chunck s =
    .ok (BitVec.ofNat 64 n, overwrite data 0 (slice data n (len - n))) t

/-- A NUL behind the `len` bytes, some bytes and an `int` that counts them, and a parser that
counts from this call on. -/
def Sound (s : HttpclientParser) (data : List UInt8) (len : Nat) (chunck : Bool) : Prop :=
  data[len]? = some 0 ∧ 0 < len ∧ len < 2 ^ 31 ∧ (chunck = true ∨ s.nread = 0)

/-- The parser that `init` leaves, and one that has not consumed a byte since. -/
def Reset (s : HttpclientParser) : Prop := s.nread = 0 → s.Untouched

theorem reset_init : init.Reset := fun _ => ⟨rfl, rfl, rfl, rfl⟩

theorem Reset.scanned {s : HttpclientParser} (h : s.Reset) (table : Table) (data : List UInt8)
    (len : Nat) : (scanned table data len s).Reset := by
  intro hzero
  have hsum : s.nread + (table.scan s (data.take len)).consumed = 0 := hzero
  obtain ⟨hnread, hconsumed⟩ := Nat.add_eq_zero_iff.mp hsum
  exact scan_untouched (h hnread) hconsumed

theorem Reset.start {s : HttpclientParser} (h : s.Reset) (chunck : Bool) :
    (HttpclientParser.start chunck s).Reset := by
  cases chunck with
  | true => exact reset_init
  | false => exact h

theorem callRight_of_sound {s : HttpclientParser} (hs : s.Reset) (table : Table)
    {data : List UInt8} {len : Nat} {chunck : Bool} (h : Sound s data len chunck) :
    CallRight table s data len chunck := by
  obtain ⟨hnul, hpos, hint, hreset⟩ := h
  have hzero : (start chunck s).nread = 0 := by
    rcases hreset with rfl | hreset
    · rfl
    · cases chunck with
      | true => rfl
      | false => exact hreset
  obtain ⟨hlt, -⟩ := List.getElem?_eq_some_iff.mp hnul
  have htake : (data.take len).length = len := List.length_take_of_le (by omega)
  have hwithin := scan_within hpos ((hs.start chunck) hzero) table htake
  have hle : (table.scan (start chunck s) (data.take len)).consumed ≤ len :=
    (scan_consumed_le _ _ _).trans htake.le
  have hnread : (scanned table data len (start chunck s)).nread =
      (table.scan (start chunck s) (data.take len)).consumed := by
    simp only [scanned, hzero, Nat.zero_add]
  have hresult : result len (scanned table data len (start chunck s)) =
      ((table.scan (start chunck s) (data.take len)).consumed : Int) := by
    rw [result, if_pos ⟨hwithin.mark, hwithin.fieldLen, hwithin.fieldStart⟩, hnread]
  refine ⟨hle, scanned table data len (start chunck s), ?_⟩
  rw [execute_eq, bind_ok (httpclientParserExecute_eq hnul hint (hnread ▸ hle) hwithin.bodyStart),
    hresult, BitVec.ofInt_natCast, bind_ok (memmove_front hle hint (by omega) _)]
  rfl

theorem sound_of_callRight {s : HttpclientParser} {table : Table} {data : List UInt8} {len : Nat}
    {chunck : Bool} (h : CallRight table s data len chunck) : Sound s data len chunck := by
  obtain ⟨hle, t, h⟩ := h
  rw [execute_eq] at h
  obtain ⟨n, s₁, hrun, h₁⟩ := of_bind_ok h
  obtain ⟨hnul, hint, hs₁, hnread, hn⟩ := of_httpclientParserExecute hrun
  obtain ⟨moved, s₂, -, h₂⟩ := of_bind_ok h₁
  injection h₂ with hpair _
  have hoffset : BitVec.ofInt 64 n =
      BitVec.ofNat 64 (table.scan (start chunck s) (data.take len)).consumed :=
    congrArg Prod.fst hpair
  have htoNat := congrArg BitVec.toNat hoffset
  rw [BitVec.toNat_ofNat, Nat.mod_eq_of_lt (by omega)] at htoNat
  unfold result at hn
  by_cases hinside : s₁.mark < len ∧ s₁.fieldLen ≤ len ∧ s₁.fieldStart < len
  · rw [if_pos hinside] at hn
    rw [hn, BitVec.ofInt_natCast, BitVec.toNat_ofNat, Nat.mod_eq_of_lt (by omega), hs₁] at htoNat
    have hzero : (start chunck s).nread = 0 := by
      simp only [scanned] at htoNat
      omega
    refine ⟨hnul, by omega, hint, ?_⟩
    cases chunck with
    | true => exact .inl rfl
    | false => exact .inr hzero
  · rw [if_neg hinside] at hn
    have hall : (BitVec.ofInt 64 (-1)).toNat = 2 ^ 64 - 1 := by decide
    rw [hn, hall] at htoNat
    omega

/-- A run of calls; what returns from one of them goes on. -/
structure Step where
  data : List UInt8
  len : Nat
  chunck : Bool

def machine (table : Table) : System HttpclientParser Step where
  init s := s = init
  step s c t := ∃ r, execute table c.data c.len c.chunck s = .ok r t

theorem reachable_reset {table : Table} {s : HttpclientParser} (h : Reachable (machine table) s) :
    s.Reset := by
  induction h with
  | init hs =>
    rw [show _ = init from hs]
    exact reset_init
  | step _ hstep ih =>
    obtain ⟨r, hrun⟩ := hstep
    rw [execute_eq] at hrun
    obtain ⟨n, s₁, hrun, h₁⟩ := of_bind_ok hrun
    obtain ⟨-, -, hs₁, -⟩ := of_httpclientParserExecute hrun
    obtain ⟨moved, s₂, hmove, h₂⟩ := of_bind_ok h₁
    injection h₂ with _ ht
    rw [← ht, of_memmove hmove, hs₁]
    exact (ih.start _).scanned table _ _

theorem callRight_iff (table : Table) (s : HttpclientParser) (h : Reachable (machine table) s)
    (data : List UInt8) (len : Nat) (chunck : Bool) :
    CallRight table s data len chunck ↔ Sound s data len chunck :=
  ⟨sound_of_callRight, callRight_of_sound (reachable_reset h) table⟩

/-- The machine where it reads the start of `HTTP`. -/
def letters : Table
  | 1, 72 => .goto [.mark] 8
  | 8, 84 => .goto [] 9
  | _, _ => .error

theorem callRight_iff_letters :
    CallRight letters init [72, 0] 1 false ↔ Sound init [72, 0] 1 false :=
  callRight_iff letters init (.init rfl) [72, 0] 1 false

/-- A call resumes the parser, consumes one byte of two and reports two; and a call without
a byte moves memory from in front of the buffer. -/
theorem resumed_total : ∃ s, (machine letters).step init ⟨[72, 0], 1, false⟩ s ∧
    (letters.scan s [84, 88]).consumed = 1 ∧
    (∃ moved t, execute letters [84, 88, 0] 2 false s = .ok (2, moved) t) ∧
    ¬CallRight letters s [84, 88, 0] 2 false ∧
    execute letters [0] 0 true init = .fault .outOfBounds ∧
    ¬CallRight letters init [0] 0 true := by
  refine ⟨⟨8, 0, 1, 0, 0, 0⟩, ⟨_, rfl⟩, rfl, ⟨_, _, rfl⟩, fun h => ?_, rfl, fun h => ?_⟩
  · have hreset := (sound_of_callRight h).2.2.2
    exact absurd hreset (by decide)
  · exact absurd (sound_of_callRight h).2.1 (by decide)

end HttpclientParser
end Http
end TwServer
