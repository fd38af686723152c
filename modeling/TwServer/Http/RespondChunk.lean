import TwServer.Http.RespondHead
import TwServer.Http.RoundTrip

/-! The line in front of a chunk: its size, with sixteen digits, and extensions. The machine makes
headers of the extensions. -/

namespace TwServer
open Programs Program Blocks Automaton Lines

namespace Http
namespace HttpclientParser

/-! ## The entries of the table -/

theorem httpclient_hex {b : UInt8} (hb : isHex b = true) :
    httpclient 1 b = .goto [.mark] 2 ∧ httpclient 2 b = .goto [] 2 := by
  have hother : ∀ c, isHex c = false → b ≠ c := by
    rintro c hc rfl
    exact absurd (hb.symm.trans hc) (by decide)
  have h72 := hother 72 (by decide)
  have h10 := hother 10 (by decide)
  have h13 := hother 13 (by decide)
  have h59 := hother 59 (by decide)
  simp [httpclient, isName, isValue, hb, h72, h10, h13, h59]

theorem httpclient_extension {b : UInt8} (hb : isToken b = true) :
    httpclient 4 b = .goto [.startField] 5 ∧ httpclient 5 b = .goto [] 5 ∧
      httpclient 6 b = .goto [.startValue] 7 ∧ httpclient 7 b = .goto [] 7 := by
  obtain ⟨-, h10, h13, -⟩ := isToken_iff hb
  have hother : ∀ c, isToken c = false → b ≠ c := by
    rintro c hc rfl
    exact absurd (hb.symm.trans hc) (by decide)
  have h59 := hother 59 (by decide)
  have h61 := hother 61 (by decide)
  simp [httpclient, isName, isValue, hb, h10, h13, h59, h61]

end HttpclientParser

namespace HttpRespondParser
open HttpclientParser (httpclient isToken isHex isDigit)

/-- A name of a chunk extension or its value. -/
def Token : Type := { text : List UInt8 // text ≠ [] ∧ ∀ b ∈ text, isToken b = true }

structure Extension where
  name : Token
  value : Option Token

/-- The line in front of a chunk. -/
structure ChunkLine where
  size : List UInt8
  extensions : List Extension
  size_ne : size ≠ []
  size_hex : ∀ b ∈ size, isHex b = true

def Extension.text (e : Extension) : List UInt8 :=
  bytes ";" ++ e.name.1 ++
    match e.value with
    | none => []
    | some value => bytes "=" ++ value.1

/-- The header that the parser makes of an extension. -/
def Extension.header (e : Extension) : Header :=
  (e.name.1, match e.value with
    | none => []
    | some value => value.1)

namespace ChunkLine

def text (line : ChunkLine) : List UInt8 :=
  line.size ++ line.extensions.flatMap Extension.text ++ crlf

/-- The parser behind the line. -/
def apply (line : ChunkLine) (s : HttpRespondParser) : HttpRespondParser :=
  let n := toInt (min (2 ^ 63 - 1) (Strtol.number 16 line.size))
  { s with
    chunked := true
    contentLen := n
    chunksDone := n ≤ 0
    data := { s.data with headers := s.data.headers.putAll (line.extensions.map Extension.header) } }

end ChunkLine

/-! ## Feeding -/

/-- A scan where an extension or the end of the line may follow; then the calls do `f`. -/
def Ends (m : List UInt8) (t : Trace) (p : Nat) (f : HttpRespondParser → HttpRespondParser) : Prop :=
  ∃ calls, (∀ s, calls.forM (Call.run m) s = .ok () (f s)) ∧
    ∀ entry ∈ [((59 : UInt8), 4), (13, 3)], ∃ t', feed (move httpclient) t [entry.1] = some t' ∧
      At t' entry.2 (p + 1) calls

theorem At.ends {m : List UInt8} {t : Trace} {cs p : Nat} {calls : List Call}
    {f : HttpRespondParser → HttpRespondParser} (h : At t cs p calls) (added : List Call)
    (actions : List HttpclientParser.Action)
    (hsemi : httpclient cs 59 = .goto actions 4) (hcr : httpclient cs 13 = .goto actions 3)
    (hacts : (actions.foldl Trace.act t).scan.p = p ∧ (actions.foldl Trace.act t).calls = calls ++ added)
    (hruns : ∀ s, (calls ++ added).forM (Call.run m) s = .ok () (f s)) : Ends m t p f := by
  refine ⟨_, hruns, ?_⟩
  intro entry hentry
  obtain ⟨hp, hcalls⟩ := hacts
  simp only [List.mem_cons, List.not_mem_nil, or_false] at hentry
  rcases hentry with rfl | rfl
  · exact ⟨_, feed_byte h.cs hsemi, rfl, congrArg (· + 1) hp, hcalls⟩
  · exact ⟨_, feed_byte h.cs hcr, rfl, congrArg (· + 1) hp, hcalls⟩

theorem digit_of_isHex {b : UInt8} (h : isHex b = true) : Strtol.isDigit 16 b = true := by
  unfold isHex isDigit at h
  unfold Strtol.isDigit Strtol.value
  simp only [Bool.or_eq_true, Bool.and_eq_true, decide_eq_true_eq, UInt8.le_iff_toNat_le,
    UInt8.reduceToNat] at h ⊢
  split
  · omega
  · split
    · omega
    · rw [if_pos (by omega)]
      omega

/-- The parser behind the size. -/
def sized (size : List UInt8) (s : HttpRespondParser) : HttpRespondParser :=
  let n := toInt (min (2 ^ 63 - 1) (Strtol.number 16 size))
  { s with chunked := true, contentLen := n, chunksDone := n ≤ 0 }

theorem feed_size {m size post : List UInt8} {b : UInt8} (hm : m = size ++ b :: post)
    (hb : b = 13 ∨ b = 59) (hne : size ≠ []) (hsize : ∀ d ∈ size, isHex d = true) :
    ∃ t, feed (move httpclient) ⟨⟨.init, 0⟩, []⟩ size = some t ∧
      Ends m t size.length (sized size) := by
  have hfeed := feed_word (t := ⟨⟨.init, 0⟩, []⟩) hne
    (fun d hd => (HttpclientParser.httpclient_hex (hsize d hd)).1)
    (fun d hd => (HttpclientParser.httpclient_hex (hsize d hd)).2)
  have hat : At (Trace.moved (Trace.act ⟨⟨.init, 0⟩, []⟩ .mark) 2 size.length) 2 size.length [] :=
    ⟨rfl, Nat.zero_add _, rfl⟩
  have hdigits : ∀ d ∈ size, Strtol.isDigit 16 d = true := fun d hd => digit_of_isHex (hsize d hd)
  have hend : Strtol.isDigit 16 b = false ∧ b ≠ 88 ∧ b ≠ 120 := by
    rcases hb with rfl | rfl
    · decide
    · decide
  have hread : ∀ s, readInt 16 m 0 s = .ok (toInt (min (2 ^ 63 - 1) (Strtol.number 16 size))) s := by
    intro s
    rw [readInt, List.drop_zero, hm, Strtol.strtol_digits (by decide) hne hdigits hend.1 hend.2]
    rfl
  refine ⟨_, hfeed, hat.ends [.chunkSize 0] [.chunkSize] rfl rfl ⟨Nat.zero_add _, rfl⟩
    fun s => ?_⟩
  exact bind_ok (bind_ok (hread s))

/-- The header of an extension is added. -/
def extended (h : Header) (s : HttpRespondParser) : HttpRespondParser :=
  { s with data := s.data.setHeader h.1 h.2 }

theorem run_extension {m pre name between value post : List UInt8} {field mark : Nat}
    (hm : m = pre ++ (name ++ (between ++ (value ++ post)))) (hlen : m.length < 2 ^ 63)
    (hfield : pre.length = field) (hmark : field + name.length + between.length = mark)
    (hne : name ≠ []) (s : HttpRespondParser) :
    [Call.httpField field name.length mark value.length].forM (Call.run m) s =
      .ok () (extended (name, value) s) := by
  have hvalue : m = (pre ++ name ++ between) ++ (value ++ post) := by
    rw [hm]
    simp only [List.append_assoc]
  have hlength : (pre ++ name ++ between).length = mark := by
    rw [← hmark, ← hfield]
    simp only [List.length_append]
  have hput : (Call.httpField field name.length mark value.length).run m s =
      .ok () (extended (name, value) s) := by
    rw [Call.run, onRespondHttpField, if_neg (by simpa using hne), ← hfield, ← hlength,
      bind_ok (readString_part hm hlen s), bind_ok (readString_part hvalue hlen s)]
    rfl
  rw [forM_cons, bind_ok hput]
  rfl

theorem Ends.extension {m pre post : List UInt8} {t : Trace}
    {f : HttpRespondParser → HttpRespondParser} (h : Ends m t pre.length f) {e : Extension}
    (hm : m = pre ++ (e.text ++ post)) (hlen : m.length < 2 ^ 63) :
    ∃ t', feed (move httpclient) t e.text = some t' ∧
      Ends m t' (pre ++ e.text).length fun s => extended e.header (f s) := by
  have hsemi : bytes ";" = [59] := rfl
  have heq : bytes "=" = [61] := rfl
  obtain ⟨calls, hruns, hnext⟩ := h
  obtain ⟨t₁, hfeed₁, hcs₁, hp₁, hcalls₁⟩ := hnext (59, 4) List.mem_cons_self
  obtain ⟨⟨name, hne, hname⟩, value⟩ := e
  have hfirst : ∀ b ∈ name, httpclient t₁.scan.parser.cs b = .goto [.startField] 5 :=
    fun b hb => hcs₁ ▸ (HttpclientParser.httpclient_extension (hname b hb)).1
  have hfeed₂ := feed_word hne hfirst
    fun b hb => (HttpclientParser.httpclient_extension (hname b hb)).2.1
  have hstart : (pre ++ [59]).length = t₁.scan.p := by
    rw [List.length_append]
    exact hp₁.symm
  cases value with
  | none =>
    have htext : Extension.text ⟨⟨name, hne, hname⟩, none⟩ = [59] ++ name := by
      rw [Extension.text, hsemi]
      exact List.append_nil _
    rw [htext] at hm ⊢
    have hlength : (pre ++ ([59] ++ name)).length = t₁.scan.p + name.length := by
      rw [← hstart]
      simp only [List.length_append, Nat.add_assoc]
    have hparts : m = (pre ++ [59]) ++ (name ++ ([] ++ ([] ++ post))) := by
      rw [hm]
      simp only [List.append_assoc, List.nil_append]
    refine ⟨_, (feed_append hfeed₁).trans hfeed₂, ?_⟩
    rw [hlength]
    refine At.ends ⟨rfl, rfl, hcalls₁⟩ [.httpField t₁.scan.p name.length (t₁.scan.p + name.length) 0]
      [.writeField, .startValue, .httpField] rfl rfl ⟨rfl, ?_⟩ fun s => ?_
    · show t₁.calls ++ [.httpField t₁.scan.p (lengthFrom t₁.scan.p (t₁.scan.p + name.length))
        (t₁.scan.p + name.length)
        (lengthFrom (t₁.scan.p + name.length) (t₁.scan.p + name.length))] = _
      have hempty := lengthFrom_add (t₁.scan.p + name.length) 0
      rw [Nat.add_zero] at hempty
      rw [lengthFrom_add, hempty, hcalls₁]
    · exact forM_append_ok (hruns s) (run_extension hparts hlen hstart rfl hne (f s))
  | some value =>
    obtain ⟨value, hvalueNe, hvalue⟩ := value
    have htext : Extension.text ⟨⟨name, hne, hname⟩, some ⟨value, hvalueNe, hvalue⟩⟩ =
        [59] ++ (name ++ ([61] ++ value)) := by
      rw [Extension.text, hsemi, heq]
      exact List.append_assoc _ _ _
    rw [htext] at hm ⊢
    have hlength : (pre ++ ([59] ++ (name ++ ([61] ++ value)))).length =
        t₁.scan.p + name.length + 1 + value.length := by
      rw [← hstart]
      simp only [List.length_append, List.length_cons, List.length_nil]
      omega
    have hparts : m = (pre ++ [59]) ++ (name ++ ([61] ++ (value ++ post))) := by
      rw [hm]
      simp only [List.append_assoc]
    have hequal : httpclient 5 61 = .goto [.writeField, .startValue] 6 := rfl
    have hfeed₃ : ∀ t : Trace, t.scan.parser.cs = 6 → feed (move httpclient) t value =
        some ((t.act .startValue).moved 7 value.length) := by
      intro t ht
      exact feed_word hvalueNe (fun b hb => ht ▸ (HttpclientParser.httpclient_extension (hvalue b hb)).2.2.1)
        fun b hb => (HttpclientParser.httpclient_extension (hvalue b hb)).2.2.2
    refine ⟨_, (feed_append hfeed₁).trans ((feed_append hfeed₂).trans
      ((feed_append (feed_byte rfl hequal)).trans (hfeed₃ _ rfl))), ?_⟩
    rw [hlength]
    refine At.ends ⟨rfl, rfl, hcalls₁⟩
      [.httpField t₁.scan.p name.length (t₁.scan.p + name.length + 1) value.length]
      [.httpField] rfl rfl ⟨rfl, ?_⟩ fun s => ?_
    · show t₁.calls ++ [.httpField t₁.scan.p (lengthFrom t₁.scan.p (t₁.scan.p + name.length))
        (t₁.scan.p + name.length + 1)
        (lengthFrom (t₁.scan.p + name.length + 1) (t₁.scan.p + name.length + 1 + value.length))] = _
      rw [lengthFrom_add, lengthFrom_add, hcalls₁]
    · exact forM_append_ok (hruns s) (run_extension hparts hlen hstart rfl hne (f s))

theorem Ends.extensions {m pre post : List UInt8} {t : Trace}
    {f : HttpRespondParser → HttpRespondParser} {es : List Extension} (h : Ends m t pre.length f)
    (hm : m = pre ++ (es.flatMap Extension.text ++ post)) (hlen : m.length < 2 ^ 63) :
    ∃ t', feed (move httpclient) t (es.flatMap Extension.text) = some t' ∧
      Ends m t' (pre ++ es.flatMap Extension.text).length fun s =>
        es.foldl (fun s e => extended e.header s) (f s) := by
  induction es generalizing pre t f with
  | nil => exact ⟨t, rfl, by simpa using h⟩
  | cons e es ih =>
    rw [List.flatMap_cons] at hm ⊢
    rw [List.append_assoc] at hm
    obtain ⟨t₁, hfeed₁, hends₁⟩ := h.extension hm hlen
    rw [← List.append_assoc] at hm
    obtain ⟨t', hfeed, hends⟩ := ih hends₁ hm
    rw [List.append_assoc] at hends
    exact ⟨t', (feed_append hfeed₁).trans hfeed, hends⟩

/-- The end of the line. -/
theorem Ends.done {m : List UInt8} {t : Trace} {p : Nat}
    {f : HttpRespondParser → HttpRespondParser} (h : Ends m t p f) (rest : List UInt8) :
    ∃ t', run (move httpclient) t (crlf ++ rest) = ⟨t', 2, .accepted⟩ ∧
      t'.scan.parser.cs = 120 ∧ ∀ s, t'.calls.forM (Call.run m) s = .ok () (f s) := by
  obtain ⟨calls, hruns, hnext⟩ := h
  obtain ⟨t₁, hfeed₁, hcs₁, -, rfl⟩ := hnext (13, 3) (by simp)
  have hlf : httpclient t₁.scan.parser.cs 10 = .done [] 120 := by
    rw [hcs₁]
    rfl
  obtain ⟨t', hstop, hcs', hcalls'⟩ := run_stop hlf rest
  refine ⟨t', ?_, hcs', ?_⟩
  · show run (move httpclient) t ([13] ++ 10 :: rest) = _
    rw [run_of_feed hfeed₁, hstop]
    rfl
  · rwa [hcalls']

/-! ## The whole line -/

theorem foldl_extended (es : List Extension) (s : HttpRespondParser) :
    es.foldl (fun s e => extended e.header s) s =
      { s with data := { s.data with headers := s.data.headers.putAll (es.map Extension.header) } } := by
  induction es generalizing s with
  | nil => rfl
  | cons e es ih =>
    rw [List.foldl_cons, ih]
    rfl

theorem run_chunk {line : ChunkLine} {rest nul : List UInt8}
    (hlen : (line.text ++ rest ++ nul).length < 2 ^ 63) :
    ∃ t, run (move httpclient) ⟨⟨.init, 0⟩, []⟩ (line.text ++ rest) =
        ⟨t, line.text.length, .accepted⟩ ∧ t.scan.parser.cs = 120 ∧
      ∀ s, t.calls.forM (Call.run (line.text ++ rest ++ nul)) s = .ok () (line.apply s) := by
  have hparts : line.text ++ rest ++ nul =
      line.size ++ (line.extensions.flatMap Extension.text ++ (crlf ++ rest ++ nul)) := by
    rw [ChunkLine.text]
    simp only [List.append_assoc]
  have hscan : line.text ++ rest =
      line.size ++ (line.extensions.flatMap Extension.text ++ (crlf ++ rest)) := by
    rw [ChunkLine.text]
    simp only [List.append_assoc]
  have hnext : ∃ b post, (b = 13 ∨ b = 59) ∧ line.text ++ rest ++ nul = line.size ++ b :: post := by
    rw [hparts]
    cases line.extensions with
    | nil => exact ⟨13, _, .inl rfl, rfl⟩
    | cons e es =>
      have hsemi : bytes ";" = [59] := rfl
      rw [List.flatMap_cons, Extension.text, hsemi]
      exact ⟨59, _, .inr rfl, rfl⟩
  obtain ⟨b, post, hb, hsize⟩ := hnext
  obtain ⟨t₁, hfeed₁, hends₁⟩ := feed_size hsize hb line.size_ne line.size_hex
  obtain ⟨t₂, hfeed₂, hends₂⟩ := hends₁.extensions hparts hlen
  obtain ⟨t, hrun, hcs, hcalls⟩ := hends₂.done rest
  refine ⟨t, ?_, hcs, fun s => ?_⟩
  · rw [hscan, run_of_feed hfeed₁, run_of_feed hfeed₂, hrun, ChunkLine.text]
    simp only [List.length_append, Nat.add_assoc]
    rfl
  · rw [hcalls, foldl_extended]
    rfl

/-- A size below `2 ^ 31` is kept as it is, and the last chunk is the one of size zero. -/
theorem chunksDone_iff (line : ChunkLine) (s : HttpRespondParser)
    (hsize : Strtol.number 16 line.size < 2 ^ 31) :
    (line.apply s).contentLen = Strtol.number 16 line.size ∧
      ((line.apply s).chunksDone = true ↔ Strtol.number 16 line.size = 0) := by
  have hint : toInt (min (2 ^ 63 - 1) (Strtol.number 16 line.size)) =
      Strtol.number 16 line.size := by
    rw [min_eq_right (by omega)]
    exact HttpclientParser.bmod_eq_iff.mpr hsize
  refine ⟨hint, ?_⟩
  show decide (toInt _ ≤ 0) = true ↔ _
  rw [decide_eq_true_eq, hint]
  omega

/-- `execute` on a text that starts with the line of a chunk. -/
theorem execute_chunk {line : ChunkLine} {rest : List UInt8}
    (hlen : (line.text ++ rest).length < 2 ^ 31) {chunck : Bool} {s : HttpRespondParser}
    (hs : (s.start chunck).parser = .init) :
    ∃ t, execute httpclient (line.text ++ rest ++ [0]) (line.text ++ rest).length chunck s =
        .ok (BitVec.ofNat 64 line.text.length, overwrite (line.text ++ rest ++ [0]) 0 rest) t ∧
      t.isFinished = 1 ∧ t = { line.apply (s.start chunck) with parser := t.parser } ∧
      (Strtol.number 16 line.size < 2 ^ 31 → t.contentLen = Strtol.number 16 line.size ∧
        (t.chunksDone = true ↔ Strtol.number 16 line.size = 0)) := by
  have hne : line.text ≠ [] := by simp [ChunkLine.text, crlf]
  have hlong : (line.text ++ rest ++ [0]).length < 2 ^ 63 := by
    rw [List.length_append, List.length_singleton]
    omega
  obtain ⟨parser, hrun, hcs⟩ := execute_accepted hlen hne (run_chunk hlong) hs
  refine ⟨_, hrun, ?_, rfl, chunksDone_iff line (s.start chunck)⟩
  rw [isFinished, hcs]
  rfl

/-- A chunk of ten bytes, with an extension. -/
def tenBytes : ChunkLine where
  size := [97]
  extensions := [⟨⟨[120], by decide, by decide +kernel⟩, some ⟨[121], by decide, by decide +kernel⟩⟩]
  size_ne := by decide
  size_hex := by decide +kernel

theorem execute_tenBytes :
    ∃ t, execute httpclient (tenBytes.text ++ [] ++ [0]) (tenBytes.text ++ []).length true .new =
        .ok (BitVec.ofNat 64 tenBytes.text.length, overwrite (tenBytes.text ++ [] ++ [0]) 0 []) t ∧
      t.isFinished = 1 ∧ t = { tenBytes.apply (HttpRespondParser.new.start true) with
        parser := t.parser } ∧
      (Strtol.number 16 tenBytes.size < 2 ^ 31 → t.contentLen = Strtol.number 16 tenBytes.size ∧
        (t.chunksDone = true ↔ Strtol.number 16 tenBytes.size = 0)) :=
  execute_chunk (by decide) rfl

end HttpRespondParser
end Http
end TwServer
