import TwServer.Http.Framing
import TwServer.Http.Respond
import TwServer.Http.RespondTable

/-! What the machine of responds does with a status line and with header lines, on the whole
table. It knows a name and a value by the state that it spells them to. -/

namespace TwServer
open Programs Program Blocks Automaton Lines

namespace Http
namespace HttpclientParser

/-! ## Words -/

/-- The words that the machine knows, with the states behind their letters. -/
def words : List (String × List Nat) :=
  [("connection", [25, 26, 27, 28, 29, 30, 31, 32, 33, 34]),
    ("content-length", [25, 26, 27, 101, 102, 103, 104, 105, 106, 107, 108, 109, 110, 111]),
    ("transfer-encoding", [44, 45, 46, 47, 48, 49, 50, 51, 52, 53, 54, 55, 56, 57, 58, 59, 60]),
    ("chunked", [73, 74, 75, 76, 77, 78, 79]), ("close", [90, 91, 92, 93, 94]),
    ("chunked", [81, 82, 83, 84, 85, 86, 87]), ("close", [96, 97, 98, 99, 100])]

/-- What has been read in a state of a word. -/
def spelled (cs : Nat) : Option (List UInt8) :=
  words.findSome? fun word =>
    if cs ∈ word.2 then some ((bytes word.1).take (word.2.idxOf cs + 1)) else none

theorem spelling_spelled : ∀ cs < 124, ∀ entry ∈ spelling cs,
    spelled entry.2 = (spelled cs).map (· ++ [entry.1]) := by
  decide

theorem spelling_large {cs : Nat} (h : 124 ≤ cs) : spelling cs = [] := by
  unfold spelling
  split
  all_goals first | omega | rfl

/-- The state behind the rest of a name or a value. -/
def spells (other cs : Nat) (bs : List UInt8) : Nat := bs.foldl (fun cs b => spell cs b other) cs

theorem spell_spelled {other cs : Nat} {b : UInt8} {w : List UInt8} (hother : spelled other = none)
    (h : spelled (spell cs b other) = some w) : ∃ u, spelled cs = some u ∧ w = u ++ [toLower b] := by
  unfold spell at h
  cases hlookup : (spelling cs).lookup (toLower b) with
  | none =>
    rw [hlookup] at h
    exact nomatch hother.symm.trans h
  | some next =>
    rw [hlookup] at h
    obtain ⟨before, behind, hentries, -⟩ := List.lookup_eq_some_iff.mp hlookup
    have hmem : (toLower b, next) ∈ spelling cs := by
      rw [hentries]
      simp
    have hcs : cs < 124 := by
      by_contra hlarge
      rw [spelling_large (Nat.le_of_not_lt hlarge)] at hmem
      cases hmem
    have hnext := (spelling_spelled cs hcs _ hmem).symm.trans h
    obtain ⟨u, hu, rfl⟩ := Option.map_eq_some_iff.mp hnext
    exact ⟨u, hu, rfl⟩

theorem spells_spelled {other cs : Nat} {bs w : List UInt8} (hother : spelled other = none)
    (h : spelled (spells other cs bs) = some w) :
    ∃ u, spelled cs = some u ∧ w = u ++ bs.map toLower := by
  induction bs generalizing cs with
  | nil => exact ⟨w, h, by simp⟩
  | cons b bs ih =>
    obtain ⟨v, hv, rfl⟩ := ih h
    obtain ⟨u, hu, rfl⟩ := spell_spelled hother hv
    exact ⟨u, hu, by simp⟩

/-- Capitals do not matter. -/
theorem spells_lower (other cs : Nat) (bs : List UInt8) :
    spells other cs (bs.map toLower) = spells other cs bs := by
  have hlower : ∀ b, toLower (toLower b) = toLower b := by
    intro b
    unfold toLower
    grind
  unfold spells
  rw [List.foldl_map]
  simp only [spell, hlower]

/-- A set of states that the words do not leave. -/
theorem spell_mem {other cs : Nat} {l : List Nat} (hother : other ∈ l)
    (hl : ∀ cs ∈ l, ∀ entry ∈ spelling cs, entry.2 ∈ l) (hcs : cs ∈ l) (b : UInt8) :
    spell cs b other ∈ l := by
  unfold spell
  cases hlookup : (spelling cs).lookup (toLower b) with
  | none => exact hother
  | some next =>
    obtain ⟨before, behind, hentries, -⟩ := List.lookup_eq_some_iff.mp hlookup
    exact hl cs hcs (toLower b, next) (by rw [hentries]; simp)

theorem spells_mem {other cs : Nat} {l : List Nat} {bs : List UInt8} (hother : other ∈ l)
    (hl : ∀ cs ∈ l, ∀ entry ∈ spelling cs, entry.2 ∈ l) (hcs : cs ∈ l) :
    spells other cs bs ∈ l := by
  induction bs generalizing cs with
  | nil => exact hcs
  | cons b bs ih => exact ih (spell_mem hother hl hcs b)

/-! ## Names -/

/-- The states at the start of a line. -/
def lineStarts : List Nat := [20, 36, 43, 62, 113]

/-- The state behind the first byte of a name. -/
def firstName (cs : Nat) (b : UInt8) : Nat :=
  if toLower b = 99 then (if cs = 36 then 90 else if cs = 62 then 73 else 25)
  else if toLower b = 116 then 44
  else if cs = 113 ∧ isDigit b = true then 117
  else 21

def names : List Nat :=
  [21, 25, 26, 27, 28, 29, 30, 31, 32, 33, 34, 44, 45, 46, 47, 48, 49, 50, 51, 52, 53, 54, 55, 56,
    57, 58, 59, 60, 73, 74, 75, 76, 77, 78, 79, 90, 91, 92, 93, 94, 101, 102, 103, 104, 105, 106,
    107, 108, 109, 110, 111, 117]

theorem isName_of_mem : ∀ cs ∈ names, isName cs = true := by decide

theorem names_closed : ∀ cs ∈ names, ∀ entry ∈ spelling cs, entry.2 ∈ names := by decide

theorem firstName_mem (cs : Nat) (b : UInt8) : firstName cs b ∈ names := by
  unfold firstName
  split
  · split
    · decide
    · split <;> decide
  · split
    · decide
    · split <;> decide

/-- A name from its first byte on. -/
def nameState (cs : Nat) : List UInt8 → Nat
  | [] => cs
  | b :: bs => spells 21 (firstName cs b) bs

theorem nameState_mem {cs : Nat} {name : List UInt8} (hne : name ≠ []) :
    nameState cs name ∈ names := by
  obtain ⟨b, bs, rfl⟩ := List.exists_cons_of_ne_nil hne
  exact spells_mem (by decide) names_closed (firstName_mem cs b)

theorem spelled_firstName {cs : Nat} {b : UInt8} {w : List UInt8}
    (h : spelled (firstName cs b) = some w) : w = [toLower b] := by
  have hwords : spelled 25 = some [99] ∧ spelled 73 = some [99] ∧ spelled 90 = some [99] ∧
      spelled 44 = some [116] ∧ spelled 117 = none ∧ spelled 21 = none := by decide
  unfold firstName at h
  grind

theorem firstName_lower (cs : Nat) (b : UInt8) : firstName cs (toLower b) = firstName cs b := by
  unfold firstName isDigit toLower
  grind

theorem nameState_lower (cs : Nat) (name : List UInt8) :
    nameState cs (name.map toLower) = nameState cs name := by
  cases name with
  | nil => rfl
  | cons b bs =>
    rw [List.map_cons, nameState, nameState, spells_lower, firstName_lower]

theorem nameState_words : ∀ cs ∈ lineStarts, nameState cs (bytes "connection") = 34 ∧
    nameState cs (bytes "transfer-encoding") = 60 ∧
    nameState cs (bytes "content-length") = 111 := by
  decide

/-- In the state behind the colon the name is known. -/
theorem nameState_eq_iff {cs : Nat} {name : List UInt8} (hcs : cs ∈ lineStarts) (hne : name ≠ []) :
    (nameState cs name = 34 ↔ name.map toLower = bytes "connection") ∧
      (nameState cs name = 60 ↔ name.map toLower = bytes "transfer-encoding") ∧
      (nameState cs name = 111 ↔ name.map toLower = bytes "content-length") := by
  have hspelled : spelled 34 = some (bytes "connection") ∧
      spelled 60 = some (bytes "transfer-encoding") ∧
      spelled 111 = some (bytes "content-length") := by decide
  have hname : ∀ w, spelled (nameState cs name) = some w → name.map toLower = w := by
    intro w hw
    obtain ⟨b, bs, rfl⟩ := List.exists_cons_of_ne_nil hne
    obtain ⟨u, hu, rfl⟩ := spells_spelled (by decide) hw
    rw [spelled_firstName hu]
    rfl
  obtain ⟨hconnection, htransfer, hlength⟩ := nameState_words cs hcs
  rw [← nameState_lower] at hname ⊢
  refine ⟨⟨fun h => hname _ ?_, fun h => ?_⟩, ⟨fun h => hname _ ?_, fun h => ?_⟩,
    ⟨fun h => hname _ ?_, fun h => ?_⟩⟩
  · rw [h, hspelled.1]
  · rw [h, hconnection]
  · rw [h, hspelled.2.1]
  · rw [h, htransfer]
  · rw [h, hspelled.2.2]
  · rw [h, hlength]

/-- The state behind the colon of a name. -/
def valueStart (name : List UInt8) : Nat :=
  if name.map toLower = bytes "connection" then 35
  else if name.map toLower = bytes "transfer-encoding" then 61
  else if name.map toLower = bytes "content-length" then 112
  else 22

theorem colon_nameState {cs : Nat} {name : List UInt8} (hcs : cs ∈ lineStarts) (hne : name ≠ []) :
    colon (nameState cs name) = valueStart name := by
  obtain ⟨hconnection, htransfer, hlength⟩ := nameState_eq_iff hcs hne
  unfold valueStart
  rw [← if_congr hconnection rfl rfl, ← if_congr htransfer rfl rfl, ← if_congr hlength rfl rfl]
  unfold colon
  grind

/-! ## Values -/

def valueStarts : List Nat := [22, 35, 61, 112]

theorem valueStart_mem (name : List UInt8) : valueStart name ∈ valueStarts := by
  unfold valueStart
  split
  · decide
  · split
    · decide
    · split <;> decide

/-- The state behind the first byte of a value. -/
def firstValue (cs : Nat) (b : UInt8) : Nat :=
  if cs = 35 ∧ toLower b = 99 then 96
  else if cs = 61 ∧ toLower b = 99 then 81
  else if cs = 112 ∧ isDigit b = true then 119
  else 23

/-- A value from its first byte on. -/
def valueState (cs : Nat) : List UInt8 → Nat
  | [] => cs
  | b :: bs => spells 23 (firstValue cs b) bs

theorem mem_digits {b : UInt8} : b ∈ digits ↔ isDigit b = true := by
  unfold digits isDigit
  constructor
  · intro h
    simp only [List.mem_cons, List.not_mem_nil, or_false] at h
    rcases h with rfl | rfl | rfl | rfl | rfl | rfl | rfl | rfl | rfl | rfl
    all_goals decide
  · intro h
    simp only [List.mem_cons, List.not_mem_nil, or_false]
    grind

theorem isDigit_toLower (b : UInt8) : isDigit (toLower b) = isDigit b := by
  unfold isDigit toLower
  grind

theorem spell_digit (b : UInt8) : spell 119 b 23 = if isDigit b = true then 119 else 23 := by
  have hlookup : (digits.map fun d => (d, 119)).lookup (toLower b) =
      if toLower b ∈ digits then some 119 else none := by
    induction digits with
    | nil => rfl
    | cons d ds ih =>
      rw [List.map_cons, List.lookup_cons, ih]
      grind
  show ((digits.map fun d => (d, 119)).lookup (toLower b)).getD 23 = _
  rw [hlookup]
  simp only [mem_digits, isDigit_toLower]
  split
  · rfl
  · rfl

/-- The states behind the first byte of a value. -/
def values : Nat → List Nat
  | 35 => [23, 96, 97, 98, 99, 100]
  | 61 => [23, 81, 82, 83, 84, 85, 86, 87]
  | 112 => [23, 119]
  | _ => [23]

theorem values_closed : ∀ start ∈ valueStarts, (∀ cs ∈ values start, isValue cs = true ∧
    ∀ entry ∈ spelling cs, entry.2 ∈ values start) ∧ 23 ∈ values start := by
  decide

theorem firstValue_mem (cs : Nat) (b : UInt8) : firstValue cs b ∈ values cs := by
  unfold firstValue values
  grind

theorem valueState_mem {cs : Nat} {v : List UInt8} (hcs : cs ∈ valueStarts) (hne : v ≠ []) :
    valueState cs v ∈ values cs := by
  obtain ⟨b, bs, rfl⟩ := List.exists_cons_of_ne_nil hne
  obtain ⟨hclosed, hplain⟩ := values_closed cs hcs
  exact spells_mem hplain (fun next hnext => (hclosed next hnext).2) (firstValue_mem cs b)

theorem valueState_digits {v : List UInt8} (hne : v ≠ []) :
    valueState 112 v = if ∀ b ∈ v, isDigit b = true then 119 else 23 := by
  have hplain : ∀ bs, spells 23 23 bs = 23 := fun bs =>
    List.mem_singleton.mp (spells_mem (List.mem_singleton.mpr rfl) (by decide)
      (List.mem_singleton.mpr rfl))
  have hdigits : ∀ bs, spells 23 119 bs = if ∀ b ∈ bs, isDigit b = true then 119 else 23 := by
    intro bs
    induction bs with
    | nil => simp [spells]
    | cons b bs ih =>
      show spells 23 (spell 119 b 23) bs = _
      rw [spell_digit]
      by_cases hb : isDigit b = true
      · rw [if_pos hb, ih]
        simp [hb]
      · rw [if_neg hb, hplain, if_neg]
        exact fun hall => hb (hall b List.mem_cons_self)
  obtain ⟨b, bs, rfl⟩ := List.exists_cons_of_ne_nil hne
  have hfirst : firstValue 112 b = if isDigit b = true then 119 else 23 := by simp [firstValue]
  show spells 23 (firstValue 112 b) bs = _
  by_cases hb : isDigit b = true
  · rw [hfirst, if_pos hb, hdigits]
    simp [hb]
  · rw [hfirst, if_neg hb, hplain, if_neg]
    exact fun hall => hb (hall b List.mem_cons_self)

theorem spelled_firstValue {cs : Nat} {b : UInt8} {w : List UInt8}
    (h : spelled (firstValue cs b) = some w) : w = [toLower b] := by
  have hwords : spelled 96 = some [99] ∧ spelled 81 = some [99] ∧ spelled 119 = none ∧
      spelled 23 = none := by decide
  unfold firstValue at h
  grind

theorem valueState_lower (cs : Nat) (v : List UInt8) :
    valueState cs (v.map toLower) = valueState cs v := by
  have hfirst : ∀ b, firstValue cs (toLower b) = firstValue cs b := by
    intro b
    unfold firstValue isDigit toLower
    grind
  cases v with
  | nil => rfl
  | cons b bs =>
    rw [List.map_cons, valueState, valueState, spells_lower, hfirst]

/-- In the state at the end of the line the value is known. -/
theorem valueState_eq_iff {cs : Nat} {v : List UInt8} (hcs : cs ∈ valueStarts) (hne : v ≠ []) :
    (valueState cs v = 100 ↔ cs = 35 ∧ v.map toLower = bytes "close") ∧
      (valueState cs v = 87 ↔ cs = 61 ∧ v.map toLower = bytes "chunked") ∧
      (valueState cs v = 119 ↔ cs = 112 ∧ ∀ b ∈ v, isDigit b = true) := by
  have hspelled : spelled 100 = some (bytes "close") ∧ spelled 87 = some (bytes "chunked") := by
    decide
  have hvalue : ∀ w, spelled (valueState cs v) = some w → v.map toLower = w := by
    intro w hw
    obtain ⟨b, bs, rfl⟩ := List.exists_cons_of_ne_nil hne
    obtain ⟨u, hu, rfl⟩ := spells_spelled (by decide) hw
    rw [spelled_firstValue hu]
    rfl
  have hends : ∀ start ∈ valueStarts, (100 ∈ values start → start = 35) ∧
      (87 ∈ values start → start = 61) ∧ (119 ∈ values start → start = 112) := by decide
  have hmem := valueState_mem hcs hne
  obtain ⟨hclose, hchunked, hnumber⟩ := hends cs hcs
  refine ⟨⟨fun h => ⟨hclose (h ▸ hmem), hvalue _ ?_⟩, ?_⟩,
    ⟨fun h => ⟨hchunked (h ▸ hmem), hvalue _ ?_⟩, ?_⟩, ⟨fun h => ?_, ?_⟩⟩
  · rw [h, hspelled.1]
  · rintro ⟨rfl, h⟩
    rw [← valueState_lower, h]
    decide
  · rw [h, hspelled.2]
  · rintro ⟨rfl, h⟩
    rw [← valueState_lower, h]
    decide
  · obtain rfl := hnumber (h ▸ hmem)
    rw [valueState_digits hne] at h
    exact ⟨rfl, by_contra fun hnot => absurd (if_neg hnot ▸ h) (by decide)⟩
  · rintro ⟨rfl, h⟩
    rw [valueState_digits hne, if_pos h]

/-! ## The entries of the table -/

theorem httpclient_name {cs : Nat} (h : cs ∈ names) (b : UInt8) :
    httpclient cs b = nameStep cs b := by
  unfold httpclient
  rw [if_pos (isName_of_mem cs h)]

theorem isToken_iff {b : UInt8} (h : isToken b = true) :
    b ≠ 58 ∧ b ≠ 10 ∧ b ≠ 13 ∧ isBlank b = false := by
  have hother : ∀ c, isToken c = false → b ≠ c := by
    rintro c hc rfl
    exact absurd (h.symm.trans hc) (by decide)
  refine ⟨hother 58 (by decide), hother 10 (by decide), hother 13 (by decide), ?_⟩
  have h9 := hother 9 (by decide)
  have h11 := hother 11 (by decide)
  have h12 := hother 12 (by decide)
  have h32 := hother 32 (by decide)
  unfold isBlank
  grind

theorem httpclient_token {cs : Nat} (h : cs ∈ names) {b : UInt8} (hb : isToken b = true) :
    httpclient cs b = .goto [] (spell cs b 21) := by
  rw [httpclient_name h]
  unfold nameStep
  rw [if_neg (isToken_iff hb).1, if_pos hb]

theorem httpclient_colon {cs : Nat} (h : cs ∈ names) :
    httpclient cs 58 = .goto [.writeField] (colon cs) := by
  rw [httpclient_name h]
  unfold nameStep
  rw [if_pos rfl]

/-- What the line in front has left for the first byte of the next one. -/
def pending (cs : Nat) : List Action := if cs = 43 then [.connClose] else []

/-- The first byte of a name. -/
theorem httpclient_open {cs : Nat} (hcs : cs ∈ lineStarts) {b : UInt8} (hb : isToken b = true) :
    ∃ marks, (marks = [.startField] ∨ marks = [.startValue, .startField]) ∧
      httpclient cs b = .goto (pending cs ++ marks) (firstName cs b) := by
  obtain ⟨-, hlf, hcr, hblank⟩ := isToken_iff hb
  have hdigit : isDigit b = true → toLower b ≠ 99 ∧ toLower b ≠ 116 := by
    unfold isDigit toLower
    grind
  simp only [lineStarts, List.mem_cons, List.not_mem_nil, or_false] at hcs
  rcases hcs with rfl | rfl | rfl | rfl | rfl
  all_goals
    simp only [httpclient, firstName, pending, openName, isC, isName, isValue, hlf, hcr, hblank, hb]
    grind

theorem isBlank_iff {b : UInt8} (h : isBlank b = true) : b ≠ 10 ∧ b ≠ 13 := by
  constructor
  · rintro rfl
    cases h
  · rintro rfl
    cases h

theorem httpclient_blank {cs : Nat} (hcs : cs ∈ valueStarts) {b : UInt8} (hb : isBlank b = true) :
    httpclient cs b = .goto [.startValue] cs := by
  obtain ⟨hlf, hcr⟩ := isBlank_iff hb
  simp only [valueStarts, List.mem_cons, List.not_mem_nil, or_false] at hcs
  rcases hcs with rfl | rfl | rfl | rfl
  all_goals
    simp only [httpclient, openValue, isName, isValue, hlf, hcr, hb]
    grind

theorem httpclient_first {cs : Nat} (hcs : cs ∈ valueStarts) {b : UInt8} (hb : isBlank b = false)
    (hlf : b ≠ 10) (hcr : b ≠ 13) : httpclient cs b = .goto [.startValue] (firstValue cs b) := by
  simp only [valueStarts, List.mem_cons, List.not_mem_nil, or_false] at hcs
  rcases hcs with rfl | rfl | rfl | rfl
  all_goals
    simp only [httpclient, openValue, firstValue, isC, isName, isValue, hlf, hcr, hb]
    grind

theorem httpclient_value {cs : Nat} (h : isValue cs = true) (b : UInt8) :
    httpclient cs b = valueStep cs b := by
  have hname : isName cs = false := by
    unfold isValue at h
    unfold isName
    grind
  unfold httpclient
  rw [if_neg (by rw [hname]; exact Bool.false_ne_true), if_pos h]

theorem httpclient_text {cs : Nat} (h : isValue cs = true) {b : UInt8} (hlf : b ≠ 10)
    (hcr : b ≠ 13) : httpclient cs b = .goto [] (spell cs b 23) := by
  rw [httpclient_value h]
  unfold valueStep
  split
  all_goals first | contradiction | rfl

/-- The carriage return at the end of a line and the line feed. -/
theorem httpclient_end {cs : Nat} (h : isValue cs = true) : ∃ next,
    httpclient cs 13 =
        .goto (if cs = 119 then [.writeContentLength, .httpField] else [.httpField]) next ∧
      httpclient next 10 =
        .goto (if cs = 87 then [.transferEncodingChunked] else []) (if cs = 100 then 43 else 20) := by
  rw [httpclient_value h]
  by_cases h87 : cs = 87
  · subst h87
    exact ⟨_, rfl, rfl⟩
  · by_cases h100 : cs = 100
    · subst h100
      exact ⟨_, rfl, rfl⟩
    · by_cases h119 : cs = 119
      · subst h119
        exact ⟨_, rfl, rfl⟩
      · have hstep : valueStep cs 13 = .goto [.httpField] 24 := by
          unfold valueStep
          grind
        rw [hstep, if_neg h119, if_neg h87, if_neg h100]
        exact ⟨_, rfl, rfl⟩

/-- The state behind a line without a value. -/
def emptyEnd : Nat → Nat
  | 35 => 36
  | 61 => 62
  | 112 => 113
  | _ => 20

theorem httpclient_empty {cs : Nat} (hcs : cs ∈ valueStarts) : ∃ next,
    httpclient cs 13 = .goto [.startValue, .httpField] next ∧
      httpclient next 10 = .goto [] (emptyEnd cs) := by
  simp only [valueStarts, List.mem_cons, List.not_mem_nil, or_false] at hcs
  rcases hcs with rfl | rfl | rfl | rfl
  all_goals exact ⟨_, rfl, rfl⟩

/-- The state behind the empty line: there, too, a value may follow. -/
def finalState : Nat → Nat
  | 36 => 122
  | 62 => 121
  | 113 => 123
  | _ => 120

theorem finalState_ne (cs : Nat) : finalState cs ≠ 0 := by
  unfold finalState
  split
  all_goals decide

/-- The empty line. -/
theorem httpclient_done {cs : Nat} (hcs : cs ∈ lineStarts) : ∃ next,
    httpclient cs 13 = .goto (pending cs) next ∧
      httpclient next 10 = .done [] (finalState cs) := by
  simp only [lineStarts, List.mem_cons, List.not_mem_nil, or_false] at hcs
  rcases hcs with rfl | rfl | rfl | rfl | rfl
  all_goals exact ⟨_, rfl, rfl⟩

/-! ## The status line -/

theorem httpclient_digit {d : UInt8} (hd : isDigit d = true) :
    httpclient 12 d = .goto [] 13 ∧ httpclient 13 d = .goto [] 13 ∧
      httpclient 14 d = .goto [] 15 ∧ httpclient 15 d = .goto [] 15 ∧
      httpclient 16 d = .goto [.mark] 17 ∧ httpclient 17 d = .goto [] 17 := by
  have hne : d ≠ 46 ∧ d ≠ 32 := by
    constructor
    · rintro rfl
      cases hd
    · rintro rfl
      cases hd
  simp [httpclient, isName, isValue, hd, hne]

/-- The reason phrase. -/
theorem httpclient_reason {b : UInt8} (hlf : b ≠ 10) (hcr : b ≠ 13) :
    httpclient 18 b = .goto [.mark] 19 ∧ httpclient 19 b = .goto [] 19 := by
  simp [httpclient, isName, isValue, hlf, hcr]

end HttpclientParser
end Http
end TwServer
