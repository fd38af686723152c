import TwServer.Http.Grammar
import TwServer.Http.Serialise

/-! `on_request_method` is given a token and its length, and searches the bytes from the
token on for a name that starts them: the end of the token is not looked at. -/

namespace TwServer
open Programs Program Blocks

namespace Http

/-! ## Names -/

/-- `strcmp(#string, m.c_str()) == 0`, and the names have no NUL. -/
def stringToHttpMethod (m : List UInt8) : HttpMethod :=
  match methodMap.find? fun entry => bytes entry.2 = m.takeWhile (· ≠ 0) with
  | some entry => entry.1
  | none => .INVALID_MATHOD

def IsName (text : List UInt8) : Prop := ∃ entry ∈ methodMap, bytes entry.2 = text

theorem zero_not_in_methods : ∀ entry ∈ methodMap, (0 : UInt8) ∉ bytes entry.2 := by
  decide +kernel

theorem stringToHttpMethod_name {entry : HttpMethod × String} (h : entry ∈ methodMap) :
    stringToHttpMethod (bytes entry.2) = entry.1 := by
  have hnames : ∀ entry ∈ methodMap, stringToHttpMethod (bytes entry.2) = entry.1 := by
    decide +kernel
  exact hnames entry h

theorem httpMethodToString_name {entry : HttpMethod × String} (h : entry ∈ methodMap) :
    httpMethodToString entry.1 = bytes entry.2 := by
  have hnames : ∀ entry ∈ methodMap, httpMethodToString entry.1 = bytes entry.2 := by
    decide +kernel
  exact hnames entry h

/-! ## Searching -/

/-- A name is found where it starts the memory, and the search leaves the memory where the
memory starts the name. -/
theorem strncmp_name {name : List UInt8} (h0 : 0 ∉ name) (m : List UInt8) :
    strncmp (name ++ [0]) m name.length =
      if name <+: m then some true else if m <+: name then none else some false := by
  induction name generalizing m with
  | nil => simp [strncmp]
  | cons a name ih =>
    have ha : a ≠ 0 := fun ha => h0 (ha ▸ List.mem_cons_self)
    cases m with
    | nil => simp [strncmp]
    | cons b m =>
      rw [List.cons_append, List.length_cons, strncmp]
      by_cases hab : a = b
      · subst hab
        rw [if_pos rfl, if_neg ha, ih fun h => h0 (List.mem_cons_of_mem a h)]
        simp [List.cons_prefix_cons]
      · simp [hab, List.cons_prefix_cons, Ne.symm hab]

/-- Neither starts the other. -/
def Apart (name m : List UInt8) : Prop := ¬name <+: m ∧ ¬m <+: name

theorem firstMethod_invalid {m : List UInt8} {entries : List (HttpMethod × String)}
    (hentries : ∀ e ∈ entries, 0 ∉ bytes e.2) (h : ∀ e ∈ entries, Apart (bytes e.2) m) :
    firstMethod m entries = some .INVALID_MATHOD := by
  induction entries with
  | nil => rfl
  | cons entry entries ih =>
    obtain ⟨method, text⟩ := entry
    have hapart := h _ List.mem_cons_self
    rw [firstMethod, literal, strncmp_name (hentries _ List.mem_cons_self), if_neg hapart.1,
      if_neg hapart.2]
    exact ih (fun e he => hentries e (List.mem_cons_of_mem _ he))
      fun e he => h e (List.mem_cons_of_mem _ he)

/-- What a search that ends found: a name, or none. -/
theorem of_firstMethod {m : List UInt8} {entries : List (HttpMethod × String)}
    (hentries : ∀ e ∈ entries, 0 ∉ bytes e.2) {method : HttpMethod}
    (h : firstMethod m entries = some method) :
    (∃ e ∈ entries, e.1 = method ∧ bytes e.2 <+: m) ∨
      method = .INVALID_MATHOD ∧ ∀ e ∈ entries, Apart (bytes e.2) m := by
  induction entries with
  | nil =>
    cases h
    exact .inr ⟨rfl, fun e he => nomatch he⟩
  | cons entry entries ih =>
    obtain ⟨name, text⟩ := entry
    rw [firstMethod, literal, strncmp_name (hentries _ List.mem_cons_self)] at h
    by_cases hname : bytes text <+: m
    · rw [if_pos hname] at h
      exact .inl ⟨_, List.mem_cons_self, Option.some.inj h, hname⟩
    · rw [if_neg hname] at h
      by_cases hrest : m <+: bytes text
      · rw [if_pos hrest] at h
        cases h
      · rw [if_neg hrest] at h
        rcases ih (fun e he => hentries e (List.mem_cons_of_mem _ he)) h with
          ⟨e, he, hfound⟩ | ⟨hinvalid, hapart⟩
        · exact .inl ⟨e, List.mem_cons_of_mem _ he, hfound⟩
        · refine .inr ⟨hinvalid, fun e he => ?_⟩
          rcases List.mem_cons.mp he with rfl | he
          · exact ⟨hname, hrest⟩
          · exact hapart e he

/-! ## The callback -/

section
variable {m : List UInt8} {start length : Nat}

/-- The callback and a token: a name sets its method, and anything else is an error that
leaves the request as it is. -/
def MethodExact (m : List UInt8) (start length : Nat) : Prop :=
  let token := slice m start length
  ∀ s : HttpRequestParser,
    (IsName token → onRequestMethod m start length s =
        .ok () { s with data := { s.data with method := stringToHttpMethod token } } ∧
      httpMethodToString (stringToHttpMethod token) = token) ∧
    (¬IsName token → onRequestMethod m start length s = .ok () { s with error := 1000 })

theorem onRequestMethod_of_found {method : HttpMethod} (hmethod : method ≠ .INVALID_MATHOD)
    (h : charsToHttpMethod (m.drop start) = some method) (s : HttpRequestParser) :
    onRequestMethod m start length s =
      .ok () { s with data := { s.data with method := method } } := by
  rw [onRequestMethod, h]
  simp only [if_neg hmethod]
  rfl

theorem onRequestMethod_of_invalid (hm : m.length < 2 ^ 63) (hlen : start + length ≤ m.length)
    (h : charsToHttpMethod (m.drop start) = some .INVALID_MATHOD) (s : HttpRequestParser) :
    onRequestMethod m start length s = .ok () { s with error := 1000 } := by
  rw [onRequestMethod, h]
  exact bind_ok (readString_ok hm hlen s)

/-- Any name that starts the bytes from the token on is taken for the token. -/
theorem methodExact_iff (hm : m.length < 2 ^ 63) (hlen : start + length ≤ m.length) :
    MethodExact m start length ↔ IsName (slice m start length) ∨
      ∀ entry ∈ methodMap, Apart (bytes entry.2) (m.drop start) := by
  constructor
  · intro h
    by_cases hname : IsName (slice m start length)
    · exact .inl hname
    · have hrun := (h .new).2 hname
      cases hsearch : charsToHttpMethod (m.drop start) with
      | none =>
        rw [onRequestMethod, hsearch] at hrun
        cases hrun
      | some method =>
        rcases of_firstMethod zero_not_in_methods hsearch with ⟨e, he, rfl, -⟩ | ⟨-, hapart⟩
        · rw [onRequestMethod_of_found (methodMap_valid he) hsearch] at hrun
          injection hrun with _ hstate
          have herror : 0 = 1000 := congrArg HttpRequestParser.error hstate
          cases herror
        · exact .inr hapart
  · intro h s
    refine ⟨fun hname => ?_, fun hname => ?_⟩
    · obtain ⟨entry, hentry, htext⟩ := hname
      have hsearch : charsToHttpMethod (m.drop start) = some entry.1 := by
        rw [drop_eq_slice m start length, ← htext]
        exact charsToHttpMethod_name hentry _
      rw [← htext, stringToHttpMethod_name hentry]
      exact ⟨onRequestMethod_of_found (methodMap_valid hentry) hsearch s,
        httpMethodToString_name hentry⟩
    · exact onRequestMethod_of_invalid hm hlen
        (firstMethod_invalid zero_not_in_methods (h.resolve_left hname)) s

/-- `GET /`. -/
theorem methodExact_iff_get : MethodExact (bytes "GET /") 0 3 ↔
    IsName (slice (bytes "GET /") 0 3) ∨
      ∀ entry ∈ methodMap, Apart (bytes entry.2) ((bytes "GET /").drop 0) :=
  methodExact_iff (by decide +kernel) (by decide +kernel)

end

/-- The token is `GETX`, and the request gets the method `GET`. -/
theorem getx_is_get : ¬IsName (slice (bytes "GETX /") 0 4) ∧
    onRequestMethod (bytes "GETX /") 0 4 .new = .ok () .new ∧
    ¬MethodExact (bytes "GETX /") 0 4 := by
  have hname : ¬IsName (slice (bytes "GETX /") 0 4) := by
    unfold IsName
    decide +kernel
  have hsearch : charsToHttpMethod ((bytes "GETX /").drop 0) = some .GET := by decide +kernel
  have hrun : onRequestMethod (bytes "GETX /") 0 4 .new = .ok () .new :=
    onRequestMethod_of_found (by decide) hsearch .new
  refine ⟨hname, hrun, fun h => ?_⟩
  have herror := (h .new).2 hname
  rw [hrun] at herror
  injection herror with _ hstate
  exact absurd (congrArg HttpRequestParser.error hstate) (by decide)

end Http
end TwServer
