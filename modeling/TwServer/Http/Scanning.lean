import Mathlib.Data.Nat.Basic
import Mathlib.Order.Basic
import TwServer.Http.Parser

/-! What a new parser makes of a buffer. The marks of a scan stay within what it has
read, so every callback runs to its end; and a scan that has accepted leaves no
trace of what follows in the buffer. -/

namespace TwServer
open Programs Program Blocks Automaton

namespace Http

/-! ## The state of the machine -/

/-- The machine without the marks. -/
def Machine.csMove (m : Machine) (cs : Nat) (b : UInt8) : Move Nat :=
  match m.step cs b with
  | .error => .reject errorState
  | .goto _ cs => .next cs
  | .done _ cs => .accept cs

def Scan.EndsAs (s : Scan) : Status → Prop
  | .running => s.cs ≠ errorState ∧ s.cs < firstFinal
  | .accepted => firstFinal ≤ s.cs
  | .rejected => s.cs = errorState

namespace Machine
variable (m : Machine)

theorem map_move (s : Scan) (b : UInt8) : (m.move s b).map Scan.cs = m.csMove s.cs b := by
  unfold move csMove
  cases m.step s.cs b with
  | error => rfl
  | goto actions cs => rfl
  | done actions cs => rfl

/-- Where a scan stops depends on no mark. -/
theorem run_congr {s s' : Scan} (h : s.cs = s'.cs) (bs : List UInt8) :
    (run m.move s bs).consumed = (run m.move s' bs).consumed ∧
      (run m.move s bs).status = (run m.move s' bs).status ∧
      (run m.move s bs).state.cs = (run m.move s' bs).state.cs := by
  have hs := run_map Scan.cs m.map_move s bs
  have hs' := run_map Scan.cs m.map_move s' bs
  rw [h, ← hs'] at hs
  injection hs with hcs hconsumed hstatus
  exact ⟨hconsumed, hstatus, hcs⟩

/-- The state a scan ends in tells how it ended. -/
theorem run_cs {s : Scan} (h : s.EndsAs .running) (bs : List UInt8) :
    (run m.move s bs).state.EndsAs (run m.move s bs).status := by
  refine run_ends (P := fun status (s : Scan) => s.EndsAs status) ?_ h
  intro s b
  unfold move
  cases hstep : m.step s.cs b with
  | error => rfl
  | goto actions cs => exact m.goto_cs hstep
  | done actions cs => exact m.done_cs hstep

end Machine

/-! ## The marks -/

/-- The memory a callback reads lies in `l`, and the method ends at a space. -/
def Callback.Within (l : List UInt8) : Callback → Prop
  | .httpField field flen value vlen => field + flen ≤ l.length ∧ value + vlen ≤ l.length
  | .element which start length =>
    start + length ≤ l.length ∧ (which = .requestMethod → l[start + length]? = some 32)
  | .queryString start length => start + length ≤ l.length
  | .unset => False

theorem Callback.Within.append {l : List UInt8} {c : Callback} (h : c.Within l) (r : List UInt8) :
    c.Within (l ++ r) := by
  have hlen : l.length ≤ (l ++ r).length := by simp
  cases c with
  | httpField field flen value vlen => exact ⟨h.1.trans hlen, h.2.trans hlen⟩
  | element which start length =>
    refine ⟨h.1.trans hlen, fun hwhich => ?_⟩
    have hspace := h.2 hwhich
    obtain ⟨hlt, -⟩ := List.getElem?_eq_some_iff.mp hspace
    rw [List.getElem?_append_left hlt, hspace]
  | queryString start length => exact h.trans hlen
  | unset => exact h

/-- The marks stand at most at `n`, and the callbacks so far read within `l`. -/
structure Scan.Inv (k : Known) (l : List UInt8) (n : Nat) (s : Scan) : Prop where
  mark : s.parser.mark ≤ n
  fieldStart : s.parser.fieldStart ≤ n
  fieldLen : s.parser.fieldLen ≤ n
  bodyStart : s.parser.bodyStart ≤ n + 1
  query : ∀ q ∈ s.parser.queryStart, q ≤ n
  measured : k.measured = true → s.parser.fieldStart + s.parser.fieldLen ≤ n
  queried : k.queried = true → s.parser.queryStart ≠ none
  calls : ∀ c ∈ s.calls, c.Within l

theorem lengthFrom_of_le {start p : Nat} (h : start ≤ p) : start + lengthFrom start p = p := by
  rw [lengthFrom, if_pos h]
  omega

namespace Scan
variable {k : Known} {l : List UInt8} {n : Nat} {s : Scan} {b : UInt8}

theorem Inv.mono (h : s.Inv k l n) {k' : Known} {n' : Nat} (hk : k'.Le k) (hn : n ≤ n')
    (r : List UInt8) : s.Inv k' (l ++ r) n' where
  mark := h.mark.trans hn
  fieldStart := h.fieldStart.trans hn
  fieldLen := h.fieldLen.trans hn
  bodyStart := h.bodyStart.trans (Nat.succ_le_succ hn)
  query q hq := (h.query q hq).trans hn
  measured hm := (h.measured (hk.1 hm)).trans hn
  queried hq := h.queried (hk.2 hq)
  calls c hc := (h.calls c hc).append r

theorem Inv.call (h : s.Inv k l n) {c : Callback} (hc : c.Within l) : (s.call c).Inv k l n where
  mark := h.mark
  fieldStart := h.fieldStart
  fieldLen := h.fieldLen
  bodyStart := h.bodyStart
  query := h.query
  measured := h.measured
  queried := h.queried
  calls := by
    intro c' hc'
    rcases List.mem_append.mp hc' with hc' | hc'
    · exact h.calls c' hc'
    · rw [List.mem_singleton.mp hc']
      exact hc

theorem act_p (s : Scan) (a : Action) : (s.act a).p = s.p := by
  cases a with
  | queryString =>
    unfold act
    cases s.parser.queryStart with
    | none => rfl
    | some start => rfl
  | _ => rfl

/-- One action, at the byte `b`. -/
theorem Inv.act {a : Action} (h : s.Inv k l s.p) (hallow : k.Allows b a)
    (hb : l[s.p]? = some b) : (s.act a).Inv (k.after a) l s.p := by
  obtain ⟨hlt, -⟩ := List.getElem?_eq_some_iff.mp hb
  have hmark := lengthFrom_of_le h.mark
  cases a with
  | mark => exact { h with mark := Nat.le_refl _ }
  | fieldStart =>
    exact { h with fieldStart := Nat.le_refl _, measured := fun hm => nomatch hm }
  | fieldLen =>
    have hfield := lengthFrom_of_le h.fieldStart
    refine { h with fieldLen := ?_, measured := fun _ => Nat.le_of_eq hfield }
    show lengthFrom s.parser.fieldStart s.p ≤ s.p
    omega
  | httpField =>
    refine h.call ⟨(h.measured hallow).trans hlt.le, ?_⟩
    rw [hmark]
    exact hlt.le
  | element which =>
    refine h.call ⟨?_, ?_⟩
    · rw [hmark]
      exact hlt.le
    · rintro rfl
      rw [hmark, hb, show b = 32 from hallow]
  | queryStart =>
    refine { h with query := ?_, queried := fun _ => Option.some_ne_none _ }
    intro q hq
    cases hq
    exact Nat.le_refl _
  | queryString =>
    unfold Scan.act
    cases hq : s.parser.queryStart with
    | none => exact absurd hq (h.queried hallow)
    | some start =>
      refine h.call ?_
      show start + lengthFrom start s.p ≤ l.length
      rw [lengthFrom_of_le (h.query start hq)]
      exact hlt.le
  | xmlSent => exact { h with }
  | jsonSent => exact { h with }

theorem Inv.acts {actions : List Action} (h : s.Inv k l s.p) (hallow : k.AllowsAll b actions)
    (hb : l[s.p]? = some b) :
    (actions.foldl Scan.act s).Inv (actions.foldl Known.after k) l s.p ∧
      (actions.foldl Scan.act s).p = s.p := by
  induction actions generalizing s k with
  | nil => exact ⟨h, rfl⟩
  | cons a actions ih =>
    have hp := s.act_p a
    have ha := h.act hallow.1 hb
    rw [← hp] at ha hb
    obtain ⟨hrest, hrestp⟩ := ih ha hallow.2 hb
    rw [hp] at hrest hrestp
    exact ⟨hrest, hrestp⟩

theorem Inv.done (h : s.Inv k l s.p) : s.done.Inv k l s.p where
  mark := h.mark
  fieldStart := h.fieldStart
  fieldLen := h.fieldLen
  bodyStart := by
    show (if s.parser.xmlSent || s.parser.jsonSent then s.parser.mark else s.p + 1) ≤ s.p + 1
    split
    · exact Nat.le_succ_of_le h.mark
    · exact Nat.le_refl _
  query := h.query
  measured := h.measured
  queried := h.queried
  calls := h.calls

end Scan

theorem Known.none_le (k : Known) : Known.Le ⟨false, false⟩ k :=
  ⟨Bool.noConfusion, Bool.noConfusion⟩

/-- One step of the machine, then the whole scan. -/
theorem Machine.run_inv (m : Machine) {s : Scan} {l bs : List UInt8} (hp : s.p = l.length)
    (h : s.Inv (m.known s.cs) l (l.length - 1)) :
    (run m.move s bs).state.Inv ⟨false, false⟩ (l ++ bs) ((l ++ bs).length - 1) := by
  induction bs generalizing s l with
  | nil =>
    show s.Inv _ (l ++ []) _
    exact h.mono (Known.none_le _) (by simp) []
  | cons b bs ih =>
    have hl : l ++ b :: bs = (l ++ [b]) ++ bs := List.append_cons l b bs
    have hb : (l ++ [b])[s.p]? = some b := by rw [hp, List.getElem?_concat_length]
    have hs : s.Inv (m.known s.cs) (l ++ [b]) s.p :=
      h.mono ⟨id, id⟩ (by rw [hp]; exact Nat.sub_le _ _) [b]
    have hlast : s.p = (l ++ [b]).length - 1 := by simp [hp]
    have hall : (l ++ [b]).length - 1 ≤ (l ++ [b] ++ bs).length - 1 := by simp
    have hallow := m.allowed s.cs b
    rw [hl]
    cases hstep : m.step s.cs b with
    | error =>
      have hmove : m.move s b = .reject { s with cs := errorState } := by rw [move, hstep]
      rw [run_reject hmove]
      rw [hlast] at hs
      exact { hs.mono (Known.none_le _) hall bs with }
    | goto actions cs =>
      rw [hstep] at hallow
      obtain ⟨hacts, hactsp⟩ := hs.acts hallow hb
      have hmove : m.move s b =
          .next { actions.foldl Scan.act s with cs := cs, p := s.p + 1 } := by rw [move, hstep]
      rw [run_next hmove]
      refine ih (by simp [hp]) ?_
      rw [← hlast]
      exact { hacts.mono (m.known_goto hstep) (Nat.le_refl _) [] with
        calls := hacts.calls }
    | done actions cs =>
      rw [hstep] at hallow
      obtain ⟨hacts, hactsp⟩ := hs.acts hallow hb
      have hmove : m.move s b =
          .accept { (actions.foldl Scan.act s).done with cs := cs, p := s.p + 1 } := by
        rw [move, hstep]
      rw [run_accept hmove]
      rw [← hactsp] at hacts
      have hdone := hacts.done
      rw [hactsp, hlast] at hdone
      exact { hdone.mono (Known.none_le _) hall bs with }

/-! ## The callbacks -/

section
variable {σ : Type}

theorem readString_ok {m : List UInt8} {start length : Nat} (hm : m.length < 2 ^ 63)
    (h : start + length ≤ m.length) (s : σ) :
    readString m start length s = .ok (slice m start length) s := by
  unfold readString
  rw [if_neg (by omega), if_pos h]
  rfl

theorem stable_readString (start length : Nat) :
    Stable fun m => (readString m start length : Program σ (List UInt8)) := by
  intro l r s a s' h
  change readString l start length s = _ at h
  change readString (l ++ r) start length s = _
  unfold readString at h ⊢
  by_cases hlong : 2 ^ 63 ≤ length
  · rw [if_pos hlong] at h
    cases h
  · rw [if_neg hlong] at h ⊢
    by_cases hin : start + length ≤ l.length
    · rw [if_pos hin] at h
      rw [if_pos (by rw [List.length_append]; omega), slice_append_left hin]
      exact h
    · rw [if_neg hin] at h
      cases h

theorem keeps_readString (I : σ → Prop) (m : List UInt8) (start length : Nat) :
    Keeps I (readString m start length) :=
  keeps_ite (keeps_raise I _) (keeps_ite (keeps_pure I _) (keeps_crash I _))

theorem throws_readString (m : List UInt8) (start length : Nat) :
    Throws (readString m start length : Program σ (List UInt8)) "basic_string::_M_create" := by
  unfold readString
  split
  · exact throws_raise _
  · split
    · exact throws_pure _ _
    · exact throws_crash _ _

end

theorem keeps_setData (f : HttpRequest → HttpRequest) :
    Keeps (fun s => s.error ≠ 0) (setData f) := fun _ h => (Outcome.leaves_ok _ _ _).mpr h

theorem keeps_setError {v : Nat} (hv : v ≠ 0) : Keeps (fun s => s.error ≠ 0) (setError v) :=
  fun _ _ => (Outcome.leaves_ok _ _ _).mpr hv

theorem drop_append_eq (l r : List UInt8) (start : Nat) :
    (l ++ r).drop start = l.drop start ++ r.drop (start - l.length) := List.drop_append

theorem stable_onRequestMethod (start length : Nat) :
    Stable fun m => onRequestMethod m start length := by
  intro l r s a s' h
  change onRequestMethod l start length s = _ at h
  change onRequestMethod (l ++ r) start length s = _
  unfold onRequestMethod at h ⊢
  rw [drop_append_eq]
  cases hmethod : charsToHttpMethod (l.drop start) with
  | none =>
    rw [hmethod] at h
    cases h
  | some method =>
    rw [hmethod] at h
    rw [show charsToHttpMethod (l.drop start ++ r.drop (start - l.length)) = some method from
      firstMethod_append hmethod]
    by_cases hinv : method = .INVALID_MATHOD
    · simp only [if_pos hinv] at h ⊢
      exact stable_bind (stable_readString start length) (fun _ => stable_const _) h
    · simp only [if_neg hinv] at h ⊢
      exact h

theorem stable_onRequestHttpVersion (start length : Nat) :
    Stable fun m => onRequestHttpVersion m start length := by
  intro l r s a s' h
  change onRequestHttpVersion l start length s = _ at h
  change onRequestHttpVersion (l ++ r) start length s = _
  unfold onRequestHttpVersion at h ⊢
  rw [drop_append_eq]
  cases h11 : strncmp (l.drop start) (literal "HTTP/1.1") length with
  | none =>
    rw [h11] at h
    cases h
  | some is11 =>
    have h11' := strncmp_append (c := r.drop (start - l.length)) (d := []) h11
    rw [List.append_nil] at h11'
    rw [h11] at h
    rw [h11']
    cases is11 with
    | true => exact h
    | false =>
      cases h10 : strncmp (l.drop start) (literal "HTTP/1.0") length with
      | none =>
        rw [h10] at h
        cases h
      | some is10 =>
        have h10' := strncmp_append (c := r.drop (start - l.length)) (d := []) h10
        rw [List.append_nil] at h10'
        rw [h10] at h
        rw [h10']
        cases is10 with
        | true => exact h
        | false => exact stable_bind (stable_readString start length) (fun _ => stable_const _) h

namespace Callback

theorem stable_run (c : Callback) : Stable fun m => c.run m := by
  cases c with
  | httpField field flen value vlen =>
    show Stable fun m => onRequestHttpField m field flen value vlen
    unfold onRequestHttpField
    by_cases hflen : flen = 0
    · simp only [if_pos hflen]
      exact stable_const _
    · simp only [if_neg hflen]
      exact stable_bind (stable_readString field flen) fun key =>
        stable_bind (stable_readString value vlen) fun val => stable_const _
  | element which start length =>
    cases which with
    | requestMethod => exact stable_onRequestMethod start length
    | requestUri => exact stable_const _
    | fragment | requestPath =>
      exact stable_bind (stable_readString start length) fun text => stable_const _
    | httpVersion => exact stable_onRequestHttpVersion start length
  | queryString start length =>
    exact stable_bind (stable_readString start length) fun text => stable_const _
  | unset => exact stable_const _

/-- What holds of the calls a callback is made of holds of the callback. -/
theorem run_made {P : Program HttpRequestParser Unit → Prop} (m : List UInt8)
    (hread : ∀ start length f, (∀ text, P (f text)) → P (readString m start length >>= f))
    (hdata : ∀ f, (∀ data, (f data).body = data.body ∧ (f data).close = data.close) →
      P (setData f))
    (herror : ∀ v, v ≠ 0 → P (setError v)) (hpure : P (return ()))
    (hcrash : P (crash .outOfBounds)) (c : Callback) : P (c.run m) := by
  cases c with
  | httpField field flen value vlen =>
    show P (onRequestHttpField m field flen value vlen)
    unfold onRequestHttpField
    split
    · exact herror 1002 (by decide)
    · exact hread _ _ _ fun key => hread _ _ _ fun val => hdata _ fun _ => ⟨rfl, rfl⟩
  | element which start length =>
    cases which with
    | requestMethod =>
      show P (onRequestMethod m start length)
      unfold onRequestMethod
      split
      · exact hcrash
      · split
        · exact hread _ _ _ fun _ => herror 1000 (by decide)
        · exact hdata _ fun _ => ⟨rfl, rfl⟩
    | requestUri => exact hpure
    | fragment | requestPath => exact hread _ _ _ fun text => hdata _ fun _ => ⟨rfl, rfl⟩
    | httpVersion =>
      show P (onRequestHttpVersion m start length)
      unfold onRequestHttpVersion
      split
      · exact hdata _ fun _ => ⟨rfl, rfl⟩
      · exact hdata _ fun _ => ⟨rfl, rfl⟩
      · exact hread _ _ _ fun _ => herror 1001 (by decide)
      · exact hcrash
  | queryString start length => exact hread _ _ _ fun text => hdata _ fun _ => ⟨rfl, rfl⟩
  | unset => exact hcrash

theorem keeps_run (m : List UInt8) (c : Callback) : Keeps (fun s => s.error ≠ 0) (c.run m) :=
  c.run_made m (fun start length _ hf => keeps_bind (keeps_readString _ m start length) hf)
    (fun f _ => keeps_setData f) (fun _ => keeps_setError) (keeps_pure _ _) (keeps_crash _ _)

/-- No callback sets the body. -/
theorem keeps_run_body (m : List UInt8) (c : Callback) :
    Keeps (fun s => s.data.body = []) (c.run m) :=
  c.run_made m (fun start length _ hf => keeps_bind (keeps_readString _ m start length) hf)
    (fun _ hf s hs => (Outcome.leaves_ok _ _ _).mpr ((hf s.data).1.trans hs))
    (fun _ _ _ hs => (Outcome.leaves_ok _ _ _).mpr hs) (keeps_pure _ _) (keeps_crash _ _)

/-- No callback sets `m_close`. -/
theorem keeps_run_close (m : List UInt8) (c : Callback) :
    Keeps (fun s => s.data.close = true) (c.run m) :=
  c.run_made m (fun start length _ hf => keeps_bind (keeps_readString _ m start length) hf)
    (fun _ hf s hs => (Outcome.leaves_ok _ _ _).mpr ((hf s.data).2.trans hs))
    (fun _ _ _ hs => (Outcome.leaves_ok _ _ _).mpr hs) (keeps_pure _ _) (keeps_crash _ _)

/-- No callback looks at the `http_parser`. -/
theorem ignores_run (f : HttpParser → HttpParser) (m : List UInt8) (c : Callback) :
    Ignores (fun s : HttpRequestParser => { s with parser := f s.parser }) (c.run m) := by
  refine c.run_made m (fun start length _ hg => ignores_bind ?_ hg) (fun _ _ _ => rfl)
    (fun _ _ _ => rfl) (ignores_pure _ _) (ignores_crash _ _)
  unfold readString
  split
  · exact ignores_raise _ _
  · split
    · exact ignores_pure _ _
    · exact ignores_crash _ _

theorem throws_run (m : List UInt8) (c : Callback) :
    Throws (c.run m) "basic_string::_M_create" :=
  c.run_made (P := fun p => Throws p "basic_string::_M_create") m
    (fun start length _ hf => throws_bind (throws_readString m start length) hf)
    (fun _ _ => throws_modify _ _) (fun _ _ => throws_modify _ _) (throws_pure _ _)
    (throws_crash _ _)

theorem readString_then {m : List UInt8} (hm : m.length < 2 ^ 63) {start length : Nat}
    (hin : start + length ≤ m.length) {f : List UInt8 → Program HttpRequestParser Unit}
    {s : HttpRequestParser} (hf : ∀ text, ∃ s', f text s = .ok () s') :
    ∃ s', (readString m start length >>= f) s = .ok () s' := by
  obtain ⟨s', hs'⟩ := hf (slice m start length)
  exact ⟨s', (bind_ok (readString_ok hm hin s)).trans hs'⟩

/-- A method is followed by a space, so it is looked up inside `m`. -/
theorem onRequestMethod_ok {m : List UInt8} (hm : m.length < 2 ^ 63) {start length : Nat}
    (hin : start + length ≤ m.length) (hspace : m[start + length]? = some 32)
    (s : HttpRequestParser) : ∃ s', onRequestMethod m start length s = .ok () s' := by
  have hmem : 32 ∈ m.drop start := by
    refine List.mem_of_getElem? (i := length) ?_
    rw [List.getElem?_drop]
    exact hspace
  obtain ⟨method, hmethod⟩ := Option.isSome_iff_exists.mp (charsToHttpMethod_isSome hmem)
  unfold onRequestMethod
  rw [hmethod]
  by_cases hinv : method = .INVALID_MATHOD
  · simp only [if_pos hinv]
    exact readString_then hm hin fun _ => ⟨_, rfl⟩
  · simp only [if_neg hinv]
    exact ⟨_, rfl⟩

theorem onRequestHttpVersion_ok {m : List UInt8} (hm : m.length < 2 ^ 63) {start length : Nat}
    (hin : start + length ≤ m.length) (s : HttpRequestParser) :
    ∃ s', onRequestHttpVersion m start length s = .ok () s' := by
  have hsome (text : String) : (strncmp (m.drop start) (literal text) length).isSome = true :=
    strncmp_isSome (by rw [List.length_drop]; omega) (by simp [literal]) (.inl rfl)
  obtain ⟨is11, h11⟩ := Option.isSome_iff_exists.mp (hsome "HTTP/1.1")
  obtain ⟨is10, h10⟩ := Option.isSome_iff_exists.mp (hsome "HTTP/1.0")
  unfold onRequestHttpVersion
  rw [h11, h10]
  cases is11 with
  | true => exact ⟨_, rfl⟩
  | false =>
    cases is10 with
    | true => exact ⟨_, rfl⟩
    | false => exact readString_then hm hin fun _ => ⟨_, rfl⟩

/-- A callback that reads within `m` returns. -/
theorem Within.run {m : List UInt8} {c : Callback} (h : c.Within m) (hm : m.length < 2 ^ 63)
    (s : HttpRequestParser) : ∃ s', c.run m s = .ok () s' := by
  cases c with
  | httpField field flen value vlen =>
    show ∃ s', onRequestHttpField m field flen value vlen s = .ok () s'
    unfold onRequestHttpField
    split
    · exact ⟨_, rfl⟩
    · exact readString_then hm h.1 fun key => readString_then hm h.2 fun val => ⟨_, rfl⟩
  | element which start length =>
    obtain ⟨hin, hspace⟩ := h
    cases which with
    | requestMethod => exact onRequestMethod_ok hm hin (hspace rfl) s
    | requestUri => exact ⟨s, rfl⟩
    | fragment | requestPath => exact readString_then hm hin fun text => ⟨_, rfl⟩
    | httpVersion => exact onRequestHttpVersion_ok hm hin s
  | queryString start length => exact readString_then hm h fun text => ⟨_, rfl⟩
  | unset => exact h.elim

end Callback

theorem runs_within {m : List UInt8} (hm : m.length < 2 ^ 63) {calls : List Callback}
    (h : ∀ c ∈ calls, c.Within m) (s : HttpRequestParser) :
    ∃ s', calls.forM (Callback.run m) s = .ok () s' := by
  induction calls generalizing s with
  | nil => exact ⟨s, rfl⟩
  | cons c calls ih =>
    obtain ⟨s', hs'⟩ := (h c (by simp)).run hm s
    obtain ⟨s'', hs''⟩ := ih (fun c hc => h c (List.mem_cons_of_mem _ hc)) s'
    exact ⟨s'', (bind_ok hs').trans hs''⟩

/-! ## Executing -/

theorem check_ok {c : Prop} [Decidable c] (h : c) (text : String) (s : HttpRequestParser) :
    check c text s = .ok () s := by
  rw [check, if_pos h]
  rfl

theorem of_check {c : Prop} [Decidable c] {text : String} {s s' : HttpRequestParser}
    (h : check c text s = .ok () s') : c ∧ s' = s := by
  by_cases hc : c
  · rw [check_ok hc] at h
    cases h
    exact ⟨hc, rfl⟩
  · rw [check, if_neg hc] at h
    cases h

section
variable {m : Machine} {buffer : List UInt8} {len : Nat} {s : HttpRequestParser}

theorem bmod_len_iff : (len : Int).bmod (2 ^ 32) = len ↔ len < 2 ^ 31 := by
  rw [Int.bmod_def]
  omega

/-- The assertions after a scan. -/
def HttpParser.Fits (parser : HttpParser) (len : Nat) : Prop :=
  parser.nread ≤ len ∧ parser.bodyStart ≤ len ∧ parser.mark < len ∧ parser.fieldLen ≤ len ∧
    parser.fieldStart < len

theorem httpParserExecute_ok {s' : HttpRequestParser} (hlen : len ≠ 0) (hint : len < 2 ^ 31)
    (hcalls : (m.scan s.parser (buffer.take len)).state.calls.forM (Callback.run buffer) s =
      .ok () s')
    (hfits : (s.parser.scanned (m.scan s.parser (buffer.take len))).Fits len) :
    httpParserExecute m buffer len s =
      .ok (s.parser.nread + (m.scan s.parser (buffer.take len)).consumed)
        { s' with parser := s.parser.scanned (m.scan s.parser (buffer.take len)) } := by
  obtain ⟨hnread, hbody, hmark, hfieldLen, hfieldStart⟩ := hfits
  have hconsumed : (m.scan s.parser (buffer.take len)).consumed ≤ len := by
    have := consumed_le m.move (Scan.start s.parser) (buffer.take len)
    rw [List.length_take] at this
    exact this.trans (Nat.min_le_left _ _)
  unfold httpParserExecute
  rw [if_neg hlen]
  have hget : (get : Program HttpRequestParser HttpRequestParser) s = .ok s s := rfl
  refine (bind_ok (check_ok (bmod_len_iff.mpr hint) _ s)).trans ?_
  refine (bind_ok hget).trans ((bind_ok hcalls).trans (Eq.trans (bind_ok rfl) ?_))
  refine (bind_ok (check_ok hconsumed _ _)).trans ((bind_ok (check_ok hnread _ _)).trans ?_)
  refine (bind_ok (check_ok hbody _ _)).trans ((bind_ok (check_ok hmark _ _)).trans ?_)
  exact (bind_ok (check_ok hfieldLen _ _)).trans ((bind_ok (check_ok hfieldStart _ _)).trans rfl)

/-- `(int)len` is not the length of the buffer. -/
theorem execute_long {text : List UInt8} (hlong : 2 ^ 31 ≤ text.length) (s : HttpRequestParser) :
    HttpRequestParser.execute m text text.length s =
      .fault (.assertion "pointers aren't same distance") := by
  have hlen : text.length ≠ 0 := by omega
  have hint : ¬(text.length : Int).bmod (2 ^ 32) = text.length :=
    fun hint => absurd (bmod_len_iff.mp hint) (by omega)
  have hcheck : check ((text.length : Int).bmod (2 ^ 32) = text.length)
      "pointers aren't same distance" s = .fault (.assertion "pointers aren't same distance") := by
    rw [check, if_neg hint]
    rfl
  have hexecute : httpParserExecute m text text.length s =
      .fault (.assertion "pointers aren't same distance") := by
    unfold httpParserExecute
    rw [if_neg hlen]
    exact bind_fault hcheck
  exact bind_fault hexecute

/-- What a call that returns has done: it has not counted past its buffer. -/
theorem of_httpParserExecute {n : Nat} {s' : HttpRequestParser} (hlen : len ≠ 0)
    (h : httpParserExecute m buffer len s = .ok n s') :
    n = s.parser.nread + (m.scan s.parser (buffer.take len)).consumed ∧ n ≤ len ∧
      ∃ s₁, (m.scan s.parser (buffer.take len)).state.calls.forM (Callback.run buffer) s =
          .ok () s₁ ∧
        s' = { s₁ with parser := s.parser.scanned (m.scan s.parser (buffer.take len)) } := by
  unfold httpParserExecute at h
  rw [if_neg hlen] at h
  obtain ⟨_, s₀, hdistance, h⟩ := of_bind_ok h
  rw [(of_check hdistance).2] at h
  obtain ⟨_, _, hget, h⟩ := of_bind_ok h
  cases hget
  obtain ⟨_, s₁, hcalls, h⟩ := of_bind_ok h
  obtain ⟨_, _, hmodify, h⟩ := of_bind_ok h
  cases hmodify
  obtain ⟨_, s₂, hoverflow, h⟩ := of_bind_ok h
  obtain ⟨_, s₃, hnread, h⟩ := of_bind_ok h
  obtain ⟨_, s₄, hbodyStart, h⟩ := of_bind_ok h
  obtain ⟨_, s₅, hmark, h⟩ := of_bind_ok h
  obtain ⟨_, s₆, hfieldLen, h⟩ := of_bind_ok h
  obtain ⟨_, s₇, hfieldStart, h⟩ := of_bind_ok h
  have hle := (of_check hnread).1
  rw [(of_check hfieldStart).2, (of_check hfieldLen).2, (of_check hmark).2,
    (of_check hbodyStart).2, (of_check hnread).2, (of_check hoverflow).2] at h
  cases h
  exact ⟨rfl, hle, s₁, hcalls, rfl⟩

theorem keeps_check (I : HttpRequestParser → Prop) (c : Prop) [Decidable c] (text : String) :
    Keeps I (check c text) := keeps_ite (keeps_pure I ()) (keeps_crash I _)

/-- A call of `execute` keeps what the callbacks keep. -/
theorem keeps_execute {I : HttpRequestParser → Prop} (hcalls : ∀ m c, Keeps I (Callback.run m c))
    (hparser : ∀ s parser, I s → I { s with parser := parser }) (m : Machine) (data : List UInt8)
    (len : Nat) : Keeps I (HttpRequestParser.execute m data len) := by
  have hget : Keeps I (get : Program HttpRequestParser HttpRequestParser) :=
    fun s hs => (Outcome.leaves_ok I s s).mpr hs
  have hmodify (parser : HttpParser) :
      Keeps I (modify fun s : HttpRequestParser => { s with parser := parser }) :=
    fun s hs => (Outcome.leaves_ok I () _).mpr (hparser s parser hs)
  have hexecute : Keeps I (httpParserExecute m data len) := by
    unfold httpParserExecute
    refine keeps_ite (keeps_pure I _) (keeps_bind (keeps_check I _ _) fun _ => ?_)
    refine keeps_bind hget fun s => keeps_bind (keeps_forM (hcalls data) _) fun _ => ?_
    refine keeps_bind (hmodify _) fun _ => keeps_bind (keeps_check I _ _) fun _ => ?_
    refine keeps_bind (keeps_check I _ _) fun _ => keeps_bind (keeps_check I _ _) fun _ => ?_
    refine keeps_bind (keeps_check I _ _) fun _ => keeps_bind (keeps_check I _ _) fun _ => ?_
    exact keeps_bind (keeps_check I _ _) fun _ => keeps_pure I _
  exact keeps_bind hexecute fun _ => keeps_pure I _

theorem throws_check (c : Prop) [Decidable c] (text what : String) : Throws (check c text) what := by
  unfold check
  split
  · exact throws_pure _ _
  · exact throws_crash _ _

theorem throws_execute (m : Machine) (data : List UInt8) (len : Nat) :
    Throws (HttpRequestParser.execute m data len) "basic_string::_M_create" := by
  have hexecute : Throws (httpParserExecute m data len) "basic_string::_M_create" := by
    unfold httpParserExecute
    split
    · exact throws_pure _ _
    · refine throws_bind (throws_check _ _ _) fun _ => ?_
      refine throws_bind (fun s w s' h => nomatch h) fun s => ?_
      refine throws_bind (throws_forM (Callback.throws_run data) _) fun _ => ?_
      refine throws_bind (throws_modify _ _) fun _ => ?_
      refine throws_bind (throws_check _ _ _) fun _ => throws_bind (throws_check _ _ _) fun _ => ?_
      refine throws_bind (throws_check _ _ _) fun _ => throws_bind (throws_check _ _ _) fun _ => ?_
      refine throws_bind (throws_check _ _ _) fun _ => throws_bind (throws_check _ _ _) fun _ => ?_
      exact throws_pure _ _
  exact throws_bind hexecute fun _ => throws_pure _ _

end

/-! ## A new parser -/

namespace Machine
variable (m : Machine)

/-- A new parser after its first buffer. -/
def parsed (l : List UInt8) : HttpRequestParser :=
  match (m.scan .init l).state.calls.forM (Callback.run l) .new with
  | .ok _ s => { s with parser := HttpParser.init.scanned (m.scan .init l) }
  | .throw _ s => s
  | .fault _ => .new

theorem scan_inv (l : List UInt8) :
    (m.scan .init l).state.Inv ⟨false, false⟩ l (l.length - 1) := by
  refine m.run_inv (l := []) rfl ?_
  exact {
    mark := Nat.le_refl _
    fieldStart := Nat.le_refl _
    fieldLen := Nat.le_refl _
    bodyStart := Nat.zero_le _
    query := fun q hq => nomatch hq
    measured := fun _ => Nat.le_refl _
    queried := by
      intro h
      rw [show (Scan.start .init).cs = startState from rfl, m.known_start] at h
      cases h
    calls := fun c hc => nomatch hc }

theorem parsed_eq {l : List UInt8} (hl : l.length < 2 ^ 63) :
    ∃ s, (m.scan .init l).state.calls.forM (Callback.run l) .new = .ok () s ∧
      m.parsed l = { s with parser := HttpParser.init.scanned (m.scan .init l) } := by
  obtain ⟨s, hs⟩ := runs_within hl (m.scan_inv l).calls .new
  refine ⟨s, hs, ?_⟩
  rw [parsed, hs]

/-- The first buffer passes the assertions. -/
theorem scan_fits {l : List UInt8} (hne : l ≠ []) :
    (HttpParser.init.scanned (m.scan .init l)).Fits l.length := by
  have hpos : 0 < l.length := List.length_pos_iff.mpr hne
  have hinv := m.scan_inv l
  have hconsumed : (m.scan .init l).consumed ≤ l.length := consumed_le _ _ _
  refine ⟨?_, ?_, ?_, ?_, ?_⟩
  · show 0 + (m.scan .init l).consumed ≤ l.length
    omega
  · have := hinv.bodyStart
    show (m.scan .init l).state.parser.bodyStart ≤ l.length
    omega
  · have := hinv.mark
    show (m.scan .init l).state.parser.mark < l.length
    omega
  · have := hinv.fieldLen
    show (m.scan .init l).state.parser.fieldLen ≤ l.length
    omega
  · have := hinv.fieldStart
    show (m.scan .init l).state.parser.fieldStart < l.length
    omega

theorem execute_new {l : List UInt8} (hne : l ≠ []) (hint : l.length < 2 ^ 31) :
    HttpRequestParser.execute m l l.length .new =
      .ok ((m.scan .init l).consumed, overwrite l 0 (slice l (m.scan .init l).consumed
        (l.length - (m.scan .init l).consumed))) (m.parsed l) := by
  have hl : l.length < 2 ^ 63 := hint.trans (by decide)
  obtain ⟨s, hcalls, hparsed⟩ := m.parsed_eq hl
  have hpos : 0 < l.length := List.length_pos_iff.mpr hne
  have htake : l.take l.length = l := List.take_length
  have hexecute : httpParserExecute m l l.length .new =
      .ok (m.scan .init l).consumed (m.parsed l) := by
    have hcalls' : (m.scan .init (l.take l.length)).state.calls.forM (Callback.run l) .new =
        .ok () s := by
      rw [htake]
      exact hcalls
    have hfits' : (HttpParser.init.scanned (m.scan .init (l.take l.length))).Fits l.length := by
      rw [htake]
      exact m.scan_fits hne
    have hok : httpParserExecute m l l.length .new = _ :=
      httpParserExecute_ok hpos.ne' hint hcalls' hfits'
    rw [show HttpRequestParser.new.parser = HttpParser.init from rfl, htake] at hok
    rw [hok, hparsed]
    show Outcome.ok (0 + (m.scan .init l).consumed) _ = _
    rw [Nat.zero_add]
  exact (bind_ok hexecute).trans rfl

/-! ## Headers -/

/-- A complete request header: the machine accepts at its last byte. -/
def IsHeader (hd : List UInt8) : Prop :=
  (m.scan .init hd).status = .accepted ∧ (m.scan .init hd).consumed = hd.length

instance (hd : List UInt8) : Decidable (m.IsHeader hd) := inferInstanceAs (Decidable (_ ∧ _))

namespace IsHeader
variable {m : Machine} {hd : List UInt8}

theorem ne_nil (h : m.IsHeader hd) : hd ≠ [] := by
  rintro rfl
  cases h.1

theorem append_ne_nil (h : m.IsHeader hd) (r : List UInt8) : hd ++ r ≠ [] :=
  List.append_ne_nil_of_left_ne_nil h.ne_nil r

theorem scan_append (h : m.IsHeader hd) (r : List UInt8) :
    m.scan .init (hd ++ r) = m.scan .init hd := by
  refine run_append_stopped ?_
  rw [show (run m.move (Scan.start .init) hd).status = .accepted from h.1]
  exact Status.noConfusion

/-- The callbacks of a header do not see what follows it. -/
theorem parsed_append (h : m.IsHeader hd) {r : List UInt8} (hl : (hd ++ r).length < 2 ^ 63) :
    m.parsed (hd ++ r) = m.parsed hd := by
  have hhd : hd.length < 2 ^ 63 := by
    rw [List.length_append] at hl
    omega
  obtain ⟨s, hcalls, hparsed⟩ := m.parsed_eq hhd
  have happend : (m.scan .init hd).state.calls.forM (Callback.run (hd ++ r)) .new = .ok () s :=
    stable_forM (fun c => c.stable_run) _ hcalls
  rw [hparsed, parsed, h.scan_append, happend]

theorem cs_final (h : m.IsHeader hd) : firstFinal ≤ (m.scan .init hd).state.cs := by
  have hcs := m.run_cs (s := Scan.start .init) ⟨by decide, by decide⟩ hd
  rw [show (run m.move (Scan.start .init) hd).status = .accepted from h.1] at hcs
  exact hcs

/-- The machine is still running in front of the last byte. -/
theorem running {a b : List UInt8} (h : m.IsHeader (a ++ b)) (hb : b ≠ []) :
    (m.scan .init a).status = .running :=
  running_of_append h.2 hb

end IsHeader

theorem parsed_cs (l : List UInt8) (hl : l.length < 2 ^ 63) :
    (m.parsed l).parser.cs = (m.scan .init l).state.cs := by
  obtain ⟨s, -, hparsed⟩ := m.parsed_eq hl
  rw [hparsed]
  rfl

/-- A parser whose first buffer has ended before the machine did. -/
theorem parsed_running {l : List UInt8} (hl : l.length < 2 ^ 63)
    (hrun : (m.scan .init l).status = .running) :
    (m.parsed l).parser.nread = l.length ∧ (m.parsed l).parser.cs ≠ errorState ∧
      (m.parsed l).parser.cs < firstFinal := by
  obtain ⟨s, -, hparsed⟩ := m.parsed_eq hl
  have hconsumed : (m.scan .init l).consumed = l.length := consumed_of_running hrun
  have hcs := m.run_cs (s := Scan.start .init) ⟨by decide, by decide⟩ l
  rw [show (run m.move (Scan.start .init) l).status = .running from hrun] at hcs
  refine ⟨?_, ?_⟩
  · rw [hparsed]
    show 0 + (m.scan .init l).consumed = l.length
    rw [hconsumed, Nat.zero_add]
  · rw [m.parsed_cs l hl]
    exact hcs

/-- Its next scan goes on in the state of the machine, on another buffer. -/
theorem scan_again {l : List UInt8} (hl : l.length < 2 ^ 63)
    (hrun : (m.scan .init l).status = .running) (r : List UInt8) :
    (m.scan .init (l ++ r)).consumed =
        l.length + (m.scan (m.parsed l).parser r).consumed ∧
      (m.scan .init (l ++ r)).state.cs = (m.scan (m.parsed l).parser r).state.cs := by
  have hcs : (Scan.start (m.parsed l).parser).cs = (m.scan .init l).state.cs := m.parsed_cs l hl
  obtain ⟨hconsumed, -, hfinal⟩ := m.run_congr hcs r
  rw [show m.scan .init (l ++ r) = _ from run_append_running hrun]
  exact ⟨congrArg (l.length + ·) hconsumed.symm, hfinal.symm⟩

theorem act_calls (s : Scan) (a : Action) : ∃ more, (s.act a).calls = s.calls ++ more := by
  cases a with
  | httpField | element which => exact ⟨_, rfl⟩
  | queryString =>
    unfold Scan.act
    cases s.parser.queryStart with
    | none => exact ⟨_, rfl⟩
    | some start => exact ⟨_, rfl⟩
  | _ => exact ⟨[], (List.append_nil _).symm⟩

theorem acts_calls (s : Scan) (actions : List Action) :
    ∃ more, (actions.foldl Scan.act s).calls = s.calls ++ more := by
  induction actions generalizing s with
  | nil => exact ⟨[], (List.append_nil _).symm⟩
  | cons a actions ih =>
    obtain ⟨more, hmore⟩ := act_calls s a
    obtain ⟨rest, hrest⟩ := ih (s.act a)
    exact ⟨more ++ rest, by rw [List.foldl_cons, hrest, hmore, List.append_assoc]⟩

/-- A scan takes no callback back. -/
theorem run_calls (s : Scan) (bs : List UInt8) :
    ∃ more, (run m.move s bs).state.calls = s.calls ++ more := by
  refine run_keeps (I := fun s' : Scan => ∃ more, s'.calls = s.calls ++ more) ?_
    ⟨[], (List.append_nil _).symm⟩
  rintro s' b ⟨more, hmore⟩
  unfold move
  cases m.step s'.cs b with
  | error => exact ⟨more, hmore⟩
  | goto actions cs | done actions cs =>
    obtain ⟨rest, hrest⟩ := acts_calls s' actions
    exact ⟨more ++ rest, by rw [← List.append_assoc, ← hmore]; exact hrest⟩

theorem parsed_body (l : List UInt8) : (m.parsed l).data.body = [] := by
  have hkeeps := keeps_forM (Callback.keeps_run_body l) (m.scan .init l).state.calls .new rfl
  unfold parsed
  cases hcalls : (m.scan .init l).state.calls.forM (Callback.run l) .new with
  | ok u s =>
    rw [hcalls] at hkeeps
    exact (Outcome.leaves_ok (fun s => s.data.body = []) u s).mp hkeeps
  | throw what s =>
    rw [hcalls] at hkeeps
    exact (Outcome.leaves_throw (fun s => s.data.body = []) what s).mp hkeeps
  | fault why => rfl

/-- An error stays. -/
theorem parsed_error {a b : List UInt8} (hl : (a ++ b).length < 2 ^ 63)
    (h : (m.parsed a).error ≠ 0) : (m.parsed (a ++ b)).error ≠ 0 := by
  have ha : a.length < 2 ^ 63 := by
    rw [List.length_append] at hl
    omega
  obtain ⟨s, hcalls, hparsed⟩ := m.parsed_eq ha
  obtain ⟨s', hcalls', hparsed'⟩ := m.parsed_eq hl
  rw [hparsed] at h
  rw [hparsed']
  show s'.error ≠ 0
  have happend : (m.scan .init a).state.calls.forM (Callback.run (a ++ b)) .new = .ok () s :=
    stable_forM (fun c => c.stable_run) _ hcalls
  obtain ⟨more, hmore⟩ : ∃ more,
      (m.scan .init (a ++ b)).state.calls = (m.scan .init a).state.calls ++ more := by
    by_cases hrun : (m.scan .init a).status = .running
    · obtain ⟨more, hmore⟩ := m.run_calls (m.scan .init a).state b
      refine ⟨more, ?_⟩
      rw [show m.scan .init (a ++ b) = _ from run_append_running hrun]
      exact hmore
    · refine ⟨[], ?_⟩
      rw [show m.scan .init (a ++ b) = _ from run_append_stopped hrun, List.append_nil]
      rfl
  rw [hmore, forM_append, bind_ok happend] at hcalls'
  have hkeeps := keeps_forM (Callback.keeps_run (a ++ b)) more s h
  rw [hcalls'] at hkeeps
  exact (Outcome.leaves_ok (fun s => s.error ≠ 0) () s').mp hkeeps

end Machine
end Http
end TwServer
