import Mathlib.Data.FinEnum
import TwServer.Http.Parser

/-! Machines given by a table of byte ranges. `plain` has the states and transitions
of the generated machine that a request for `/` goes through when its method has at
most five letters, its header names have letters and hyphens, and its values no
control bytes. -/

namespace TwServer

namespace Http

instance (k : Known) (b : UInt8) : (a : Action) → Decidable (k.Allows b a)
  | .httpField => inferInstanceAs (Decidable (k.measured = true))
  | .queryString => inferInstanceAs (Decidable (k.queried = true))
  | .element .requestMethod => inferInstanceAs (Decidable (b = 32))
  | .element .requestUri | .element .fragment | .element .requestPath | .element .httpVersion
  | .mark | .fieldStart | .fieldLen | .queryStart | .xmlSent | .jsonSent => .isTrue trivial

instance decidableAllowsAll (b : UInt8) :
    (k : Known) → (actions : List Action) → Decidable (k.AllowsAll b actions)
  | _, [] => .isTrue trivial
  | k, a :: as =>
    haveI := decidableAllowsAll b (k.after a) as
    inferInstanceAs (Decidable (k.Allows b a ∧ (k.after a).AllowsAll b as))

instance (k k' : Known) : Decidable (k.Le k') := inferInstanceAs (Decidable (_ ∧ _))

/-- The transition of the state `cs` on the bytes from `lo` to `hi`. -/
structure Rule where
  cs : Nat
  lo : UInt8
  hi : UInt8
  move : Transition

/-- What a rule must keep to where `known` says what holds in the states. -/
def Transition.Sound (known : Nat → Known) (k : Known) : Transition → Prop
  | .error => True
  | .goto actions cs =>
    cs ≠ errorState ∧ cs < firstFinal ∧ (known cs).Le (actions.foldl Known.after k)
  | .done _ cs => firstFinal ≤ cs

instance (known : Nat → Known) (k : Known) : (t : Transition) → Decidable (t.Sound known k)
  | .error => .isTrue trivial
  | .goto _ _ => inferInstanceAs (Decidable (_ ∧ _ ∧ _))
  | .done _ cs => inferInstanceAs (Decidable (firstFinal ≤ cs))

namespace Rule

def Sound (known : Nat → Known) (r : Rule) : Prop :=
  (.element .requestMethod ∈ r.move.actions → r.lo = r.hi) ∧
    (known r.cs).AllowsAll r.lo r.move.actions ∧ r.move.Sound known (known r.cs)

instance (known : Nat → Known) (r : Rule) : Decidable (r.Sound known) :=
  inferInstanceAs (Decidable (_ ∧ _ ∧ _))

def Matches (r : Rule) (cs : Nat) (b : UInt8) : Prop := r.cs = cs ∧ r.lo ≤ b ∧ b ≤ r.hi

instance (r : Rule) (cs : Nat) (b : UInt8) : Decidable (r.Matches cs b) :=
  inferInstanceAs (Decidable (_ ∧ _ ∧ _))

end Rule

/-- Only `request_method` looks at the byte. -/
theorem Known.AllowsAll.of_byte {b c : UInt8} {k : Known} {actions : List Action}
    (h : k.AllowsAll b actions) (hbyte : .element .requestMethod ∈ actions → c = b) :
    k.AllowsAll c actions := by
  induction actions generalizing k with
  | nil => trivial
  | cons a actions ih =>
    refine ⟨?_, ih h.2 fun hmem => hbyte (List.mem_cons_of_mem _ hmem)⟩
    by_cases ha : a = .element .requestMethod
    · rw [hbyte (by simp [ha])]
      exact h.1
    · have hallow := h.1
      cases a with
      | element which =>
        cases which with
        | requestMethod => exact absurd rfl ha
        | requestUri | fragment | requestPath | httpVersion => trivial
      | _ => exact hallow

def tableStep (table : List Rule) (cs : Nat) (b : UInt8) : Transition :=
  match table.find? fun r => r.Matches cs b with
  | some r => r.move
  | none => .error

/-- A transition other than the error comes from a rule. -/
theorem tableStep_cases (table : List Rule) (cs : Nat) (b : UInt8) :
    tableStep table cs b = .error ∨
      ∃ r ∈ table, r.Matches cs b ∧ tableStep table cs b = r.move := by
  unfold tableStep
  cases hfind : table.find? fun r => r.Matches cs b with
  | none => exact .inl rfl
  | some r =>
    have hmatch := List.find?_some hfind
    exact .inr ⟨r, List.mem_of_find?_eq_some hfind, of_decide_eq_true hmatch, rfl⟩

section
variable {table : List Rule} {known : Nat → Known} (hall : ∀ r ∈ table, r.Sound known)
include hall

theorem tableStep_sound {cs : Nat} {b : UInt8} {t : Transition} (h : tableStep table cs b = t) :
    t.Sound known (known cs) := by
  rw [← h]
  rcases tableStep_cases table cs b with herror | ⟨r, hr, hmatch, hstep⟩
  · rw [herror]
    trivial
  · rw [hstep, ← hmatch.1]
    exact (hall r hr).2.2

theorem tableStep_allowed (cs : Nat) (b : UInt8) :
    (known cs).AllowsAll b (tableStep table cs b).actions := by
  rcases tableStep_cases table cs b with herror | ⟨r, hr, hmatch, hstep⟩
  · rw [herror]
    trivial
  · obtain ⟨hmethod, hallow, -⟩ := hall r hr
    rw [hstep, ← hmatch.1]
    refine hallow.of_byte fun hmem => ?_
    have hhi := hmatch.2.2
    rw [← hmethod hmem] at hhi
    exact UInt8.le_antisymm hhi hmatch.2.1

end

def Machine.ofTable (table : List Rule) (known : Nat → Known)
    (hstart : known startState = ⟨false, false⟩) (hall : ∀ r ∈ table, r.Sound known) : Machine where
  step := tableStep table
  known := known
  goto_cs h := ⟨(tableStep_sound hall h).1, (tableStep_sound hall h).2.1⟩
  done_cs h := tableStep_sound hall h
  allowed := tableStep_allowed hall
  known_start := hstart
  known_goto h := (tableStep_sound hall h).2.2

/-! ## Plain requests -/

/-- The method: letters and digits up to a space. -/
def methodRules : List Rule :=
  [⟨1, 48, 57, .goto [.mark] 2⟩, ⟨1, 65, 90, .goto [.mark] 2⟩] ++
    [(2, 175), (175, 176), (176, 177), (177, 178), (178, 179)].flatMap fun (cs, next) =>
      [⟨cs, 32, 32, .goto [.element .requestMethod] 3⟩, ⟨cs, 48, 57, .goto [] next⟩,
        ⟨cs, 65, 90, .goto [] next⟩]

/-- The path `/` and the version. -/
def lineRules : List Rule :=
  [⟨3, 47, 47, .goto [.mark] 33⟩,
    ⟨33, 32, 32, .goto [.element .requestPath, .element .requestUri] 4⟩,
    ⟨4, 72, 72, .goto [.mark] 5⟩, ⟨5, 84, 84, .goto [] 6⟩, ⟨6, 84, 84, .goto [] 7⟩,
    ⟨7, 80, 80, .goto [] 8⟩, ⟨8, 47, 47, .goto [] 9⟩, ⟨9, 49, 49, .goto [] 10⟩,
    ⟨10, 46, 46, .goto [] 11⟩, ⟨11, 48, 49, .goto [] 12⟩,
    ⟨12, 10, 10, .goto [.element .httpVersion] 13⟩,
    ⟨12, 13, 13, .goto [.element .httpVersion] 17⟩]

def headerRules : List Rule :=
  [⟨13, 10, 10, .done [.fieldStart] 348⟩, ⟨13, 13, 13, .goto [.fieldStart] 18⟩,
    ⟨13, 65, 90, .goto [.fieldStart] 14⟩, ⟨13, 97, 122, .goto [.fieldStart] 14⟩,
    ⟨14, 45, 45, .goto [] 14⟩, ⟨14, 58, 58, .goto [.fieldLen] 15⟩, ⟨14, 65, 90, .goto [] 14⟩,
    ⟨14, 97, 122, .goto [] 14⟩,
    ⟨15, 13, 13, .goto [.mark, .httpField] 17⟩, ⟨15, 32, 32, .goto [.mark] 15⟩,
    ⟨15, 33, 126, .goto [.mark] 16⟩, ⟨15, 128, 255, .goto [.mark] 16⟩,
    ⟨16, 13, 13, .goto [.httpField] 17⟩, ⟨16, 32, 126, .goto [] 16⟩, ⟨16, 128, 255, .goto [] 16⟩,
    ⟨17, 10, 10, .goto [] 13⟩, ⟨18, 10, 10, .done [] 348⟩]

def plainKnown (cs : Nat) : Known := ⟨cs = 15 || cs = 16, false⟩

theorem plain_sound : ∀ r ∈ methodRules ++ lineRules ++ headerRules, r.Sound plainKnown := by
  decide

theorem plain_start : plainKnown startState = ⟨false, false⟩ := rfl

def plain : Machine :=
  .ofTable (methodRules ++ lineRules ++ headerRules) plainKnown plain_start plain_sound

/-- The decimal digits of a number below 2 ^ 64. -/
def decimal (text : List UInt8) : Option (BitVec 64) :=
  if text ≠ [] ∧ ∀ b ∈ text, 48 ≤ b ∧ b ≤ 57 then
    let value := text.foldl (fun n b => n * 10 + (b.toNat - 48)) 0
    if value < 2 ^ 64 then some (BitVec.ofNat 64 value) else none
  else none

end Http
end TwServer
