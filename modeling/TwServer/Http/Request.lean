import Mathlib.Algebra.Group.Int.Defs
import Mathlib.Algebra.Group.Nat.Defs
import TwServer.Lib.Program
import TwServer.Lib.Blocks
import TwServer.Lib.OrderedMap

/-! `tw::http`'s methods and requests. A `char*` is the memory from the address
it holds to the end of what has been written there; reading on is a fault. -/

namespace TwServer
open Programs Program Blocks

namespace Http

def bytes (text : String) : List UInt8 := text.toUTF8.data.toList

/-- A string literal with the NUL that ends it. -/
def literal (text : String) : List UInt8 := bytes text ++ [0]

/-! ## Comparing and copying -/

/-- `strncmp(a, b, n) == 0`; `none` where it reads past the end of one of them. -/
def strncmp : List UInt8 → List UInt8 → Nat → Option Bool
  | _, _, 0 => some true
  | a :: as, b :: bs, n + 1 =>
    if a = b then if a = 0 then some true else strncmp as bs n else some false
  | _, _, _ + 1 => none

theorem strncmp_append {a b c d : List UInt8} {n : Nat} {equal : Bool}
    (h : strncmp a b n = some equal) : strncmp (a ++ c) (b ++ d) n = some equal := by
  induction n generalizing a b with
  | zero => simpa only [strncmp] using h
  | succ n ih =>
    cases a with
    | nil => simp [strncmp] at h
    | cons x a =>
      cases b with
      | nil => simp [strncmp] at h
      | cons y b =>
        rw [strncmp] at h
        rw [List.cons_append, List.cons_append, strncmp]
        by_cases hxy : x = y
        · rw [if_pos hxy] at h ⊢
          by_cases hx : x = 0
          · rw [if_pos hx] at h ⊢
            exact h
          · rw [if_neg hx] at h ⊢
            exact ih h
        · rw [if_neg hxy] at h ⊢
          exact h

/-- The comparison stops at a NUL of `b` and at a byte that `a` does not have. -/
theorem strncmp_isSome {a b : List UInt8} {n : Nat} {x : UInt8} (hn : n ≤ a.length) (hx : x ∈ b)
    (h : x = 0 ∨ x ∉ a) : (strncmp a b n).isSome = true := by
  induction n generalizing a b with
  | zero => simp [strncmp]
  | succ n ih =>
    cases a with
    | nil => simp at hn
    | cons y a =>
      cases b with
      | nil => simp at hx
      | cons z b =>
        rw [strncmp]
        by_cases hyz : y = z
        · rw [if_pos hyz]
          by_cases hy : y = 0
          · rw [if_pos hy]
            rfl
          · rw [if_neg hy]
            have hxz : x ≠ z := by
              rintro rfl
              rcases h with h | h
              · exact hy (hyz.trans h)
              · exact h (by simp [hyz])
            refine ih (by simpa using hn) ((List.mem_cons.mp hx).resolve_left hxz) ?_
            exact h.imp id fun h hmem => h (List.mem_cons_of_mem _ hmem)
        · rw [if_neg hyz]
          rfl

/-- `std::string(data + start, length)`. -/
def readString {σ : Type} (m : List UInt8) (start length : Nat) : Program σ (List UInt8) :=
  if 2 ^ 63 ≤ length then raise "basic_string::_M_create"
  else if start + length ≤ m.length then return slice m start length
  else crash .outOfBounds

/-! ## Methods -/

inductive HttpMethod where
  | DELETE | GET | HEAD | POST | PUT
  | CONNECT | OPTIONS | TRACE
  | COPY | LOCK | MKCOL | MOVE | PROPFIND | PROPPATCH | SEARCH | UNLOCK | BIND | REBIND | UNBIND
  | ACL
  | REPORT | MKACTIVITY | CHECKOUT | MERGE
  | MSEARCH | NOTIFY | SUBSCRIBE | UNSUBSCRIBE
  | PATCH | PURGE
  | MKCALENDAR
  | LINK | UNLINK
  | SOURCE
  | INVALID_MATHOD
  deriving DecidableEq, Repr

open HttpMethod in
/-- `HTTP_METHOD_MAP`. -/
def methodMap : List (HttpMethod × String) :=
  [(DELETE, "DELETE"), (GET, "GET"), (HEAD, "HEAD"), (POST, "POST"), (PUT, "PUT"),
    (CONNECT, "CONNECT"), (OPTIONS, "OPTIONS"), (TRACE, "TRACE"),
    (COPY, "COPY"), (LOCK, "LOCK"), (MKCOL, "MKCOL"), (MOVE, "MOVE"), (PROPFIND, "PROPFIND"),
    (PROPPATCH, "PROPPATCH"), (SEARCH, "SEARCH"), (UNLOCK, "UNLOCK"), (BIND, "BIND"),
    (REBIND, "REBIND"), (UNBIND, "UNBIND"), (ACL, "ACL"),
    (REPORT, "REPORT"), (MKACTIVITY, "MKACTIVITY"), (CHECKOUT, "CHECKOUT"), (MERGE, "MERGE"),
    (MSEARCH, "M-SEARCH"), (NOTIFY, "NOTIFY"), (SUBSCRIBE, "SUBSCRIBE"),
    (UNSUBSCRIBE, "UNSUBSCRIBE"),
    (PATCH, "PATCH"), (PURGE, "PURGE"),
    (MKCALENDAR, "MKCALENDAR"),
    (LINK, "LINK"), (UNLINK, "UNLINK"),
    (SOURCE, "SOURCE")]

/-- The first entry whose name starts the memory `m`. -/
def firstMethod (m : List UInt8) : List (HttpMethod × String) → Option HttpMethod
  | [] => some .INVALID_MATHOD
  | (method, text) :: rest =>
    match strncmp (literal text) m (bytes text).length with
    | none => none
    | some true => some method
    | some false => firstMethod m rest

def charsToHttpMethod (m : List UInt8) : Option HttpMethod := firstMethod m methodMap

theorem firstMethod_append {m r : List UInt8} {entries : List (HttpMethod × String)}
    {method : HttpMethod} (h : firstMethod m entries = some method) :
    firstMethod (m ++ r) entries = some method := by
  induction entries with
  | nil => exact h
  | cons entry entries ih =>
    obtain ⟨name, text⟩ := entry
    rw [firstMethod] at h ⊢
    cases hcmp : strncmp (literal text) m (bytes text).length with
    | none =>
      rw [hcmp] at h
      cases h
    | some equal =>
      rw [hcmp] at h
      have happend := strncmp_append (c := []) (d := r) hcmp
      rw [List.append_nil] at happend
      rw [happend]
      cases equal with
      | true => exact h
      | false => exact ih h

theorem space_not_in_methods : ∀ entry ∈ methodMap, (32 : UInt8) ∉ literal entry.2 := by
  decide +kernel

/-- No name has a space in it, so the search does not pass one. -/
theorem charsToHttpMethod_isSome {m : List UInt8} (h : 32 ∈ m) :
    (charsToHttpMethod m).isSome = true := by
  have hsearch : ∀ entries : List (HttpMethod × String), (∀ e ∈ entries, 32 ∉ literal e.2) →
      (firstMethod m entries).isSome = true := by
    intro entries
    induction entries with
    | nil => exact fun _ => rfl
    | cons entry entries ih =>
      intro hentries
      obtain ⟨name, text⟩ := entry
      have hsome : (strncmp (literal text) m (bytes text).length).isSome = true :=
        strncmp_isSome (by simp [literal]) h (.inr (hentries (name, text) (by simp)))
      rw [firstMethod]
      obtain ⟨equal, hequal⟩ := Option.isSome_iff_exists.mp hsome
      rw [hequal]
      cases equal with
      | true => rfl
      | false => exact ih fun e he => hentries e (List.mem_cons_of_mem _ he)
  exact hsearch methodMap space_not_in_methods

/-! ## Requests -/

/-- `tolower` in the "C" locale. -/
def toLower (b : UInt8) : UInt8 := if 65 ≤ b ∧ b ≤ 90 then b + 32 else b

/-- What `strcasecmp` sees of a key. -/
def caseless (key : List UInt8) : List UInt8 := (key.takeWhile (· ≠ 0)).map toLower

/-- The sign of `strcasecmp` in `CaseInsensitiveless`. -/
def less : List UInt8 → List UInt8 → Bool
  | _, [] => false
  | [], _ :: _ => true
  | a :: as, b :: bs => if a = b then less as bs else a < b

theorem less_self (a : UInt8) (as bs : List UInt8) : less (a :: as) (a :: bs) = less as bs := by
  rw [less, if_pos rfl]

theorem less_of_ne {a b : UInt8} (h : a ≠ b) (as bs : List UInt8) :
    less (a :: as) (b :: bs) = decide (a < b) := by
  rw [less, if_neg h]

theorem less_irrefl (a : List UInt8) : less a a = false := by
  induction a with
  | nil => rfl
  | cons a as ih => rw [less_self, ih]

theorem less_trans (a b c : List UInt8) (hab : less a b = true) (hbc : less b c = true) :
    less a c = true := by
  induction a generalizing b c with
  | nil =>
    cases c with
    | nil => cases b <;> cases hbc
    | cons c cs => rfl
  | cons a as ih =>
    cases b with
    | nil => cases hab
    | cons b bs =>
      cases c with
      | nil => cases hbc
      | cons c cs =>
        by_cases h₁ : a = b
        · subst h₁
          rw [less_self] at hab
          by_cases h₂ : a = c
          · subst h₂
            rw [less_self] at hbc ⊢
            exact ih bs cs hab hbc
          · rw [less_of_ne h₂] at hbc ⊢
            exact hbc
        · by_cases h₂ : b = c
          · subst h₂
            rw [less_of_ne h₁] at hab ⊢
            exact hab
          · rw [less_of_ne h₁] at hab
            rw [less_of_ne h₂] at hbc
            have hac : a < c := UInt8.lt_trans (of_decide_eq_true hab) (of_decide_eq_true hbc)
            rw [less_of_ne (UInt8.ne_of_lt hac)]
            exact decide_eq_true hac

theorem less_total (a b : List UInt8) (hab : less a b = false) (hba : less b a = false) :
    a = b := by
  induction a generalizing b with
  | nil =>
    cases b with
    | nil => rfl
    | cons b bs => cases hab
  | cons a as ih =>
    cases b with
    | nil => cases hba
    | cons b bs =>
      by_cases h : a = b
      · subst h
        rw [less_self] at hab hba
        rw [ih bs hab hba]
      · rw [less_of_ne h] at hab
        rw [less_of_ne (Ne.symm h)] at hba
        have hle : b ≤ a := UInt8.not_lt.mp (of_decide_eq_false hab)
        have hle' : a ≤ b := UInt8.not_lt.mp (of_decide_eq_false hba)
        exact absurd (UInt8.le_antisymm hle' hle) h

theorem strict_less : OrderedSet.Strict less := ⟨less_irrefl, less_trans, less_total⟩

/-- A header's name and its value. -/
abbrev Header := List UInt8 × List UInt8

/-- `MapType`. -/
structure HeaderMap where
  entries : List Header
  sorted : OrderedMap.Sorted less caseless entries
  deriving DecidableEq, Repr

namespace HeaderMap

def empty : HeaderMap := ⟨[], List.Pairwise.nil⟩

def put (m : HeaderMap) (key val : List UInt8) : HeaderMap :=
  ⟨OrderedMap.put less caseless key val m.entries, m.sorted.put strict_less⟩

end HeaderMap

structure HttpRequest where
  method : HttpMethod
  path : List UInt8
  version : UInt8
  close : Bool
  query : List UInt8
  fragment : List UInt8
  body : List UInt8
  headers : HeaderMap
  deriving DecidableEq, Repr

namespace HttpRequest

def new : HttpRequest := ⟨.GET, bytes "/", 0x11, true, [], [], [], .empty⟩

/-- `m_headers[key] = val`. -/
def setHeader (req : HttpRequest) (key val : List UInt8) : HttpRequest :=
  { req with headers := req.headers.put key val }

/-- `getHeaderAs<uint64_t>(key, 0)`, on top of the conversion `lexicalCast`. -/
def getHeaderAs (lexicalCast : List UInt8 → Option (BitVec 64)) (req : HttpRequest)
    (key : List UInt8) : BitVec 64 :=
  match OrderedMap.get? caseless (caseless key) req.headers.entries with
  | none => 0
  | some val => (lexicalCast val).getD 0

end HttpRequest
end Http
end TwServer
