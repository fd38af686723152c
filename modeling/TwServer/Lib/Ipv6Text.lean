import TwServer.Lib.Numerals
import Mathlib.Data.List.Basic

/-! The text of an IPv6 address (RFC 4291, section 2.2): pieces of one to four hexadecimal
digits between colons, `::` in place of one or more zero pieces, and four decimal values in
place of the last two pieces. -/

namespace Ipv6Text
open Numerals

/-! ## Reading -/

def piece (text : List Char) : Option (List (BitVec 16)) :=
  if 0 < text.length ∧ text.length ≤ 4 then (value 16 text).map fun n => [BitVec.ofNat 16 n]
  else none

def decimalByte (text : List Char) : Option (BitVec 8) := do
  let n ← value 10 text
  if 0 < text.length ∧ text.length ≤ 3 ∧ n < 256 then some (BitVec.ofNat 8 n) else none

/-- `d.d.d.d`. -/
def dotted (text : List Char) : Option (List (BitVec 16)) :=
  match text.splitOn '.' with
  | [a, b, c, d] => do
    return [(← decimalByte a) ++ (← decimalByte b), (← decimalByte c) ++ (← decimalByte d)]
  | _ => none

/-- Pieces one after the other; the last may be dotted if nothing follows. -/
def pieces (final : Bool) : List (List Char) → Option (List (BitVec 16))
  | [] => some []
  | [text] => (piece text).orElse fun _ => if final then dotted text else none
  | text :: rest => do return (← piece text) ++ (← pieces final rest)

/-- What stands in front of `::` or behind it. -/
def side (final : Bool) (text : List Char) : Option (List (BitVec 16)) :=
  if text = [] then some [] else pieces final (text.splitOn ':')

/-- Cut at the first `::`. -/
def cutGap : List Char → Option (List Char × List Char)
  | [] => none
  | c :: text =>
    if c = ':' ∧ text.head? = some ':' then some ([], text.tail)
    else (cutGap text).map fun cut => (c :: cut.1, cut.2)

/-- The eight groups of an address. -/
def parse (text : List Char) : Option (List (BitVec 16)) :=
  match cutGap text with
  | none => (side true text).filter fun groups => groups.length = 8
  | some (front, back) => do
    let pre ← side false front
    let post ← side true back
    if pre.length + post.length < 8 then
      some (pre ++ List.replicate (8 - (pre.length + post.length)) 0 ++ post)
    else none

/-- `[address]:port`. -/
def parseEndpoint : List Char → Option (List (BitVec 16) × Nat)
  | '[' :: text =>
    match text.dropWhile (· ≠ ']') with
    | ']' :: ':' :: port => do return (← parse (text.takeWhile (· ≠ ']')), ← value 10 port)
    | _ => none
  | _ => none

/-- How many `::` there are, overlapping ones counted apart. -/
def gaps : List Char → Nat
  | [] => 0
  | c :: text => (if c = ':' ∧ text.head? = some ':' then 1 else 0) + gaps text

/-! ## Writing -/

/-- A group without leading zeros. -/
def group (g : BitVec 16) : List Char := Nat.toDigits 16 g.toNat

def join (gs : List (BitVec 16)) : List Char := [':'].intercalate (gs.map group)

theorem join_cons {g : BitVec 16} {gs : List (BitVec 16)} (h : gs ≠ []) :
    join (g :: gs) = group g ++ ':' :: join gs := by
  rw [join, List.map_cons, List.intercalate_cons_of_ne_nil (by simpa using h)]
  simp [join]

theorem join_concat {gs : List (BitVec 16)} {g : BitVec 16} (h : gs ≠ []) :
    join (gs ++ [g]) = join gs ++ ':' :: group g := by
  induction gs with
  | nil => exact absurd rfl h
  | cons g' gs ih =>
    by_cases hgs : gs = []
    · subst hgs
      simp [join]
    · rw [List.cons_append, join_cons (by simp), ih hgs, join_cons hgs]
      simp

theorem not_mem_group {mark : Char} (hmark : digitValue mark = none) (g : BitVec 16) :
    mark ∉ group g :=
  not_mem_toDigits (by decide) (by decide) hmark _

theorem group_ne_nil (g : BitVec 16) : group g ≠ [] := Nat.toDigits_ne_nil

theorem join_ne_nil {gs : List (BitVec 16)} (h : gs ≠ []) : join gs ≠ [] := by
  obtain ⟨g, gs, rfl⟩ := List.exists_cons_of_ne_nil h
  by_cases hgs : gs = []
  · subst hgs
    simpa [join] using group_ne_nil g
  · rw [join_cons hgs]
    simp

/-- A text of groups does not start with a colon. -/
theorem head_join (gs : List (BitVec 16)) : (join gs).head? ≠ some ':' := by
  have hgroup (g : BitVec 16) (t : List Char) : (group g ++ t).head? ≠ some ':' := by
    rw [List.head?_append_of_ne_nil _ (group_ne_nil g)]
    exact fun h => not_mem_group (by decide) g (List.mem_of_mem_head? h)
  cases gs with
  | nil => simp [join]
  | cons g gs =>
    by_cases hgs : gs = []
    · subst hgs
      simpa [join] using hgroup g []
    · rw [join_cons hgs]
      exact hgroup g _

/-- A mark that is neither a digit nor the colon is not in it. -/
theorem not_mem_join {mark : Char} (hmark : digitValue mark = none) (hcolon : mark ≠ ':')
    (gs : List (BitVec 16)) : mark ∉ join gs := by
  induction gs with
  | nil => simp [join]
  | cons g gs ih =>
    by_cases hgs : gs = []
    · subst hgs
      simpa [join] using not_mem_group hmark g
    · rw [join_cons hgs]
      simp [not_mem_group hmark g, hcolon, ih]

/-! ## Groups read back -/

theorem piece_group (g : BitVec 16) : piece (group g) = some [g] := by
  have hlength : 0 < (group g).length ∧ (group g).length ≤ 4 :=
    ⟨Nat.length_toDigits_pos, (Nat.length_toDigits_le_iff (by decide) (by decide)).mpr g.isLt⟩
  rw [piece, if_pos hlength, group, value_toDigits (by decide) (by decide)]
  simp

theorem pieces_group (final : Bool) (gs : List (BitVec 16)) :
    pieces final (gs.map group) = some gs := by
  induction gs with
  | nil => rfl
  | cons g gs ih =>
    cases gs with
    | nil => simp [pieces, piece_group]
    | cons g' gs =>
      rw [List.map_cons] at ih
      simp [pieces, piece_group, ih]

theorem side_join (final : Bool) (gs : List (BitVec 16)) : side final (join gs) = some gs := by
  by_cases hgs : gs = []
  · subst hgs
    rfl
  · have hcolon : ∀ text ∈ gs.map group, ':' ∉ text := by
      intro text htext
      obtain ⟨g, -, rfl⟩ := List.mem_map.mp htext
      exact not_mem_group (by decide) g
    rw [side, if_neg (join_ne_nil hgs), join, List.splitOn_intercalate ':' hcolon (by simpa using hgs),
      pieces_group]

/-! ## The gap -/

/-- A colon in front of a group opens no gap. -/
theorem no_gap_at_join {gs : List (BitVec 16)} (h : gs ≠ []) (t : List Char) :
    ¬ (':' = ':' ∧ (join gs ++ t).head? = some ':') := by
  rw [List.head?_append_of_ne_nil _ (join_ne_nil h)]
  exact fun hc => head_join gs hc.2

theorem cutGap_append {w : List Char} (h : ':' ∉ w) (t : List Char) :
    cutGap (w ++ t) = (cutGap t).map fun cut => (w ++ cut.1, cut.2) := by
  induction w with
  | nil => simp
  | cons c w ih =>
    have hc : ¬ (c = ':' ∧ (w ++ t).head? = some ':') :=
      fun hc => h (hc.1 ▸ List.mem_cons_self)
    rw [List.cons_append, cutGap, if_neg hc, ih fun hmem => h (List.mem_cons_of_mem _ hmem),
      Option.map_map]
    rfl

theorem cutGap_join (gs : List (BitVec 16)) (t : List Char) :
    cutGap (join gs ++ t) = (cutGap t).map fun cut => (join gs ++ cut.1, cut.2) := by
  induction gs with
  | nil => simp [join]
  | cons g gs ih =>
    by_cases hgs : gs = []
    · subst hgs
      simpa [join] using cutGap_append (not_mem_group (by decide) g) t
    · rw [join_cons hgs, List.append_assoc, List.cons_append,
        cutGap_append (not_mem_group (by decide) g), cutGap, if_neg (no_gap_at_join hgs t), ih,
        Option.map_map, Option.map_map]
      simp [Function.comp_def]

theorem gaps_append {w : List Char} (h : ':' ∉ w) (t : List Char) : gaps (w ++ t) = gaps t := by
  induction w with
  | nil => rfl
  | cons c w ih =>
    have hc : ¬ (c = ':' ∧ (w ++ t).head? = some ':') :=
      fun hc => h (hc.1 ▸ List.mem_cons_self)
    rw [List.cons_append, gaps, if_neg hc, Nat.zero_add, ih fun hmem => h (List.mem_cons_of_mem _ hmem)]

theorem gaps_join (gs : List (BitVec 16)) (t : List Char) : gaps (join gs ++ t) = gaps t := by
  induction gs with
  | nil => rfl
  | cons g gs ih =>
    by_cases hgs : gs = []
    · subst hgs
      simpa [join] using gaps_append (not_mem_group (by decide) g) t
    · rw [join_cons hgs, List.append_assoc, List.cons_append,
        gaps_append (not_mem_group (by decide) g), gaps, if_neg (no_gap_at_join hgs t),
        Nat.zero_add, ih]

/-! ## Both forms -/

/-- A text of the grammar without brackets, what it stands for, and at most one `::`. -/
structure Writes (text : List Char) (groups : List (BitVec 16)) : Prop where
  parse : parse text = some groups
  gaps_le : gaps text ≤ 1
  closed : ']' ∉ text

theorem writes_full {gs : List (BitVec 16)} (h : gs.length = 8) : Writes (join gs) gs := by
  have hcut := cutGap_join gs []
  have hgaps := gaps_join gs []
  rw [List.append_nil] at hcut hgaps
  refine ⟨?_, ?_, not_mem_join (by decide) (by decide) gs⟩
  · rw [parse, hcut, cutGap, Option.map_none]
    simp [side_join, h]
  · rw [hgaps]
    decide

theorem writes_compressed {pre post : List (BitVec 16)} {k : Nat} (hk : 0 < k)
    (h : (pre ++ List.replicate k 0 ++ post).length = 8) :
    Writes (join pre ++ ':' :: ':' :: join post) (pre ++ List.replicate k 0 ++ post) := by
  have hlength : pre.length + (k + post.length) = 8 := by simpa using h
  refine ⟨?_, ?_, ?_⟩
  · have hfit : pre.length + post.length < 8 := by omega
    have hk : 8 - (pre.length + post.length) = k := by omega
    rw [parse, cutGap_join, cutGap, if_pos ⟨rfl, rfl⟩]
    simp [side_join, hfit, hk]
  · have hgap : gaps (':' :: join post) = 0 := by
      have hpost := gaps_join post []
      rw [List.append_nil] at hpost
      rw [gaps, hpost, if_neg fun hc => head_join post hc.2]
      rfl
    rw [gaps_join, gaps, hgap, if_pos ⟨rfl, rfl⟩]
  · have hclosed (gs : List (BitVec 16)) : ']' ∉ join gs := not_mem_join (by decide) (by decide) gs
    simp [hclosed pre, hclosed post]

/-- The address and the port of a text in brackets. -/
theorem Writes.endpoint {text : List Char} {groups : List (BitVec 16)} (h : Writes text groups)
    (port : Nat) :
    parseEndpoint ('[' :: text ++ ']' :: ':' :: Nat.toDigits 10 port) = some (groups, port) := by
  have hclosed : ∀ c ∈ text, decide (c ≠ ']') = true :=
    fun c hc => decide_eq_true fun heq => h.closed (heq ▸ hc)
  rw [List.cons_append, parseEndpoint, List.dropWhile_append_of_pos hclosed,
    List.takeWhile_append_of_pos hclosed]
  simp [h.parse, value_toDigits]

end Ipv6Text
