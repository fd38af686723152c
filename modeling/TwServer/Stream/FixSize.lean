import Mathlib.Algebra.BigOperators.Group.List.Basic
import Mathlib.Algebra.GroupWithZero.Nat
import TwServer.Lib.Program

/-! The four loops of `Stream` that transfer a fixed size. Each keeps the result of
the underlying call as a `size_t`, where -1 is the largest value and not below 0. -/

namespace TwServer
open Programs Program

/-- The four virtual functions. A `void*` is its offset in the caller's buffer. -/
structure Stream (σ : Type) where
  read : BitVec 64 → BitVec 64 → Program σ Int
  readByteArray : BitVec 64 → Program σ Int
  write : BitVec 64 → BitVec 64 → Program σ Int
  writeByteArray : BitVec 64 → Program σ Int

namespace Stream

/-- A `size_t` where the code returns an `int`. -/
def asInt (n : BitVec 64) : Int := (n.setWidth 32).toInt

/-- The loop; `none` when the fuel is out. `len <= 0` compares a `size_t`. -/
def fixLoop {σ : Type} (io : BitVec 64 → BitVec 64 → Program σ Int) (length : BitVec 64) :
    Nat → BitVec 64 → BitVec 64 → Program σ (Option Int)
  | 0, _, _ => return none
  | fuel + 1, offset, left =>
    if left > 0 then do
      let len := BitVec.ofInt 64 (← io offset left)
      if len ≤ 0 then return some (asInt len)
      else fixLoop io length fuel (offset + len) (left - len)
    else return some (asInt length)

section
variable {σ : Type} (stream : Stream σ) (length : BitVec 64) (fuel : Nat)

def readFixSize : Program σ (Option Int) := fixLoop stream.read length fuel 0 length

/-- Without an offset: the byte array has its position. -/
def readFixSizeByteArray : Program σ (Option Int) :=
  fixLoop (fun _ => stream.readByteArray) length fuel 0 length

def writeFixSize : Program σ (Option Int) := fixLoop stream.write length fuel 0 length

def writeFixSizeByteArray : Program σ (Option Int) :=
  fixLoop (fun _ => stream.writeByteArray) length fuel 0 length

end

/-! ## One round -/

section
variable {σ : Type} {io : BitVec 64 → BitVec 64 → Program σ Int} {length : BitVec 64} {fuel : Nat}
  {offset left : BitVec 64} {s s' : σ} {rt : Int}

theorem fixLoop_done : fixLoop io length (fuel + 1) offset 0 s = .ok (some (asInt length)) s := rfl

theorem fixLoop_step (hleft : left ≠ 0) (hrt : BitVec.ofInt 64 rt ≠ 0)
    (h : io offset left s = .ok rt s') :
    fixLoop io length (fuel + 1) offset left s =
      fixLoop io length fuel (offset + BitVec.ofInt 64 rt) (left - BitVec.ofInt 64 rt) s' := by
  have hpos : left > 0 := (BitVec.pos_iff_ne_zero left).mpr hleft
  have hlen : ¬ BitVec.ofInt 64 rt ≤ 0 := mt BitVec.le_zero_iff.mp hrt
  rw [fixLoop, if_pos hpos, bind_ok h, if_neg hlen]

theorem fixLoop_stop (hleft : left ≠ 0) (hrt : BitVec.ofInt 64 rt = 0)
    (h : io offset left s = .ok rt s') :
    fixLoop io length (fuel + 1) offset left s = .ok (some 0) s' := by
  have hpos : left > 0 := (BitVec.pos_iff_ne_zero left).mpr hleft
  rw [fixLoop, if_pos hpos, bind_ok h, hrt]
  rfl

end

theorem asInt_ofNat {n : Nat} (h : n < 2 ^ 31) : asInt (BitVec.ofNat 64 n) = n := by
  rw [asInt, BitVec.toInt_eq_toNat_of_lt]
  · rw [BitVec.toNat_setWidth, BitVec.toNat_ofNat, Nat.mod_mod_of_dvd _ (by decide),
      Nat.mod_eq_of_lt (by omega)]
  · rw [BitVec.toNat_setWidth, BitVec.toNat_ofNat, Nat.mod_mod_of_dvd _ (by decide),
      Nat.mod_eq_of_lt (by omega)]
    omega

/-! ## What the underlying calls answer -/

/-- The other side of the underlying calls: the result of the `n`-th, asked for `size`
bytes. A result is an `int`. -/
structure Peer where
  answer : Nat → BitVec 64 → Int
  fails : ∀ n size, -1 ≤ answer n size
  le_size : ∀ n size, answer n size ≤ size.toNat
  fits : ∀ n size, answer n size < 2 ^ 31

structure Call where
  offset : BitVec 64
  size : BitVec 64
  result : Int
  deriving DecidableEq, Repr

/-- The bytes that some calls transferred. -/
def moved (calls : List Call) : Nat := (calls.map (·.result.toNat)).sum

@[simp] theorem moved_nil : moved [] = 0 := rfl

@[simp] theorem moved_cons (c : Call) (calls : List Call) :
    moved (c :: calls) = c.result.toNat + moved calls := List.sum_cons

@[simp] theorem moved_append (calls more : List Call) :
    moved (calls ++ more) = moved calls + moved more := by
  rw [moved, List.map_append, List.sum_append]
  rfl

namespace Peer
variable (peer : Peer)

/-- A call on a part of a buffer. -/
def buffer (offset size : BitVec 64) : Program (List Call) Int := fun calls =>
  let rt := peer.answer calls.length size
  .ok rt (calls ++ [⟨offset, size, rt⟩])

/-- A call on a byte array, which each transfer moves on. -/
def byteArray (size : BitVec 64) : Program (List Call) Int := fun calls =>
  peer.buffer (BitVec.ofNat 64 (moved calls)) size calls

def stream : Stream (List Call) := ⟨peer.buffer, peer.byteArray, peer.buffer, peer.byteArray⟩

/-- The results from the `n`-th on for a caller who asks for the `left` bytes that are
missing until they are there or a result is not positive. -/
def results (n left : Nat) : List Int :=
  if _ : left = 0 then []
  else if _ : 0 < peer.answer n (BitVec.ofNat 64 left) then
    peer.answer n (BitVec.ofNat 64 left) ::
      results (n + 1) (left - (peer.answer n (BitVec.ofNat 64 left)).toNat)
  else [peer.answer n (BitVec.ofNat 64 left)]
termination_by left
decreasing_by omega

theorem of_mem_results {n left : Nat} {rt : Int} (h : rt ∈ peer.results n left) :
    ∃ n size, peer.answer n size = rt := by
  induction n, left using results.induct peer with
  | case1 n =>
    rw [results, dif_pos rfl] at h
    cases h
  | case2 n left hleft hrt ih =>
    rw [results, dif_neg hleft, dif_pos hrt] at h
    rcases List.mem_cons.mp h with rfl | h
    · exact ⟨n, _, rfl⟩
    · exact ih h
  | case3 n left hleft hrt =>
    rw [results, dif_neg hleft, dif_neg hrt] at h
    exact ⟨n, _, (List.mem_singleton.mp h).symm⟩

/-- A peer that never fails. -/
theorem error_not_mem {n left : Nat} (h : ∀ n size, 0 ≤ peer.answer n size) :
    -1 ∉ peer.results n left := by
  intro herror
  obtain ⟨m, size, hrt⟩ := peer.of_mem_results herror
  have hge := h m size
  omega

end Peer

/-! ## What a transfer owes its caller -/

/-- The calls ask for parts of `[0, length)`, the first of them at `start` and each
other one where the one before it stopped. -/
def Contiguous (length : Nat) : Nat → List Call → Prop
  | _, [] => True
  | start, c :: calls => c.offset.toNat = start ∧ start + c.size.toNat ≤ length ∧
      Contiguous length (start + c.result.toNat) calls

/-- The calls that end a transfer of `length` bytes of which `start` are there. -/
structure Lawful (length start : Nat) (calls : List Call) (rt : Int) : Prop where
  contiguous : Contiguous length start calls
  whole : rt = length ↔ start + moved calls = length
  stops : ∀ c ∈ calls.dropLast, 0 < c.result
  fails : ∀ c ∈ calls.getLast?, c.result ≤ 0 → rt ≤ 0

/-- The transfer ends, and its calls and its result are as they should be. -/
def Obeys (length : BitVec 64) (transfer : Nat → Program (List Call) (Option Int)) : Prop :=
  ∃ fuel rt calls, transfer fuel [] = .ok (some rt) calls ∧ Lawful length.toNat 0 calls rt

theorem Lawful.nil (length : Nat) : Lawful length length [] length where
  contiguous := trivial
  whole := by simp
  stops := by simp
  fails := by simp

theorem Lawful.ended {length start : Nat} {c : Call} (hoffset : c.offset.toNat = start)
    (hsize : start + c.size.toNat = length) (hpos : 0 < c.size.toNat) (hrt : c.result = 0) :
    Lawful length start [c] 0 where
  contiguous := ⟨hoffset, Nat.le_of_eq hsize, trivial⟩
  whole := by
    rw [moved_cons, hrt]
    simp
    omega
  stops := by simp
  fails := fun _ _ _ => Int.le_refl 0

theorem Lawful.cons {length start : Nat} {c : Call} {calls : List Call} {rt : Int}
    (hoffset : c.offset.toNat = start) (hsize : start + c.size.toNat = length)
    (hrt : 0 < c.result) (h : Lawful length (start + c.result.toNat) calls rt) :
    Lawful length start (c :: calls) rt where
  contiguous := ⟨hoffset, Nat.le_of_eq hsize, h.contiguous⟩
  whole := by
    rw [h.whole, moved_cons, Nat.add_assoc]
  stops := by
    intro d hd
    cases calls with
    | nil => cases hd
    | cons e calls =>
      rcases List.mem_cons.mp hd with rfl | hd
      · exact hrt
      · exact h.stops d hd
  fails := by
    intro d hd
    cases calls with
    | nil =>
      cases hd
      exact fun hle => absurd hrt (Int.not_lt.mpr hle)
    | cons e calls =>
      rw [List.getLast?_cons_cons] at hd
      exact h.fails d hd

/-! ## A transfer without an error -/

/-- The call is answered by the peer; where the offset is what the calls before it
transferred, it is on that part. -/
structure Answers (peer : Peer) (io : BitVec 64 → BitVec 64 → Program (List Call) Int) : Prop where
  logs : ∀ offset size calls, ∃ c : Call, c.result = peer.answer calls.length size ∧
    io offset size calls = .ok c.result (calls ++ [c])
  here : ∀ size calls, io (BitVec.ofNat 64 (moved calls)) size calls =
    peer.buffer (BitVec.ofNat 64 (moved calls)) size calls

theorem answers_buffer (peer : Peer) : Answers peer peer.buffer where
  logs offset size _ := ⟨⟨offset, size, _⟩, rfl, rfl⟩
  here _ _ := rfl

theorem answers_byteArray (peer : Peer) : Answers peer fun _ => peer.byteArray where
  logs _ size calls := ⟨⟨BitVec.ofNat 64 (moved calls), size, _⟩, rfl, rfl⟩
  here _ _ := rfl

theorem ofInt_toNat {rt : Int} (h : 0 ≤ rt) : BitVec.ofInt 64 rt = BitVec.ofNat 64 rt.toNat := by
  obtain ⟨n, rfl⟩ := Int.eq_ofNat_of_zero_le h
  exact BitVec.ofInt_natCast 64 n

theorem ofNat_ne_zero {n : Nat} (h : n ≠ 0) (hfit : n < 2 ^ 64) : BitVec.ofNat 64 n ≠ 0 := by
  intro hzero
  have hn := congrArg BitVec.toNat hzero
  rw [BitVec.toNat_ofNat, Nat.mod_eq_of_lt hfit] at hn
  exact h hn

theorem ofNat_sub {m n : Nat} (h : m ≤ n) :
    BitVec.ofNat 64 n - BitVec.ofNat 64 m = BitVec.ofNat 64 (n - m) := by
  rw [BitVec.sub_eq_iff_eq_add, ← BitVec.ofNat_add, Nat.sub_add_cancel h]

/-- A `left -= len` with -1 in `len`. -/
theorem ofNat_sub_error (n : Nat) :
    BitVec.ofNat 64 n - BitVec.ofInt 64 (-1) = BitVec.ofNat 64 (n + 1) := by
  rw [BitVec.ofNat_add, BitVec.sub_eq_add_neg]
  rfl

theorem toNat_ofNat_fit {n : Nat} (h : n < 2 ^ 31) : (BitVec.ofNat 64 n).toNat = n := by
  rw [BitVec.toNat_ofNat, Nat.mod_eq_of_lt (by omega)]

/-- The next call of a transfer of which `left` bytes are missing. -/
def Peer.next (peer : Peer) (calls : List Call) (left : Nat) : Call where
  offset := BitVec.ofNat 64 (moved calls)
  size := BitVec.ofNat 64 left
  result := peer.answer calls.length (BitVec.ofNat 64 left)

section
variable {peer : Peer} {io : BitVec 64 → BitVec 64 → Program (List Call) Int} {length : Nat}
  {left : Nat} {calls : List Call}

theorem next_le (h : left < 2 ^ 31) : (peer.next calls left).result.toNat ≤ left := by
  have hle := peer.le_size calls.length (BitVec.ofNat 64 left)
  rw [toNat_ofNat_fit h] at hle
  exact Int.toNat_le.mpr hle

theorem io_next (h : Answers peer io) :
    io (BitVec.ofNat 64 (moved calls)) (BitVec.ofNat 64 left) calls =
      .ok (peer.next calls left).result (calls ++ [peer.next calls left]) :=
  h.here (BitVec.ofNat 64 left) calls

/-- A round with a positive result leaves the loop where that many more bytes are there. -/
theorem fixLoop_moves (h : Answers peer io) (hfit : left < 2 ^ 31)
    (hpos : 0 < (peer.next calls left).result) (fuel : Nat) :
    fixLoop io (BitVec.ofNat 64 length) (fuel + 1) (BitVec.ofNat 64 (moved calls))
        (BitVec.ofNat 64 left) calls =
      fixLoop io (BitVec.ofNat 64 length) fuel
        (BitVec.ofNat 64 (moved (calls ++ [peer.next calls left])))
        (BitVec.ofNat 64 (left - (peer.next calls left).result.toNat))
        (calls ++ [peer.next calls left]) := by
  have hle : (peer.next calls left).result.toNat ≤ left := next_le hfit
  have hofInt := ofInt_toNat (Int.le_of_lt hpos)
  have hlen : BitVec.ofInt 64 (peer.next calls left).result ≠ 0 := by
    rw [hofInt]
    exact ofNat_ne_zero (by omega) (by omega)
  rw [fixLoop_step (ofNat_ne_zero (by omega) (by omega)) hlen (io_next h), hofInt, ← BitVec.ofNat_add,
    ofNat_sub hle, moved_append, moved_cons, moved_nil, Nat.add_zero]

theorem fixLoop_lawful (h : Answers peer io) (hfit : length < 2 ^ 31) {n : Nat}
    (herror : -1 ∉ peer.results n left) (hn : calls.length = n)
    (hsum : moved calls + left = length) :
    ∃ fuel rt more, fixLoop io (BitVec.ofNat 64 length) fuel (BitVec.ofNat 64 (moved calls))
        (BitVec.ofNat 64 left) calls = .ok (some rt) (calls ++ more) ∧
      Lawful length (moved calls) more rt := by
  induction n, left using Peer.results.induct peer generalizing calls with
  | case1 n =>
    refine ⟨1, length, [], ?_, ?_⟩
    · rw [List.append_nil, ← asInt_ofNat hfit]
      exact fixLoop_done
    · rw [show moved calls = length from hsum]
      exact Lawful.nil length
  | case2 n left hleft hrt ih =>
    subst hn
    rw [Peer.results, dif_neg hleft, dif_pos hrt, List.mem_cons, not_or] at herror
    have hlt : left < 2 ^ 31 := by omega
    have hle : (peer.next calls left).result.toNat ≤ left := next_le hlt
    have hmoved : moved (calls ++ [peer.next calls left]) =
        moved calls + (peer.next calls left).result.toNat := by simp
    have hsum' : moved (calls ++ [peer.next calls left]) +
        (left - (peer.next calls left).result.toNat) = length := by
      omega
    obtain ⟨fuel, rt, more, hrun, hlaw⟩ := ih herror.2 (by simp) hsum'
    refine ⟨fuel + 1, rt, peer.next calls left :: more, ?_, ?_⟩
    · rw [List.append_cons]
      exact (fixLoop_moves h hlt hrt fuel).trans hrun
    · rw [hmoved] at hlaw
      refine Lawful.cons (toNat_ofNat_fit (by omega)) ?_ hrt hlaw
      exact (congrArg (_ + ·) (toNat_ofNat_fit hlt)).trans hsum
  | case3 n left hleft hrt =>
    subst hn
    rw [Peer.results, dif_neg hleft, dif_neg hrt, List.mem_singleton] at herror
    have hlt : left < 2 ^ 31 := by omega
    have hge := peer.fails calls.length (BitVec.ofNat 64 left)
    have hzero : (peer.next calls left).result = 0 := by
      show peer.answer calls.length (BitVec.ofNat 64 left) = 0
      omega
    have hlen : BitVec.ofInt 64 (peer.next calls left).result = 0 := by
      rw [hzero]
      rfl
    refine ⟨1, 0, [peer.next calls left],
      fixLoop_stop (ofNat_ne_zero hleft (by omega)) hlen (io_next h), ?_⟩
    refine Lawful.ended (toNat_ofNat_fit (by omega)) ?_ ?_ hzero
    · exact (congrArg (_ + ·) (toNat_ofNat_fit hlt)).trans hsum
    · exact Nat.lt_of_lt_of_eq (Nat.pos_of_ne_zero hleft) (toNat_ofNat_fit hlt).symm

/-! ## A transfer with an error -/

/-- A loop only adds to the calls, and with bytes left it adds one. -/
theorem fixLoop_logs (h : Answers peer io) {length offset left : BitVec 64} {fuel : Nat} {rt : Int}
    {calls calls' : List Call}
    (hrun : fixLoop io length fuel offset left calls = .ok (some rt) calls') :
    ∃ more, calls' = calls ++ more ∧ (left ≠ 0 → more ≠ []) := by
  induction fuel generalizing offset left calls with
  | zero => cases hrun
  | succ fuel ih =>
    by_cases hleft : left = 0
    · rw [hleft, fixLoop_done] at hrun
      cases hrun
      exact ⟨[], (List.append_nil _).symm, absurd hleft⟩
    · obtain ⟨c, -, hio⟩ := h.logs offset left calls
      by_cases hlen : BitVec.ofInt 64 c.result = 0
      · rw [fixLoop_stop hleft hlen hio] at hrun
        cases hrun
        exact ⟨[c], rfl, fun _ => List.cons_ne_nil c []⟩
      · rw [fixLoop_step hleft hlen hio] at hrun
        obtain ⟨more, rfl, -⟩ := ih hrun
        exact ⟨c :: more, (List.append_cons calls c more).symm, fun _ => List.cons_ne_nil c more⟩

/-- After an error one more byte is missing, and the loop calls again. -/
theorem fixLoop_error (h : Answers peer io) (hfit : left < 2 ^ 31) {n : Nat}
    (herror : -1 ∈ peer.results n left) (hn : calls.length = n) {fuel : Nat} {rt : Int}
    {calls' : List Call}
    (hrun : fixLoop io (BitVec.ofNat 64 length) fuel (BitVec.ofNat 64 (moved calls))
      (BitVec.ofNat 64 left) calls = .ok (some rt) calls') :
    ∃ c ∈ calls'.dropLast, c.result = -1 := by
  induction n, left using Peer.results.induct peer generalizing calls fuel with
  | case1 n =>
    rw [Peer.results, dif_pos rfl] at herror
    cases herror
  | case2 n left hleft hrt ih =>
    subst hn
    rw [Peer.results, dif_neg hleft, dif_pos hrt, List.mem_cons] at herror
    have hrest := herror.resolve_left (by omega)
    cases fuel with
    | zero => cases hrun
    | succ fuel =>
      rw [fixLoop_moves h hfit hrt] at hrun
      exact ih (by omega) hrest (by simp) hrun
  | case3 n left hleft hrt =>
    subst hn
    rw [Peer.results, dif_neg hleft, dif_neg hrt, List.mem_singleton] at herror
    have hresult : (peer.next calls left).result = -1 := herror.symm
    have hlen : BitVec.ofInt 64 (peer.next calls left).result ≠ 0 := by
      rw [hresult]
      decide
    cases fuel with
    | zero => cases hrun
    | succ fuel =>
      rw [fixLoop_step (ofNat_ne_zero hleft (by omega)) hlen (io_next h), hresult,
        ofNat_sub_error] at hrun
      obtain ⟨more, rfl, hmore⟩ := fixLoop_logs h hrun
      refine ⟨peer.next calls left, ?_, hresult⟩
      rw [List.dropLast_append_of_ne_nil (hmore (ofNat_ne_zero (by omega) (by omega)))]
      simp

theorem obeys_iff (h : Answers peer io) (hfit : length < 2 ^ 31) :
    Obeys (BitVec.ofNat 64 length)
        (fun fuel => fixLoop io (BitVec.ofNat 64 length) fuel 0 (BitVec.ofNat 64 length)) ↔
      -1 ∉ peer.results 0 length := by
  constructor
  · rintro ⟨fuel, rt, calls, hrun, hlaw⟩ herror
    obtain ⟨c, hc, hresult⟩ := fixLoop_error h hfit herror
      (List.length_nil : ([] : List Call).length = 0) hrun
    have := hlaw.stops c hc
    omega
  · intro herror
    obtain ⟨fuel, rt, calls, hrun, hlaw⟩ :=
      fixLoop_lawful h hfit herror (List.length_nil : ([] : List Call).length = 0) (Nat.zero_add length)
    refine ⟨fuel, rt, calls, hrun, ?_⟩
    rw [toNat_ofNat_fit hfit]
    exact hlaw

end

/-- Each of the four transfers obeys the results of the underlying calls exactly where
these do not answer -1 before it is complete or at the end of the stream. -/
theorem fixSize_iff (peer : Peer) (length : Nat) (h : length < 2 ^ 31) :
    (Obeys (BitVec.ofNat 64 length) (peer.stream.readFixSize (BitVec.ofNat 64 length)) ↔
      -1 ∉ peer.results 0 length) ∧
    (Obeys (BitVec.ofNat 64 length) (peer.stream.readFixSizeByteArray (BitVec.ofNat 64 length)) ↔
      -1 ∉ peer.results 0 length) ∧
    (Obeys (BitVec.ofNat 64 length) (peer.stream.writeFixSize (BitVec.ofNat 64 length)) ↔
      -1 ∉ peer.results 0 length) ∧
    (Obeys (BitVec.ofNat 64 length) (peer.stream.writeFixSizeByteArray (BitVec.ofNat 64 length)) ↔
      -1 ∉ peer.results 0 length) :=
  ⟨obeys_iff (answers_buffer peer) h, obeys_iff (answers_byteArray peer) h,
    obeys_iff (answers_buffer peer) h, obeys_iff (answers_byteArray peer) h⟩

/-- At most four bytes a call. -/
def slow : Peer where
  answer _ size := min 4 size.toNat
  fails := by omega
  le_size := by omega
  fits := by omega

theorem fixSize_iff_slow : Obeys 10 (slow.stream.readFixSize 10) :=
  (fixSize_iff slow 10 (by decide)).1.mpr
    (slow.error_not_mem fun _ size => Int.le_min.mpr ⟨by decide, Int.natCast_nonneg _⟩)

/-- The first call fails, the others transfer all they are asked for. -/
def interrupted : Peer where
  answer n size := if n = 0 then -1 else min (2 ^ 31 - 1) size.toNat
  fails n size := by split <;> omega
  le_size n size := by split <;> omega
  fits n size := by split <;> omega

/-- After the error the loop asks for two bytes in front of the one-byte buffer, and the
transfer counts as complete. -/
theorem error_goes_on :
    interrupted.stream.readFixSize 1 3 [] = .ok (some 1) [⟨0, 1, -1⟩, ⟨-1, 2, 2⟩] ∧
      ¬ Obeys 1 (interrupted.stream.readFixSize 1) := by
  constructor
  · rfl
  · intro h
    exact (obeys_iff (answers_buffer interrupted) (by decide)).mp h
      (by simp [Peer.results, interrupted])

end Stream
end TwServer
