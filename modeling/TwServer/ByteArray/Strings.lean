import TwServer.ByteArray.Integers

/-! Length-prefixed strings. The length is cut to the width of its prefix and the
payload is written in full; the reader of an empty payload still looks at the
node it stands on, and there is none at the end of the chain. -/

namespace TwServer
open Programs Program Blocks Runs Octets

namespace ByteArray

/-- The formats of `writeString...`. -/
inductive Format where
  | f16
  | f32
  | f64
  | vint

namespace Format

/-- The bits of the length. -/
def width : Format → Nat
  | f16 => 16
  | f32 => 32
  | f64 | vint => 64

def write : Format → List UInt8 → Program ByteArray Unit
  | f16 => writeStringF16
  | f32 => writeStringF32
  | f64 => writeStringF64
  | vint => writeStringVint

def read : Format → Program ByteArray (List UInt8)
  | f16 => readStringF16
  | f32 => readStringF32
  | f64 => readStringF64
  | vint => readStringVint

/-- `n` strings in a row. -/
def readN (format : Format) : Nat → Program ByteArray (List (List UInt8))
  | 0 => return []
  | n + 1 => do
    let x ← format.read
    let xs ← readN format n
    return x :: xs

/-- The bytes the length `n` is written as. -/
def lengthBytes : Format → Nat → List UInt8
  | f16, n => big 2 (n % 2 ^ 16)
  | f32, n => big 4 (n % 2 ^ 32)
  | f64, n => big 8 (n % 2 ^ 64)
  | vint, n => varint (n % 2 ^ 64)

/-- What the strings hand to `ByteArray::write`, one buffer after the other. -/
def payloads (format : Format) (xs : List (List UInt8)) : List (List UInt8) :=
  xs.flatMap fun x => [format.lengthBytes x.length, x]

def bytes (format : Format) (xs : List (List UInt8)) : List UInt8 := (format.payloads xs).flatten

/-- Writing the strings and reading as many back from the start gives them
again and leaves nothing to read, or a writer throws. -/
def RoundTrips (format : Format) (s : ByteArray) (xs : List (List UInt8)) : Prop :=
  (∃ what t, xs.forM format.write s = .throw what t) ∨
  ∃ s' s'' t, xs.forM format.write s = .ok () s' ∧
    ByteArray.setPosition s.position s' = .ok () s'' ∧
    format.readN xs.length s'' = .ok xs t ∧ t.getReadSize = 0

/-- Every buffer finds room, every length fits its prefix, and an empty string at
the end leaves some room behind it. -/
structure Fits (format : Format) (base r : Nat) (xs : List (List UInt8)) : Prop where
  room : RoomSeq base r ((format.payloads xs).map List.length)
  length : ∀ x ∈ xs, x.length < 2 ^ format.width
  last : xs.getLast? = some [] →
    0 < ((format.payloads xs).map List.length).foldl (remainAfter base) r

/-! ## Writers and readers -/

section
variable {format : Format} {x : List UInt8} {xs : List (List UInt8)}

theorem lengthBytes_ne_nil (format : Format) (n : Nat) : format.lengthBytes n ≠ [] := by
  cases format with
  | f16 => exact big_ne_nil (by decide) _
  | f32 => exact big_ne_nil (by decide) _
  | f64 => exact big_ne_nil (by decide) _
  | vint => exact varint_ne_nil _

theorem bytes_cons (format : Format) (x : List UInt8) (xs : List (List UInt8)) :
    format.bytes (x :: xs) = (format.lengthBytes x.length ++ x) ++ format.bytes xs := by
  simp [bytes, payloads]

theorem bytes_pos (format : Format) (hxs : xs ≠ []) : 0 < (format.bytes xs).length := by
  cases xs with
  | nil => exact absurd rfl hxs
  | cons x xs =>
    have := List.length_pos_iff.mpr (lengthBytes_ne_nil format x.length)
    rw [bytes_cons, List.length_append, List.length_append]
    omega

theorem write_eq (format : Format) (x : List UInt8) :
    format.write x = [format.lengthBytes x.length, x].forM ByteArray.write := by
  rw [forM_two]
  have hprefix : ∀ {m m' : Program ByteArray Unit}, m = m' →
      (do m; ByteArray.write x) = (do m'; ByteArray.write x) := by
    rintro m m' rfl
    rfl
  cases format with
  | f16 => exact hprefix (congrArg ByteArray.write (object_bswap 2 _))
  | f32 => exact hprefix (congrArg ByteArray.write (object_bswap 4 _))
  | f64 => exact hprefix (congrArg ByteArray.write (object_bswap 8 _))
  | vint => exact hprefix (writeVarint_eq (varintLoop_64 _))

theorem forM_write (format : Format) (xs : List (List UInt8)) :
    xs.forM format.write = (format.payloads xs).forM ByteArray.write := by
  induction xs with
  | nil => rfl
  | cons x xs ih =>
    funext s
    show (format.write x >>= fun _ => xs.forM format.write) s =
      (ByteArray.write (format.lengthBytes x.length) >>= fun _ =>
        ByteArray.write x >>= fun _ => (format.payloads xs).forM ByteArray.write) s
    rw [write_eq, forM_two, ih]
    simp only [bind_def, Program.bind]
    cases ByteArray.write (format.lengthBytes x.length) s with
    | ok _ t => rfl
    | throw what t => rfl
    | fault why => rfl

/-- A reader takes a length of its width and then that many bytes. -/
theorem read_eq (format : Format) : ∃ m : Program ByteArray (BitVec format.width),
    format.read = (do ByteArray.read (← m).toNat) ∧ (∀ base, Keeps (WFAt base) m) ∧
      ∀ n, Reads m (format.lengthBytes n) (BitVec.ofNat format.width n) := by
  cases format with
  | f16 =>
    exact ⟨readFuint16, rfl, fun _ => keeps_map (keeps_readObject (wf_kept _) 2) _,
      fun n => reads_bswap (k := 2) (by decide) (BitVec.ofNat 16 n)⟩
  | f32 =>
    exact ⟨readFuint32, rfl, fun _ => keeps_map (keeps_readObject (wf_kept _) 4) _,
      fun n => reads_bswap (k := 4) (by decide) (BitVec.ofNat 32 n)⟩
  | f64 =>
    exact ⟨readFuint64, rfl, fun _ => keeps_map (keeps_readObject (wf_kept _) 8) _,
      fun n => reads_bswap (k := 8) (by decide) (BitVec.ofNat 64 n)⟩
  | vint =>
    exact ⟨readUint64, rfl, fun _ => keeps_readVarintLoop (wf_kept _) 64 10 0 0,
      fun n => reads_readUint64 (BitVec.ofNat 64 n)⟩

end

/-! ## Reading -/

section
variable {format : Format} {s : ByteArray} {x : List UInt8} {xs : List (List UInt8)}

/-- The length has been read; the payload of `x` is next. -/
theorem read_payload (h : WF s) (hnext : Next s (format.lengthBytes x.length))
    (hlen : x.length < 2 ^ format.width) :
    format.read s = ByteArray.read x.length (s.advance (format.lengthBytes x.length).length) := by
  obtain ⟨m, hread, -, hreads⟩ := read_eq format
  rw [hread, bind_ok (hreads x.length s h hnext), BitVec.toNat_ofNat, Nat.mod_eq_of_lt hlen]

theorem read_ok (h : WF s) (hnext : Next s (format.lengthBytes x.length ++ x))
    (hlen : x.length < 2 ^ format.width)
    (hroom : x = [] → s.position + (format.lengthBytes x.length).length < s.capacity) :
    format.read s = .ok x (s.advance (format.lengthBytes x.length ++ x).length) := by
  have hleft := hnext.left
  have hwf := advance_wf h hleft.2
  rw [read_payload h hleft hlen, List.length_append, ← advance_advance]
  cases x with
  | nil =>
    have hzero := (ByteArray.read_zero hwf).trans (if_neg (Nat.ne_of_lt (hroom rfl)))
    exact hzero.trans (congrArg (Outcome.ok []) (advance_zero hwf).symm)
  | cons b bs => exact reads_read (List.cons_ne_nil b bs) _ hwf hnext.right

theorem readN_ok (h : WF s) (hnext : Next s (format.bytes xs))
    (hlen : ∀ x ∈ xs, x.length < 2 ^ format.width)
    (hlast : xs.getLast? = some [] → s.position + (format.bytes xs).length < s.capacity) :
    format.readN xs.length s = .ok xs (s.advance (format.bytes xs).length) := by
  induction xs generalizing s with
  | nil =>
    show Outcome.ok [] s = .ok [] (s.advance 0)
    rw [advance_zero h]
  | cons x xs ih =>
    rw [bytes_cons] at hnext hlast ⊢
    have hleft := hnext.left
    have hend := Nat.le_trans hnext.2 h.size_le
    rw [List.length_append] at hend hlast
    have hread : format.read s = .ok x (s.advance (format.lengthBytes x.length ++ x).length) := by
      refine read_ok h hleft (hlen x List.mem_cons_self) ?_
      rintro rfl
      rw [List.append_nil] at hend hlast
      cases xs with
      | nil =>
        have := hlast rfl
        omega
      | cons y ys =>
        have := bytes_pos format (List.cons_ne_nil y ys)
        omega
    have hrest := ih (advance_wf h hleft.2) hnext.right
      (fun y hy => hlen y (List.mem_cons_of_mem x hy)) (by
        intro hxs
        have hlt := hlast (by rw [List.getLast?_cons, hxs]; rfl)
        exact Nat.lt_of_le_of_lt (Nat.le_of_eq (Nat.add_assoc _ _ _)) hlt)
    have hsum : (format.lengthBytes x.length ++ x ++ format.bytes xs).length =
        (format.lengthBytes x.length ++ x).length + (format.bytes xs).length := List.length_append
    rw [List.length_cons, readN, bind_ok hread, bind_ok hrest, advance_advance, hsum]
    rfl

/-- An empty string at the end of the chain faults. -/
theorem readN_fault (h : WF s) (hnext : Next s (format.bytes xs))
    (hlen : ∀ x ∈ xs, x.length < 2 ^ format.width) (hlast : xs.getLast? = some [])
    (hend : s.position + (format.bytes xs).length = s.capacity) :
    format.readN xs.length s = .fault .nullPointer := by
  induction xs generalizing s with
  | nil => cases hlast
  | cons x xs ih =>
    rw [bytes_cons] at hnext hend
    have hleft := hnext.left
    cases xs with
    | nil =>
      obtain rfl : x = [] := Option.some.inj hlast
      rw [List.append_nil] at hleft
      have hwf := advance_wf h hleft.2
      have hpos : s.position + (format.lengthBytes ([] : List UInt8).length).length =
          s.capacity := by
        simpa [bytes, payloads] using hend
      have hread := read_payload h hleft (hlen [] List.mem_cons_self)
      exact bind_fault (hread.trans ((ByteArray.read_zero hwf).trans (if_pos hpos)))
    | cons y ys =>
      have hmore := bytes_pos format (List.cons_ne_nil y ys)
      rw [List.length_append] at hend
      have hread := read_ok h hleft (hlen x List.mem_cons_self) (by
        rw [List.length_append] at hend
        omega)
      have hrest := ih (advance_wf h hleft.2) hnext.right
        (fun z hz => hlen z (List.mem_cons_of_mem x hz)) hlast
        ((Nat.add_assoc _ _ _).trans hend)
      rw [List.length_cons, readN, bind_ok hread]
      exact bind_fault hrest

/-! ## What a reader can return -/

theorem length_of_read {base n : Nat} {s s' : ByteArray} {bs : List UInt8} (h : WFAt base s)
    (hrun : ByteArray.read n s = .ok bs s') : bs.length = n := by
  rcases Nat.lt_or_ge s.getReadSize n with hshort | hfit
  · rw [read_throws hshort] at hrun
    cases hrun
  · rcases Nat.eq_zero_or_pos n with rfl | hn
    · rw [ByteArray.read_zero h.toWF] at hrun
      split at hrun
      · cases hrun
      · cases hrun
        rfl
    · rw [ByteArray.read_ok h.toWF hn hfit] at hrun
      cases hrun
      apply length_slice
      have := h.length_bytes
      have := h.size_le
      have := h.position_le
      unfold getReadSize at hfit
      omega

theorem lengths_of_readN {base n : Nat} {s t : ByteArray} (h : WFAt base s)
    (hrun : format.readN n s = .ok xs t) : ∀ x ∈ xs, x.length < 2 ^ format.width := by
  induction n generalizing s xs with
  | zero =>
    cases hrun
    intro x hx
    cases hx
  | succ n ih =>
    obtain ⟨x, s₁, hx, hrest⟩ := of_bind_ok hrun
    obtain ⟨ys, s₂, hys, hret⟩ := of_bind_ok hrest
    cases hret
    obtain ⟨m, hread, hkeeps, -⟩ := read_eq format
    rw [hread] at hx
    obtain ⟨v, s₃, hv, hpayload⟩ := of_bind_ok hx
    have hs₃ := hkeeps base s h s₃ (by rw [hv]; rfl)
    have hs₁ := keeps_read v.toNat s₃ hs₃ s₁ (by rw [hpayload]; rfl)
    have hlen : x.length < 2 ^ format.width := by
      rw [length_of_read hs₃ hpayload]
      exact v.isLt
    intro y hy
    rcases List.mem_cons.mp hy with rfl | hy
    · exact hlen
    · exact ih hs₁ hys y hy

end

/-! ## The round trip -/

section
variable {format : Format} {base : Nat} {s : ByteArray} {xs : List (List UInt8)}

/-- The state after the writers, where nothing was to be read before. -/
theorem written_end {s' : ByteArray} {bs : List UInt8} (hend : s.getReadSize = 0) (h : WF s)
    (hw : Written s bs s') : s'.getReadSize = 0 := by
  have hsize := hw.size
  have hpos := hw.position
  have hle := h.position_le
  unfold getReadSize at hend ⊢
  omega

theorem Fits.roundTrips (h : WFAt base s) (hend : s.getReadSize = 0)
    (hfits : format.Fits base s.getRemainCapacity xs) : format.RoundTrips s xs := by
  obtain ⟨s', hrun, hwritten, hremain⟩ := forM_write_written h hfits.room
  obtain ⟨hwf, hset⟩ := hwritten.setPosition
  have hread := readN_ok hwf hwritten.next hfits.length (by
    intro hlast
    have hpos := hfits.last hlast
    have hfull : s'.position = s.position + (format.bytes xs).length := hwritten.position
    rw [← hremain, getRemainCapacity] at hpos
    show s.position + _ < s'.capacity
    omega)
  have hback : (s'.seek s.position).advance (format.bytes xs).length = s' := by
    have hfull : s'.position = s.position + (format.bytes xs).length := hwritten.position
    rw [advance_seek, ← hfull, seek_self hwritten.wf]
  rw [hback] at hread
  exact Or.inr ⟨s', _, s', (format.forM_write xs).symm ▸ hrun, hset, hread,
    written_end hend h.toWF hwritten⟩

theorem RoundTrips.fits (h : WFAt base s) (hrt : format.RoundTrips s xs) :
    format.Fits base s.getRemainCapacity xs := by
  have hcompletes := forM_write_completes h (format.payloads xs)
  rcases hrt with ⟨what, t, hthrow⟩ | ⟨s', s'', t, hw, hset, hread, -⟩
  · rw [forM_write] at hthrow
    rw [hthrow] at hcompletes
    obtain ⟨s', hrun, -⟩ := forM_write_written h (hcompletes.mp rfl)
    rw [hthrow] at hrun
    cases hrun
  · rw [forM_write] at hw
    have hroom := room_of_forM_write h hw
    obtain ⟨t', hrun, hwritten, hremain⟩ := forM_write_written h hroom
    rw [hrun] at hw
    cases hw
    obtain ⟨hwf, hset'⟩ := hwritten.setPosition
    rw [hset'] at hset
    cases hset
    have hlength := lengths_of_readN ⟨hwf, hwritten.baseSize.trans h.base_eq⟩ hread
    refine ⟨hroom, hlength, ?_⟩
    intro hlast
    rw [← hremain, getRemainCapacity]
    have hfull : s'.position = s.position + (format.bytes xs).length := hwritten.position
    rcases Nat.lt_or_ge s'.position s'.capacity with hlt | hge
    · exact Nat.sub_pos_of_lt hlt
    · have hcap := Nat.le_trans hwritten.wf.position_le hwritten.wf.size_le
      have hfault := readN_fault hwf hwritten.next hlength hlast
        (hfull.symm.trans (Nat.le_antisymm hcap hge))
      rw [hfault] at hread
      cases hread

/-- In every state in which nothing is left to read, any list of strings makes
the round trip exactly when every buffer finds room, every length fits its
prefix and an empty string at the end leaves some room behind it. -/
theorem strings_round_trip_iff {heap : Nat → UInt8} (hb : 1 ≤ base)
    (h : Reachable (machine base heap) s) (hend : s.getReadSize = 0) :
    format.RoundTrips s xs ↔ format.Fits base s.getRemainCapacity xs := by
  have hwf : WFAt base s := (machine_inductive hb heap).reachable h
  exact ⟨fun hrt => hrt.fits hwf, fun hfits => hfits.roundTrips hwf hend⟩

end

/-- "a" and the empty string in a fresh array of base 16. -/
theorem strings_round_trip_iff_f16 : f16.RoundTrips (new 16 fun _ => 0) [[97], []] := by
  refine (strings_round_trip_iff (by decide) (Reachable.init (S := machine 16 fun _ => 0) rfl)
    rfl).mpr ⟨⟨by decide, by decide, by decide, by decide, trivial⟩, ?_, fun _ => by decide⟩
  intro x hx
  rcases List.mem_cons.mp hx with rfl | hx
  · decide
  · obtain rfl := List.mem_singleton.mp hx
    decide

/-- In arrays with room for all of it: 65536 bytes are announced as none, and an
empty string whose length ends at the end of the chain is not read back. -/
theorem strings_lost :
    ¬ f16.RoundTrips (new 65538 fun _ => 0) [List.replicate 65536 97] ∧
      ¬ f16.RoundTrips (new 2 fun _ => 0) [[]] := by
  constructor
  · intro hrt
    have hlen := (hrt.fits (new_wf (by decide) _)).length _ List.mem_cons_self
    rw [List.length_replicate] at hlen
    exact absurd hlen (by decide)
  · intro hrt
    have hlast := (hrt.fits (new_wf (by decide) _)).last rfl
    exact absurd hlast (by decide)

end Format
end ByteArray
end TwServer
