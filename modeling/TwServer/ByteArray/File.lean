import TwServer.ByteArray.Segments

/-! `writeToFile` and `readFromFile` behind the open. The loop of the first takes its
`diff` off a clamped size and goes to the next node in any case; the loop of the
second ends at the end of the file and at nothing else. -/

namespace TwServer
open Programs Program Blocks Runs

namespace ByteArray

/-! ## `writeToFile` -/

/-- `ofs.write(cur->ptr + offset, len)`. -/
structure Chunk where
  node : Nat
  offset : Int
  len : Int
  deriving DecidableEq, Repr

/-- `int diff = pos % m_baseSize`. -/
def diff (baseSize : Nat) (pos : Int) : Int := (pos % baseSize).bmod (2 ^ 32)

/-- The loop down the nodes from number `k` on. It dereferences null where bytes are
left and no node is. -/
def writeToFileLoop (baseSize : Nat) : List Node → Nat → Int → Int → Option (List Chunk)
  | [], _, _, readSize => if readSize > 0 then none else some []
  | _ :: rest, k, pos, readSize =>
    if readSize > 0 then
      let diff := diff baseSize pos
      let len := (if readSize > baseSize then (baseSize : Int) else readSize) - diff
      (writeToFileLoop baseSize rest (k + 1) (pos + len) (readSize - len)).map (⟨k, diff, len⟩ :: ·)
    else some []

def writeToFile : Program ByteArray (List Chunk) := fun s =>
  if 0 < s.getReadSize ∧ s.baseSize = 0 then .fault .divisionByZero
  else
    match writeToFileLoop s.baseSize s.chain (s.cur.getD 0) s.position s.getReadSize with
    | none => .fault .nullPointer
    | some chunks => .ok chunks s

/-- The positions a chunk is read from, in a chain of nodes of `baseSize` bytes. -/
def Chunk.positions (baseSize : Nat) (c : Chunk) : List Nat :=
  List.range' (baseSize * c.node + c.offset.toNat) c.len.toNat

/-- The bytes a chunk puts into the file. -/
def emitted (s : ByteArray) (c : Chunk) : List UInt8 :=
  s.segment ⟨c.node, c.offset.toNat, c.len.toNat⟩

def InNode (s : ByteArray) (c : Chunk) : Prop :=
  0 ≤ c.offset ∧ 0 ≤ c.len ∧ ∃ node, s.nodes[c.node]? = some node ∧ c.offset + c.len ≤ node.size

/-- `writeToFile` ends, its chunks are inside the nodes, and they are the positions and
the bytes from `m_position` to `m_size`. -/
def FileExact (s : ByteArray) : Prop :=
  ∃ chunks, writeToFile s = .ok chunks s ∧ (∀ c ∈ chunks, InNode s c) ∧
    chunks.flatMap (Chunk.positions s.baseSize) = List.range' s.position s.getReadSize ∧
    chunks.flatMap s.emitted = slice s.bytes s.position s.getReadSize

/-! ## Chunks that start where they should -/

theorem diff_eq_iff {baseSize pos : Nat} :
    diff baseSize pos = (pos % baseSize : Nat) ↔ pos % baseSize < 2 ^ 31 := by
  rw [diff, ← Int.natCast_emod, Int.bmod_def]
  omega

theorem diff_start (baseSize k : Nat) : diff baseSize ((baseSize * k : Nat) : Int) = 0 := by
  rw [diff, Int.natCast_mul, Int.mul_emod_right]
  rfl

theorem writeToFileLoop_zero (baseSize : Nat) (nodes : List Node) (k : Nat) (pos : Int) :
    writeToFileLoop baseSize nodes k pos 0 = some [] := by
  cases nodes with
  | nil => rfl
  | cons node rest => rfl

/-- What the chunks of a loop have to be. -/
structure Covers (s : ByteArray) (pos n : Nat) (chunks : List Chunk) : Prop where
  inNode : ∀ c ∈ chunks, InNode s c
  positions : chunks.flatMap (Chunk.positions s.baseSize) = List.range' pos n
  bytes : chunks.flatMap s.emitted = slice s.bytes pos n

theorem Covers.nil (s : ByteArray) (pos : Nat) : Covers s pos 0 [] :=
  ⟨by simp, rfl, (slice_zero _ _).symm⟩

theorem Covers.cons {s : ByteArray} (h : Uniform s) {k r m n : Nat} {chunks : List Chunk}
    (hk : k < s.nodes.length) (hr : r + m ≤ s.baseSize)
    (hrest : Covers s (s.baseSize * k + r + m) n chunks) :
    Covers s (s.baseSize * k + r) (m + n) (⟨k, r, m⟩ :: chunks) where
  inNode := by
    intro c hc
    rcases List.mem_cons.mp hc with rfl | hc
    · refine ⟨Int.natCast_nonneg r, Int.natCast_nonneg m, s.nodes[k],
        List.getElem?_eq_getElem hk, ?_⟩
      rw [(h _ (List.getElem_mem hk)).1]
      dsimp only
      omega
    · exact hrest.inNode c hc
  positions := by
    rw [List.flatMap_cons, hrest.positions, Chunk.positions]
    exact List.range'_append_1
  bytes := by
    rw [List.flatMap_cons, hrest.bytes, emitted, slice_add]
    exact congrArg (· ++ _) (segment_eq h hk hr)

/-- From the start of a node the loop is right. -/
theorem aligned_loop {s : ByteArray} (h : Uniform s) {k n : Nat}
    (hroom : s.baseSize * k + n ≤ s.baseSize * s.nodes.length) :
    ∃ chunks, writeToFileLoop s.baseSize (s.nodes.drop k) k ((s.baseSize * k : Nat) : Int) n =
      some chunks ∧ Covers s (s.baseSize * k) n chunks := by
  induction hm : s.nodes.length - k generalizing k n with
  | zero =>
    have hle : s.baseSize * s.nodes.length ≤ s.baseSize * k := Nat.mul_le_mul_left _ (by omega)
    obtain rfl : n = 0 := by omega
    exact ⟨[], writeToFileLoop_zero _ _ _ _, Covers.nil s _⟩
  | succ m ih =>
    have hk : k < s.nodes.length := by omega
    rcases Nat.eq_zero_or_pos n with rfl | hn
    · exact ⟨[], writeToFileLoop_zero _ _ _ _, Covers.nil s _⟩
    · rw [List.drop_eq_getElem_cons hk, writeToFileLoop, if_pos (by omega)]
      simp only [diff_start, Int.sub_zero]
      by_cases hbig : s.baseSize < n
      · have hnext : s.baseSize * (k + 1) = s.baseSize * k + s.baseSize := Nat.mul_succ _ _
        obtain ⟨chunks, hrun, hcovers⟩ := ih (k := k + 1) (n := n - s.baseSize) (by omega) (by omega)
        refine ⟨⟨k, 0, s.baseSize⟩ :: chunks, ?_, ?_⟩
        · rw [if_pos (by omega), ← Int.natCast_add, ← hnext, ← Int.natCast_sub (Nat.le_of_lt hbig), hrun]
          rfl
        · have hall := Covers.cons (r := 0) (m := s.baseSize) h hk (by omega) (hnext ▸ hcovers)
          rwa [Nat.add_sub_cancel' (Nat.le_of_lt hbig)] at hall
      · refine ⟨[⟨k, 0, n⟩], ?_, ?_⟩
        · rw [if_neg (by omega), Int.sub_self, writeToFileLoop_zero]
          rfl
        · exact Covers.cons (r := 0) (m := n) h hk (by omega) (Covers.nil s _)

/-! ## Chunks that do not -/

/-- A chunk of no bytes leaves the loop where it was, until it meets null. -/
theorem writeToFileLoop_stalls {baseSize : Nat} (nodes : List Node) (k : Nat) {pos readSize : Int}
    (hpos : 0 < readSize)
    (hlen : (if readSize > baseSize then (baseSize : Int) else readSize) - diff baseSize pos = 0) :
    writeToFileLoop baseSize nodes k pos readSize = none := by
  induction nodes generalizing k with
  | nil => exact if_pos hpos
  | cons node rest ih =>
    rw [writeToFileLoop, if_pos hpos]
    simp only [hlen, Int.add_zero, Int.sub_zero, ih]
    rfl

/-- What a loop with bytes left and chunks inside the nodes does first. -/
theorem writeToFileLoop_first {s : ByteArray} {nodes : List Node} {k : Nat} {pos readSize : Int}
    {chunks : List Chunk} (hpos : 0 < readSize)
    (hrun : writeToFileLoop s.baseSize nodes k pos readSize = some chunks)
    (hin : ∀ c ∈ chunks, InNode s c) :
    ∃ rest len more, chunks = ⟨k, diff s.baseSize pos, len⟩ :: more ∧ 0 < len ∧
      0 ≤ diff s.baseSize pos ∧
      len = (if readSize > s.baseSize then (s.baseSize : Int) else readSize) -
        diff s.baseSize pos ∧
      writeToFileLoop s.baseSize rest (k + 1) (pos + len) (readSize - len) = some more := by
  have hstalls : (if readSize > s.baseSize then (s.baseSize : Int) else readSize) -
      diff s.baseSize pos ≠ 0 := by
    intro hlen
    rw [writeToFileLoop_stalls nodes k hpos hlen] at hrun
    cases hrun
  cases nodes with
  | nil =>
    rw [writeToFileLoop, if_pos hpos] at hrun
    cases hrun
  | cons node rest =>
    rw [writeToFileLoop, if_pos hpos] at hrun
    obtain ⟨more, hmore, rfl⟩ := Option.map_eq_some_iff.mp hrun
    obtain ⟨hoffset, hlen, -⟩ := hin _ List.mem_cons_self
    exact ⟨rest, _, more, rfl, Int.lt_iff_le_and_ne.mpr ⟨hlen, Ne.symm hstalls⟩, hoffset, rfl, hmore⟩

/-- The first part of an interval tells where it starts and what is left. -/
theorem of_range'_append {a n b m : Nat} {l : List Nat} (hn : 0 < n)
    (h : List.range' a n ++ l = List.range' b m) : a = b ∧ l = List.range' (b + n) (m - n) := by
  obtain ⟨n, rfl⟩ := Nat.exists_eq_succ_of_ne_zero (Nat.ne_of_gt hn)
  have hrest := congrArg (List.drop (n + 1)) h
  rw [List.drop_range', Nat.mul_one, List.drop_append_of_le_length (by simp),
    List.drop_of_length_le (by simp), List.nil_append] at hrest
  cases m with
  | zero => cases h
  | succ m =>
    rw [List.range'_succ, List.range'_succ, List.cons_append] at h
    exact ⟨(List.cons.inj h).1, hrest⟩

theorem offset_of_start {baseSize p : Nat} {offset : Int} (h : 0 ≤ offset)
    (hstart : baseSize * (p / baseSize) + offset.toNat = p) : offset = (p % baseSize : Nat) := by
  have hdiv := Nat.div_add_mod p baseSize
  omega

/-- With bytes left, a loop goes on in its first node. -/
theorem first_start {s : ByteArray} {nodes : List Node} {k start n : Nat} {pos readSize : Int}
    {chunks : List Chunk} (hpos : 0 < readSize)
    (hrun : writeToFileLoop s.baseSize nodes k pos readSize = some chunks)
    (hin : ∀ c ∈ chunks, InNode s c)
    (hpositions : chunks.flatMap (Chunk.positions s.baseSize) = List.range' start n) :
    s.baseSize * k + (diff s.baseSize pos).toNat = start := by
  obtain ⟨rest, len, more, rfl, hlen, -⟩ := writeToFileLoop_first hpos hrun hin
  rw [List.flatMap_cons] at hpositions
  exact (of_range'_append (Int.pos_iff_toNat_pos.mp hlen) hpositions).1

/-- Where the bytes start inside a node, the first chunk has to fill it. -/
theorem first_fills {s : ByteArray} {nodes : List Node} {n : Nat} {chunks : List Chunk}
    (hn : 0 < n)
    (hrun : writeToFileLoop s.baseSize nodes (s.position / s.baseSize) s.position n = some chunks)
    (hin : ∀ c ∈ chunks, InNode s c)
    (hpositions : chunks.flatMap (Chunk.positions s.baseSize) = List.range' s.position n)
    (hr : s.position % s.baseSize ≠ 0) :
    s.baseSize ≤ n ∧ s.position % s.baseSize < 2 ^ 31 := by
  have hn' : (0 : Int) < n := Int.natCast_pos.mpr hn
  have hstart := first_start hn' hrun hin hpositions
  obtain ⟨rest, len, more, rfl, hlen, hoffset, hlen_eq, hmore⟩ := writeToFileLoop_first hn' hrun hin
  -- the chunk starts at the position: `diff` is the offset in the node
  have hdiff := offset_of_start hoffset hstart
  refine ⟨Nat.le_of_not_lt fun hshort => ?_, diff_eq_iff.mp hdiff⟩
  rw [hdiff, if_neg (by omega)] at hlen_eq
  have hleft : 0 < (n : Int) - len := by
    rw [hlen_eq, Int.sub_sub_self]
    exact Int.natCast_pos.mpr (Nat.pos_of_ne_zero hr)
  rw [List.flatMap_cons] at hpositions
  -- what is left would be taken from the next node
  have hnext := first_start hleft hmore (fun c hc => hin c (List.mem_cons_of_mem _ hc))
    (of_range'_append (Int.pos_iff_toNat_pos.mp hlen) hpositions).2
  have hlen_nat : len.toNat + s.position % s.baseSize = n := by
    clear hnext hdiff hoffset hstart
    omega
  have hdiv := Nat.div_add_mod s.position s.baseSize
  have hbehind : s.baseSize * (s.position / s.baseSize + 1) ≤ s.position + len.toNat := by
    rw [← hnext]
    exact Nat.le_add_right _ _
  rw [Nat.mul_succ] at hbehind
  clear hnext hdiff hoffset hstart
  omega

theorem clamp_of_le {baseSize n : Nat} (h : baseSize ≤ n) :
    (if (n : Int) > baseSize then (baseSize : Int) else n) = baseSize := by
  split <;> omega

/-- Inside a node the loop is right if its first chunk fills the node. -/
theorem inside_loop {s : ByteArray} (h : Uniform s) {n : Nat} (hb : 0 < s.baseSize)
    (hroom : s.position + n ≤ s.baseSize * s.nodes.length) (hlong : s.baseSize ≤ n)
    (hsmall : s.position % s.baseSize < 2 ^ 31) :
    ∃ chunks, writeToFileLoop s.baseSize (s.nodes.drop (s.position / s.baseSize))
      (s.position / s.baseSize) s.position n = some chunks ∧ Covers s s.position n chunks := by
  have hdiv := Nat.div_add_mod s.position s.baseSize
  have hmod := Nat.mod_lt s.position hb
  obtain ⟨hk, -, -⟩ := position_split (p := s.position) hb (by omega)
  have hfirst : s.position % s.baseSize + (s.baseSize - s.position % s.baseSize) =
      s.baseSize := by omega
  have hstart : s.position + (s.baseSize - s.position % s.baseSize) =
      s.baseSize * (s.position / s.baseSize + 1) := by
    rw [Nat.mul_succ]
    omega
  obtain ⟨chunks, hloop, hcovers⟩ := aligned_loop h (k := s.position / s.baseSize + 1)
    (n := n - (s.baseSize - s.position % s.baseSize)) (by omega)
  have hall := Covers.cons (r := s.position % s.baseSize)
    (m := s.baseSize - s.position % s.baseSize) h hk (by omega)
    (by rw [hdiv, hstart]; exact hcovers)
  rw [hdiv, Nat.add_sub_cancel' (by omega)] at hall
  have hlast : s.baseSize - s.position % s.baseSize ≤ n := by omega
  refine ⟨_, ?_, hall⟩
  rw [List.drop_eq_getElem_cons hk, writeToFileLoop, if_pos (by omega)]
  simp only [diff_eq_iff.mpr hsmall, clamp_of_le hlong]
  rw [← Int.natCast_sub (Nat.le_of_lt hmod), ← Int.natCast_add, hstart,
    ← Int.natCast_sub hlast, hloop]
  rfl

theorem fileExact_of_nothing {s : ByteArray} (h : s.getReadSize = 0) : FileExact s := by
  refine ⟨[], ?_, by simp, ?_, ?_⟩
  · rw [writeToFile, h, if_neg (by omega), Int.natCast_zero, writeToFileLoop_zero]
  · rw [h]
    rfl
  · rw [h, slice_zero]
    rfl

theorem fileExact_iff {s : ByteArray} (h : WF s) :
    FileExact s ↔ s.getReadSize = 0 ∨ s.position % s.baseSize = 0 ∨
      (s.baseSize ≤ s.getReadSize ∧ s.position % s.baseSize < 2 ^ 31) := by
  have hb := h.base_pos
  have hcap := h.capacity
  have hsize := h.size_le
  have hpos := h.position_le
  rcases Nat.eq_zero_or_pos s.getReadSize with hzero | hn
  · exact iff_of_true (fileExact_of_nothing hzero) (Or.inl hzero)
  · have hinside : s.position < s.capacity := by
      unfold getReadSize at hn
      omega
    have hrun (chunks : List Chunk)
        (hloop : writeToFileLoop s.baseSize (s.nodes.drop (s.position / s.baseSize))
          (s.position / s.baseSize) s.position s.getReadSize = some chunks)
        (hcovers : Covers s s.position s.getReadSize chunks) : FileExact s := by
      refine ⟨chunks, ?_, hcovers.inNode, hcovers.positions, hcovers.bytes⟩
      rw [writeToFile, if_neg (by omega), h.cur_inside hinside, h.chain_inside hinside]
      simp only [Option.getD_some, hloop]
    have hroom : s.position + s.getReadSize ≤ s.baseSize * s.nodes.length := by
      unfold getReadSize
      omega
    constructor
    · rintro ⟨chunks, hok, hin, hpositions, -⟩
      by_cases hr : s.position % s.baseSize = 0
      · exact Or.inr (Or.inl hr)
      · rw [writeToFile, if_neg (by omega), h.cur_inside hinside] at hok
        split at hok
        · cases hok
        · rename_i hloop
          cases hok
          exact Or.inr (Or.inr (first_fills hn hloop hin hpositions hr))
    · rintro (hzero | hr | ⟨hlong, hsmall⟩)
      · omega
      · have hdiv := Nat.div_add_mod s.position s.baseSize
        have hstart : s.baseSize * (s.position / s.baseSize) = s.position := by omega
        obtain ⟨chunks, hloop, hcovers⟩ := aligned_loop h.uniform
          (k := s.position / s.baseSize) (n := s.getReadSize) (by omega)
        rw [hstart] at hloop hcovers
        exact hrun chunks hloop hcovers
      · obtain ⟨chunks, hloop, hcovers⟩ := inside_loop h.uniform hb hroom hlong hsmall
        exact hrun chunks hloop hcovers

/-- In every reachable state `writeToFile` writes exactly the unread bytes, unless they
start inside a node and do not reach its base size (or the offset is no `int`). -/
theorem file_exact_iff {base : Nat} {heap : Nat → UInt8} {s : ByteArray}
    (h : Reachable (machine base heap) s) :
    FileExact s ↔ s.getReadSize = 0 ∨ s.position % s.baseSize = 0 ∨
      (s.baseSize ≤ s.getReadSize ∧ s.position % s.baseSize < 2 ^ 31) := by
  rcases reachable_cases h with hd | hwf
  · exact iff_of_true (fileExact_of_nothing hd.getReadSize) (Or.inl hd.getReadSize)
  · exact fileExact_iff hwf

/-- The eight bytes of two nodes, from the first one on. -/
theorem file_exact_iff_rewound : FileExact rewound :=
  (file_exact_iff rewound_reachable).mpr (Or.inr (Or.inl (by decide)))

/-- Of the three bytes left two are written, and the loop goes on at the null `next`. -/
theorem file_cut : ¬ ∀ (base : Nat) (heap : Nat → UInt8) (s : ByteArray),
    Reachable (machine base heap) s → FileExact s := by
  intro hall
  obtain ⟨chunks, hrun, -⟩ := hall 4 (fun _ => 0) firstRead firstRead_reachable
  cases hrun

/-! ## `readFromFile` -/

/-- Which bits the last read sets: `eofbit` among them, or only others. -/
inductive Ending where
  | eof
  | error
  deriving DecidableEq, Repr

/-- An open `std::ifstream`: what its further reads deliver, and how the last of them
ends. Behind it each read delivers nothing and leaves the bits alone. -/
inductive IfStream where
  | good (before : List (List UInt8)) (last : List UInt8) (ending : Ending)
  | ended (ending : Ending)
  deriving DecidableEq, Repr

namespace IfStream

/-- The characters of one `read`, as many as `gcount()` says. -/
def read : IfStream → List UInt8 × IfStream
  | good [] last ending => (last, ended ending)
  | good (chunk :: before) last ending => (chunk, good before last ending)
  | ended ending => ([], ended ending)

def eof : IfStream → Bool
  | ended .eof => true
  | _ => false

def chunks : IfStream → List (List UInt8)
  | good before last _ => before ++ [last]
  | ended _ => []

def ending : IfStream → Ending
  | good _ _ ending => ending
  | ended ending => ending

/-- No `read` of `n` characters delivers more, and only one that comes short sets
`eofbit`. -/
def Fits (n : Nat) (f : IfStream) : Prop :=
  (∀ chunk ∈ f.chunks, chunk.length ≤ n) ∧
    ∀ before last, f = good before last .eof → last.length < n

end IfStream

/-- The loop of `readFromFile`; `none` when the fuel is out. -/
def readFromFileLoop : Nat → IfStream → ByteArray → Option (Outcome ByteArray Unit)
  | 0, _, _ => none
  | fuel + 1, f, s =>
    if f.eof then some (.ok () s)
    else
      match write f.read.1 s with
      | .ok _ s => readFromFileLoop fuel f.read.2 s
      | .throw what s => some (.throw what s)
      | .fault why => some (.fault why)

/-- The loop ends, and what the stream delivered is what it has appended. -/
def ReadsFile (f : IfStream) (s : ByteArray) : Prop :=
  ∃ fuel s', readFromFileLoop fuel f s = some (.ok () s') ∧ Written s f.chunks.flatten s'

theorem readFromFileLoop_ended (fuel : Nat) (s : ByteArray) :
    readFromFileLoop fuel (.ended .error) s = none := by
  induction fuel with
  | zero => rfl
  | succ fuel ih => exact ih

/-- Up to the end of the stream the loop is the `write` calls of `readFromFile`. -/
theorem readFromFileLoop_chunks (before : List (List UInt8)) (last : List UInt8)
    (ending : Ending) (fuel : Nat) (s : ByteArray) :
    readFromFileLoop (before.length + 1 + fuel) (.good before last ending) s =
      match readFromFile (before ++ [last]) s with
      | .ok _ s' => readFromFileLoop fuel (.ended ending) s'
      | .throw what s' => some (.throw what s')
      | .fault why => some (.fault why) := by
  induction before generalizing s with
  | nil =>
    have hfuel : ([] : List (List UInt8)).length + 1 + fuel = fuel + 1 := by
      rw [List.length_nil, Nat.zero_add, Nat.add_comm]
    rw [hfuel, List.nil_append, readFromFile, forM_one]
    rfl
  | cons chunk before ih =>
    have hfuel : (chunk :: before).length + 1 + fuel = before.length + 1 + fuel + 1 := by
      rw [List.length_cons]
      omega
    rw [hfuel, readFromFileLoop, List.cons_append]
    have hcons : readFromFile (chunk :: (before ++ [last])) s =
        Program.bind (ByteArray.write chunk) (fun _ => readFromFile (before ++ [last])) s := rfl
    rw [hcons, Program.bind]
    show (match ByteArray.write chunk s with
      | .ok _ s => readFromFileLoop (before.length + 1 + fuel) (.good before last ending) s
      | .throw what s => some (.throw what s)
      | .fault why => some (.fault why)) = _
    cases ByteArray.write chunk s with
    | ok _ t => exact ih t
    | throw what t => rfl
    | fault why => rfl

/-- More fuel does not change what a loop that ends comes to. -/
theorem readFromFileLoop_mono {fuel : Nat} {f : IfStream} {s : ByteArray}
    {o : Outcome ByteArray Unit} (h : readFromFileLoop fuel f s = some o) (more : Nat) :
    readFromFileLoop (fuel + more) f s = some o := by
  induction fuel generalizing f s with
  | zero => cases h
  | succ fuel ih =>
    rw [Nat.succ_add, readFromFileLoop]
    rw [readFromFileLoop] at h
    by_cases heof : f.eof = true
    · rw [if_pos heof] at h ⊢
      exact h
    · rw [if_neg heof] at h ⊢
      cases hwrite : write f.read.1 s with
      | ok _ t =>
        rw [hwrite] at h
        exact ih h
      | throw what t =>
        rw [hwrite] at h
        exact h
      | fault why =>
        rw [hwrite] at h
        exact h

/-- What a loop that ends has got through. -/
theorem of_readFromFileLoop {fuel : Nat} {before : List (List UInt8)} {last : List UInt8}
    {ending : Ending} {s s' : ByteArray}
    (h : readFromFileLoop fuel (.good before last ending) s = some (.ok () s')) :
    ending = .eof ∧ readFromFile (before ++ [last]) s = .ok () s' := by
  have hlong := readFromFileLoop_mono h (before.length + 1 + 1)
  rw [show fuel + (before.length + 1 + 1) = before.length + 1 + (fuel + 1) by omega,
    readFromFileLoop_chunks] at hlong
  cases hfile : readFromFile (before ++ [last]) s with
  | ok _ t =>
    rw [hfile] at hlong
    cases ending with
    | eof =>
      cases hlong
      exact ⟨rfl, rfl⟩
    | error =>
      have hnone := readFromFileLoop_ended (fuel + 1) t
      exact absurd (hnone.symm.trans hlong) (Option.some_ne_none _).symm
  | throw what t =>
    rw [hfile] at hlong
    cases hlong
  | fault why =>
    rw [hfile] at hlong
    cases hlong

/-- In every reachable state `readFromFile` ends, with the bytes of the stream, exactly
where the stream comes to its end and each chunk finds room. -/
theorem reads_file_iff {base : Nat} {heap : Nat → UInt8} {s : ByteArray}
    (h : Reachable (machine base heap) s) {before : List (List UInt8)} {last : List UInt8}
    {ending : Ending} (hfits : (IfStream.good before last ending).Fits base) :
    ReadsFile (.good before last ending) s ↔
      ending = .eof ∧ RoomSeq base s.getRemainCapacity ((before ++ [last]).map List.length) := by
  constructor
  · rintro ⟨fuel, s', hrun, -⟩
    obtain ⟨rfl, hwrites⟩ := of_readFromFileLoop hrun
    have hb : 0 < base := Nat.lt_of_le_of_lt (Nat.zero_le _) (hfits.2 before last rfl)
    exact ⟨rfl, room_of_forM_write ((machine_inductive hb heap).reachable h) hwrites⟩
  · rintro ⟨rfl, hroom⟩
    have hb : 0 < base := Nat.lt_of_le_of_lt (Nat.zero_le _) (hfits.2 before last rfl)
    obtain ⟨s', hrun, hwritten, -⟩ :=
      forM_write_written ((machine_inductive hb heap).reachable h) hroom
    refine ⟨before.length + 1 + 1, s', ?_, hwritten⟩
    rw [readFromFileLoop_chunks, readFromFile, hrun]
    rfl

/-- A file of two bytes. -/
theorem reads_file_iff_short : ReadsFile (.good [] [1, 2] .eof) (new 4 fun _ => 0) :=
  (reads_file_iff (Reachable.init (S := machine 4 fun _ => 0) rfl)
    ⟨by decide, by rintro before last ⟨⟩; decide⟩).mpr ⟨rfl, by decide, trivial⟩

/-- The read of a directory fails without `eofbit`, and so does each one after it. -/
theorem directory_loops : ¬ ∀ (base : Nat) (heap : Nat → UInt8) (s : ByteArray)
    (before : List (List UInt8)) (last : List UInt8) (ending : Ending),
    Reachable (machine base heap) s → (IfStream.good before last ending).Fits base →
      ReadsFile (.good before last ending) s := by
  intro hall
  obtain ⟨fuel, s', hrun, -⟩ := hall 4 (fun _ => 0) (new 4 fun _ => 0) [] [] .error
    (Reachable.init rfl) ⟨by decide, by rintro before last ⟨⟩⟩
  cases (of_readFromFileLoop hrun).1

end ByteArray
end TwServer
