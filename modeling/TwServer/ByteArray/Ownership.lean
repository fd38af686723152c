import TwServer.ByteArray.Linked
import TwServer.ByteArray.Positional

/-! The pointers of a `ByteArray` and the chain they stand for. Both do the same calls with the
same ends, so the pointers never leave the live nodes; and the nodes a `ByteArray` owns are all
gone after its destructor. -/

namespace TwServer
open Programs Blocks LinkedLists

namespace LinkedByteArray

/-- `p` stores `s`: its nodes are at `addrs`, and its cursor is at the `k`-th of them, or null
behind the last. -/
structure Laid (others : Ptr → Option (Cell Node)) (addrs : List Ptr) (k : Nat)
    (p : LinkedByteArray) (s : ByteArray) : Prop where
  baseSize : p.baseSize = s.baseSize
  position : p.position = s.position
  capacity : p.capacity = s.capacity
  size : p.size = s.size
  heap : p.heap = s.heap
  chain : Chain others p.memory addrs s.nodes
  root : addrs[0]? = some p.root
  cursor : p.cur = addrs[k]?
  inside : k ≤ addrs.length
  cur : s.cur = if k < addrs.length then some k else none

def Stores (others : Ptr → Option (Cell Node)) (p : LinkedByteArray) (s : ByteArray) : Prop :=
  ∃ addrs k, Laid others addrs k p s

section
variable {others : Ptr → Option (Cell Node)} {addrs : List Ptr} {k i : Nat}
  {p : LinkedByteArray} {s : ByteArray}

/-! ## The parts of a step -/

theorem Laid.deref (h : Laid others addrs k p s) (i : Nat) :
    p.deref addrs[i]? = match s.nodes[i]? with
      | none => .error .nullPointer
      | some node => .ok ⟨node, addrs[i + 1]?⟩ := by
  cases hp : addrs[i]? with
  | none =>
    have hge := List.getElem?_eq_none_iff.mp hp
    rw [List.getElem?_eq_none (h.chain.length ▸ hge)]
    rfl
  | some q =>
    obtain ⟨v, hv, hcell⟩ := h.chain.cell i q hp
    rw [hv, LinkedByteArray.deref, hcell]

theorem Laid.rounds_gt (h : Laid others addrs k p s) : addrs.length < p.rounds :=
  Nat.lt_succ_of_le h.chain.length_le

theorem Laid.lt_iff (h : Laid others addrs k p s) : i < addrs.length ↔ i < s.nodes.length := by
  rw [h.chain.length]

theorem Laid.chain_eq (h : Laid others addrs k p s) : s.chain = s.nodes.drop k := by
  rw [ByteArray.chain, h.cur]
  by_cases hk : k < addrs.length
  · rw [if_pos hk]
  · rw [if_neg hk, List.drop_eq_nil_of_le (by rw [← h.chain.length]; omega)]

theorem store_some {q : Ptr} (hc : p.cur = some q) (npos : Nat) (buf : List UInt8) :
    p.store npos buf = { p with
      memory := p.memory.modify q fun cell => { cell with val := cell.val.store npos buf } } := by
  unfold LinkedByteArray.store
  split
  · rename_i hnone
    cases hc.symm.trans hnone
  · rename_i q' hq
    obtain rfl := Option.some.inj (hc.symm.trans hq)
    rfl

theorem chain_store_some (hc : s.cur = some k) (npos : Nat) (buf : List UInt8) :
    s.store npos buf = { s with nodes := s.nodes.modify k (·.store npos buf) } := by
  unfold ByteArray.store
  split
  · rename_i hnone
    cases hc.symm.trans hnone
  · rename_i k' hk
    obtain rfl := Option.some.inj (hc.symm.trans hk)
    rfl

theorem Laid.getReadSize (h : Laid others addrs k p s) : p.getReadSize = s.getReadSize := by
  rw [LinkedByteArray.getReadSize, ByteArray.getReadSize, h.size, h.position]

theorem Laid.store (h : Laid others addrs k p s) (hk : k < addrs.length) (npos : Nat)
    (buf : List UInt8) : Laid others addrs k (p.store npos buf) (s.store npos buf) := by
  have hq := List.getElem?_eq_getElem hk
  rw [store_some (h.cursor.trans hq), chain_store_some (h.cur.trans (if_pos hk))]
  exact { h with chain := h.chain.modify hq (Node.store · npos buf) }

/-- Move the cursor to the `i`-th node, or behind the last one. -/
theorem Laid.point (h : Laid others addrs k p s) (hi : i ≤ addrs.length) :
    Laid others addrs i { p with cur := addrs[i]? }
      { s with cur := if i < addrs.length then some i else none } :=
  { h with cursor := rfl, inside := hi, cur := rfl }

theorem Laid.next (h : Laid others addrs k p s) (hk : k < addrs.length) :
    Laid others addrs (k + 1) { p with cur := addrs[k + 1]? } { s with cur := s.next } := by
  have hnext : s.next = if k + 1 < addrs.length then some (k + 1) else none := by
    rw [ByteArray.next, h.cur, if_pos hk, Option.bind_some, ByteArray.nextOf, h.chain.length]
  rw [hnext]
  exact h.point hk

theorem Laid.pass (h : Laid others addrs k p s) (n : Nat) :
    Laid others addrs k (p.pass n) (s.pass n) :=
  { h with
    position := by rw [LinkedByteArray.pass, ByteArray.pass, h.position]
    size := by simp only [LinkedByteArray.pass, ByteArray.pass, h.position, h.size] }

theorem Laid.moveTo (h : Laid others addrs k p s) {v w : Nat} (hv : v = w) :
    Laid others addrs k { p with position := v } { s with position := w } :=
  { h with position := hv }

theorem Laid.drop_cons (h : Laid others addrs k p s) {node : Node} (hnode : s.nodes[i]? = some node) :
    s.nodes.drop i = node :: s.nodes.drop (i + 1) ∧ i < addrs.length := by
  obtain ⟨hlt, rfl⟩ := List.getElem?_eq_some_iff.mp hnode
  exact ⟨List.drop_eq_getElem_cons hlt, h.lt_iff.mpr hlt⟩

theorem drop_nil (hnone : s.nodes[i]? = none) : s.nodes.drop i = [] :=
  List.drop_eq_nil_of_le (List.getElem?_eq_none_iff.mp hnone)

/-! ## Capacity -/

theorem Laid.addNode (h : Laid others addrs k p s) {q : Ptr} {n : Nat}
    (hlen : addrs.length = n + 1) (hq : addrs[n]? = some q) :
    ∃ k', Laid others (addrs ++ [p.memory.fresh]) k' (p.addNode q) s.addNode := by
  have hchain := h.chain.push hlen hq (Node.new p.heap p.baseSize)
  have hlen' : (addrs ++ [p.memory.fresh]).length = addrs.length + 1 := by simp
  have hroot : (addrs ++ [p.memory.fresh])[0]? = some p.root := by
    rw [List.getElem?_append_left (by omega)]
    exact h.root
  -- a cursor behind the last node stays there
  obtain ⟨k', hcursor, hinside, hcur⟩ : ∃ k', p.cur = (addrs ++ [p.memory.fresh])[k']? ∧
      k' ≤ addrs.length + 1 ∧ s.cur = if k' < addrs.length + 1 then some k' else none := by
    by_cases hk : k < addrs.length
    · refine ⟨k, ?_, by omega, by rw [h.cur, if_pos hk, if_pos (by omega)]⟩
      rw [List.getElem?_append_left hk, h.cursor]
    · refine ⟨addrs.length + 1, ?_, Nat.le_refl _, by rw [h.cur, if_neg hk, if_neg (by omega)]⟩
      rw [h.cursor, List.getElem?_eq_none (Nat.le_of_not_lt hk), List.getElem?_eq_none (by omega)]
  rw [h.heap, h.baseSize] at hchain
  refine ⟨k', h.baseSize, h.position, ?_, h.size, ?_, ?_, hroot, hcursor, by omega, ?_⟩
  · simp only [LinkedByteArray.addNode, ByteArray.addNode, h.capacity, h.baseSize]
  · simp only [LinkedByteArray.addNode, ByteArray.addNode, h.heap, h.baseSize]
  · simpa only [LinkedByteArray.addNode, ByteArray.addNode, h.heap, h.baseSize] using hchain
  · rw [hlen']
    exact hcur

theorem Laid.addNodes (h : Laid others addrs k p s) {q : Ptr} {n : Nat}
    (hlen : addrs.length = n + 1) (hq : addrs[n]? = some q) (count : Nat) (first : Option Ptr) :
    ∃ tail k', tail.length = count ∧ (p.addNodes count q first).1 = first.or tail.head? ∧
      Laid others (addrs ++ tail) k' (p.addNodes count q first).2 (s.addNodes count) := by
  induction count generalizing addrs k p s q n first with
  | zero => exact ⟨[], k, rfl, by simp [LinkedByteArray.addNodes], by rwa [List.append_nil]⟩
  | succ count ih =>
    obtain ⟨k₁, hone⟩ := h.addNode hlen hq
    have hlast : (addrs ++ [p.memory.fresh])[n + 1]? = some p.memory.fresh := by
      rw [← hlen]
      simp
    obtain ⟨tail, k', htail, hfirst, hrest⟩ := ih hone (by simp [hlen]) hlast
      (first.or (some p.memory.fresh))
    refine ⟨p.memory.fresh :: tail, k', by simp [htail], ?_, ?_⟩
    · rw [LinkedByteArray.addNodes, hfirst]
      cases first <;> rfl
    · rw [List.append_assoc] at hrest
      exact hrest

theorem Laid.addCapacity (h : Laid others addrs k p s) (n : Nat) :
    ∃ p', p.addCapacity n = .ok () p' ∧ Stores others p' (s.addCapacity n) := by
  have hold : p.getRemainCapacity = s.getRemainCapacity := by
    rw [LinkedByteArray.getRemainCapacity, ByteArray.getRemainCapacity, h.capacity, h.position]
  unfold LinkedByteArray.addCapacity ByteArray.addCapacity
  by_cases hn : n = 0
  · rw [if_pos hn, if_pos hn]
    exact ⟨p, rfl, addrs, k, h⟩
  rw [if_neg hn, if_neg hn, hold, h.baseSize]
  by_cases hfit : s.getRemainCapacity ≥ n
  · simp only [hfit, ↓reduceIte]
    exact ⟨p, rfl, addrs, k, h⟩
  simp only [hfit, ↓reduceIte]
  obtain ⟨hpos, -⟩ := List.getElem?_eq_some_iff.mp h.root
  obtain ⟨m, hlen⟩ : ∃ m, addrs.length = m + 1 := ⟨addrs.length - 1, by omega⟩
  obtain ⟨last, hlast⟩ : ∃ last, addrs[m]? = some last :=
    ⟨_, List.getElem?_eq_getElem (by omega)⟩
  have hwalk := h.chain.lastFrom p.rounds h.root hlast hlen
    (by have := h.rounds_gt; omega)
  obtain ⟨tail, k', htail, hfirst, hadded⟩ := h.addNodes hlen hlast
    (ByteArray.addCount s.baseSize s.getRemainCapacity n) none
  rw [hwalk]
  refine ⟨_, rfl, ?_⟩
  by_cases hfull : s.getRemainCapacity = 0
  · rw [if_pos hfull, if_pos hfull, hfirst]
    have hpoint := hadded.point (i := addrs.length) (by simp)
    have hhead : (addrs ++ tail)[addrs.length]? = none.or tail.head? := by
      rw [List.getElem?_append_right (Nat.le_refl _), Nat.sub_self, Option.none_or,
        List.head?_eq_getElem?]
    have hcur : (if addrs.length < (addrs ++ tail).length then some addrs.length else none) =
        if ByteArray.addCount s.baseSize s.getRemainCapacity n = 0 then none
        else some s.nodes.length := by
      rw [List.length_append, htail, ← h.chain.length]
      split <;> split <;> first | rfl | omega
    rw [hhead, hcur] at hpoint
    exact ⟨_, addrs.length, hpoint⟩
  · rw [if_neg hfull, if_neg hfull]
    exact ⟨_, k', hadded⟩

/-! ## The loops -/

/-- A walk to the `j`-th node, or behind the last one, or through the null pointer. -/
def Points (addrs : List Ptr) (o : Except Fault (Option Ptr)) : Option (Option Nat) → Prop
  | none => o = .error .nullPointer
  | some cur => ∃ j ≤ addrs.length, o = .ok addrs[j]? ∧ cur = if j < addrs.length then some j else none

theorem Laid.deref_cur (h : Laid others addrs k p s) :
    p.deref p.cur = match s.nodes[k]? with
      | none => .error .nullPointer
      | some node => .ok ⟨node, addrs[k + 1]?⟩ := by
  rw [h.cursor, h.deref]

theorem Laid.writeLoop (h : Laid others addrs k p s) {rounds : Nat} (npos : Nat)
    (buf : List UInt8) (hr : addrs.length < rounds + k) :
    (LinkedByteArray.writeLoop rounds npos buf p).Agrees (Stores others)
      (ByteArray.writeLoop (s.nodes.drop k) npos buf s) := by
  induction rounds generalizing k p s npos buf with
  | zero =>
    have := h.inside
    omega
  | succ rounds ih =>
    rw [LinkedByteArray.writeLoop, h.deref_cur]
    cases hnode : s.nodes[k]? with
    | none =>
      rw [drop_nil hnode]
      rfl
    | some node =>
      obtain ⟨hdrop, hk⟩ := h.drop_cons hnode
      rw [hdrop, ByteArray.writeLoop]
      by_cases hfit : node.size - npos ≥ buf.length
      · simp only [hfit, ↓reduceIte]
        have hstored := h.store hk npos buf
        by_cases hend : node.size = npos + buf.length
        · simp only [hend, ↓reduceIte]
          exact ⟨rfl, _, _, (hstored.next hk).pass _⟩
        · simp only [hend, ↓reduceIte]
          exact ⟨rfl, _, _, hstored.pass _⟩
      · simp only [hfit, ↓reduceIte]
        have hpassed := ((h.store hk npos (buf.take (node.size - npos))).next hk).pass
          (node.size - npos)
        have hrest := ih hpassed 0 (buf.drop (node.size - npos)) (by omega)
        have hsame : (({ s.store npos (buf.take (node.size - npos)) with
            cur := (s.store npos (buf.take (node.size - npos))).next }.pass
            (node.size - npos)).nodes).drop (k + 1) = s.nodes.drop (k + 1) :=
          ByteArray.store_drop (h.cur.trans (if_pos hk))
        rw [hsame] at hrest
        exact hrest

theorem Laid.readLoop (h : Laid others addrs k p s) {rounds : Nat} (npos n : Nat)
    (hr : addrs.length < rounds + k) :
    (LinkedByteArray.readLoop rounds npos n p).Agrees (Stores others)
      (ByteArray.readLoop (s.nodes.drop k) npos n s) := by
  induction rounds generalizing k p s npos n with
  | zero =>
    have := h.inside
    omega
  | succ rounds ih =>
    rw [LinkedByteArray.readLoop, h.deref_cur]
    cases hnode : s.nodes[k]? with
    | none =>
      rw [drop_nil hnode]
      rfl
    | some node =>
      obtain ⟨hdrop, hk⟩ := h.drop_cons hnode
      rw [hdrop, ByteArray.readLoop]
      by_cases hfit : node.size - npos ≥ n
      · simp only [hfit, ↓reduceIte]
        by_cases hend : node.size = npos + n
        · simp only [hend, ↓reduceIte]
          exact ⟨rfl, _, _, (h.next hk).moveTo (by rw [h.position])⟩
        · simp only [hend, ↓reduceIte]
          exact ⟨rfl, _, _, h.moveTo (by rw [h.position])⟩
      · simp only [hfit, ↓reduceIte]
        have hmoved := (h.next hk).moveTo (v := p.position + (node.size - npos))
          (w := s.position + (node.size - npos)) (by rw [h.position])
        have hrest := ih hmoved 0 (n - (node.size - npos)) (by omega)
        revert hrest
        generalize LinkedByteArray.readLoop rounds 0 _ _ = o
        generalize ByteArray.readLoop _ 0 _ _ = o'
        intro hrest
        cases o <;> cases o' <;> try exact hrest.elim
        · exact ⟨by rw [hrest.1], hrest.2⟩
        · exact hrest
        · exact hrest

theorem Laid.seekLoop (h : Laid others addrs k p s) {rounds : Nat} (v : Nat)
    (hr : addrs.length < rounds + i) (hi : i ≤ addrs.length) :
    Points addrs (p.seekLoop rounds addrs[i]? v) (ByteArray.seekLoop s (s.nodes.drop i) i v) := by
  induction rounds generalizing i v with
  | zero => omega
  | succ rounds ih =>
    rw [LinkedByteArray.seekLoop, h.deref]
    cases hnode : s.nodes[i]? with
    | none =>
      rw [drop_nil hnode]
      rfl
    | some node =>
      obtain ⟨hdrop, hlt⟩ := h.drop_cons hnode
      rw [hdrop, ByteArray.seekLoop]
      by_cases hfar : v > node.size
      · simp only [hfar, ↓reduceIte]
        exact ih _ (by omega) hlt
      · by_cases hend : v = node.size
        · simp only [hend, Nat.lt_irrefl, gt_iff_lt, ↓reduceIte]
          exact ⟨i + 1, hlt, rfl, by rw [ByteArray.nextOf, h.chain.length]⟩
        · simp only [hfar, hend, ↓reduceIte]
          exact ⟨i, hi, rfl, by rw [if_pos hlt]⟩

theorem Laid.walk (h : Laid others addrs k p s) (count : Nat) (hi : i ≤ addrs.length) :
    Points addrs (p.walk count addrs[i]?)
      (s.walk count (if i < addrs.length then some i else none)) := by
  induction count generalizing i with
  | zero => exact ⟨i, hi, rfl, rfl⟩
  | succ count ih =>
    rw [LinkedByteArray.walk, h.deref]
    cases hnode : s.nodes[i]? with
    | none =>
      have hge := List.getElem?_eq_none_iff.mp hnode
      rw [if_neg (by rw [h.chain.length]; omega), ByteArray.walk]
      rfl
    | some node =>
      obtain ⟨-, hlt⟩ := h.drop_cons hnode
      rw [if_pos hlt, ByteArray.walk, ByteArray.nextOf, ← h.chain.length]
      exact ih hlt

theorem Laid.readAtLoop (h : Laid others addrs k p s) {node : Node} (hk : k < addrs.length)
    (rounds npos ncap n : Nat) :
    p.readAtLoop ⟨node, addrs[k + 1]?⟩ rounds addrs[i]? npos ncap n =
      match s.readAtLoop node rounds (if i < addrs.length then some i else none) npos ncap n with
      | none => .error .nullPointer
      | some bytes => .ok bytes := by
  induction rounds generalizing i npos ncap n with
  | zero => rfl
  | succ rounds ih =>
    rw [LinkedByteArray.readAtLoop, ByteArray.readAtLoop]
    by_cases hn : n = 0
    · rw [if_pos hn, if_pos hn]
    rw [if_neg hn, if_neg hn]
    by_cases hfit : ncap ≥ n
    · rw [if_pos hfit, if_pos hfit, h.deref]
      by_cases hend : node.size = npos + n
      · rw [if_pos hend]
        by_cases hi : i < addrs.length
        · obtain ⟨v, hv⟩ : ∃ v, s.nodes[i]? = some v :=
            ⟨_, List.getElem?_eq_getElem (h.lt_iff.mp hi)⟩
          simp [hv, hi]
        · rw [if_neg hi, if_pos ⟨hend, rfl⟩, List.getElem?_eq_none (by rw [← h.chain.length]; omega)]
      · rw [if_neg hend, if_neg (fun hboth => hend hboth.1)]
    · have hnext : s.next = if k + 1 < addrs.length then some (k + 1) else none :=
        (h.next hk).cur
      rw [if_neg hfit, if_neg hfit, hnext, ih]
      cases s.readAtLoop node rounds _ 0 node.size (n - ncap) <;> rfl

/-! ## Segments -/

/-- The segment of the node at the address of `v`'s. -/
def place (addrs : List Ptr) (v : ByteArray.Iovec) : Iovec := ⟨addrs.getD v.node 0, v.base, v.len⟩

theorem Laid.segment (h : Laid others addrs k p s) {v : ByteArray.Iovec}
    (hv : v.node < addrs.length) : p.segment (place addrs v) = s.segment v := by
  obtain ⟨node, hnode, hcell⟩ := h.chain.cell v.node _ (List.getElem?_eq_getElem hv)
  rw [LinkedByteArray.segment, ByteArray.segment, place, hnode,
    List.getD_eq_getElem?_getD, List.getElem?_eq_getElem hv, Option.getD_some, hcell]

/-- Segments found through the pointers, and through the chain. -/
def Places (addrs : List Ptr) (o : Except Fault (List Iovec)) :
    Option (List ByteArray.Iovec) → Prop
  | none => o = .error .nullPointer
  | some bufs => o = .ok (bufs.map (place addrs)) ∧ ∀ v ∈ bufs, v.node < addrs.length

theorem Laid.segmentLoop (h : Laid others addrs k p s) {rounds : Nat} (npos ncap len : Nat)
    (hr : addrs.length < rounds + i) (hi : i ≤ addrs.length) :
    Places addrs (p.segmentLoop rounds addrs[i]? npos ncap len)
      (ByteArray.segmentLoop (s.nodes.drop i) i npos ncap len) := by
  induction rounds generalizing i npos ncap len with
  | zero => omega
  | succ rounds ih =>
    have hderef := h.deref i
    cases hnode : s.nodes[i]? with
    | none =>
      have hge := List.getElem?_eq_none_iff.mp hnode
      rw [List.getElem?_eq_none (by rw [h.chain.length]; omega), drop_nil hnode]
      rfl
    | some node =>
      obtain ⟨hdrop, hlt⟩ := h.drop_cons hnode
      have hq := List.getElem?_eq_getElem hlt
      have hplace : place addrs ⟨i, npos, if ncap ≥ len then len else ncap⟩ =
          ⟨addrs[i], npos, if ncap ≥ len then len else ncap⟩ := by
        rw [place, List.getD_eq_getElem?_getD, hq, Option.getD_some]
      rw [hq, hnode] at hderef
      rw [hq, LinkedByteArray.segmentLoop, hderef, hdrop, ByteArray.segmentLoop.eq_def]
      by_cases hfit : ncap ≥ len
      · simp only [hfit, ↓reduceIte] at hplace ⊢
        exact ⟨by rw [List.map_singleton, hplace], fun v hv => by
          rw [List.mem_singleton.mp hv]; exact hlt⟩
      · simp only [hfit, ↓reduceIte, h.deref] at hplace ⊢
        cases hnext : s.nodes[i + 1]? with
        | none =>
          rw [drop_nil hnext]
          rfl
        | some next =>
          obtain ⟨hdrop', -⟩ := h.drop_cons hnext
          have hrest := ih (i := i + 1) 0 next.size (len - ncap) (by omega) hlt
          rw [hdrop'] at hrest ⊢
          cases hbufs : ByteArray.segmentLoop (next :: s.nodes.drop (i + 1 + 1)) (i + 1) 0 next.size
              (len - ncap) with
          | none =>
            rw [hbufs] at hrest
            simp only [hbufs, Option.map_none]
            exact congrArg (Except.map _) hrest
          | some bufs =>
            rw [hbufs] at hrest
            simp only [hbufs, Option.map_some]
            refine ⟨?_, fun v hv => ?_⟩
            · rw [List.map_cons, hplace]
              exact congrArg (Except.map _) hrest.1
            · rcases List.mem_cons.mp hv with rfl | hv
              · exact hlt
              · exact hrest.2 v hv

theorem Places.cases {o : Except Fault (List Iovec)} {o' : Option (List ByteArray.Iovec)}
    (h : Laid others addrs k p s) (hplaces : Places addrs o o') :
    (o = .error .nullPointer ∧ o' = none) ∨
      ∃ bufs placed, o = .ok placed ∧ o' = some bufs ∧ placed.map p.segment = bufs.map s.segment := by
  cases o' with
  | none => exact .inl ⟨hplaces, rfl⟩
  | some bufs =>
    refine .inr ⟨bufs, _, hplaces.1, rfl, ?_⟩
    rw [List.map_map]
    exact List.map_congr_left fun v hv => h.segment (hplaces.2 v hv)

/-- Both levels take the room of the first buffer from the node under the cursor. -/
theorem Laid.buffersFrom (h : Laid others addrs k p s) {node : Node}
    (hnode : s.nodes[k]? = some node) (hi : i ≤ addrs.length) (position len : Nat) :
    Places addrs (p.buffersFrom addrs[i]? position len)
      (ByteArray.segmentLoop (s.nodes.drop i) i (position % s.baseSize)
        (node.size - position % s.baseSize) len) := by
  rw [LinkedByteArray.buffersFrom, h.deref_cur, hnode, h.baseSize]
  exact h.segmentLoop _ _ _ (by have := h.rounds_gt; omega) hi

theorem Laid.buffersFrom_null (h : Laid others addrs k p s) (hnode : s.nodes[k]? = none)
    (cur : Option Ptr) (position len : Nat) :
    p.buffersFrom cur position len = .error .nullPointer := by
  rw [LinkedByteArray.buffersFrom, h.deref_cur, hnode]

/-! ## The calls -/

theorem Stores.write (h : Stores others p s) (buf : List UInt8) :
    (p.write buf).Agrees (Stores others) (s.write buf) := by
  obtain ⟨addrs, k, h⟩ := h
  unfold LinkedByteArray.write ByteArray.write
  by_cases hbuf : buf.length = 0
  · simp only [hbuf, ↓reduceIte]
    exact ⟨rfl, addrs, k, h⟩
  by_cases hbase : s.baseSize = 0
  · simp only [hbuf, h.baseSize, hbase, ↓reduceIte]
    rfl
  simp only [hbuf, h.baseSize, hbase, ↓reduceIte]
  obtain ⟨p', hrun, addrs', k', h'⟩ := h.addCapacity buf.length
  rw [hrun, h'.chain_eq]
  simp only [h'.position, h'.baseSize]
  exact h'.writeLoop _ _ (by have := h'.rounds_gt; omega)

theorem Stores.read (h : Stores others p s) (n : Nat) :
    (p.read n).Agrees (Stores others) (s.read n) := by
  obtain ⟨addrs, k, h⟩ := h
  unfold LinkedByteArray.read ByteArray.read
  rw [h.getReadSize, h.baseSize, h.position, h.deref_cur, h.chain_eq]
  by_cases hshort : n > s.getReadSize
  · simp only [hshort, ↓reduceIte]
    exact ⟨rfl, addrs, k, h⟩
  by_cases hbase : s.baseSize = 0
  · simp only [hshort, hbase, ↓reduceIte]
    rfl
  simp only [hshort, hbase, ↓reduceIte]
  cases hnode : s.nodes[k]? with
  | none =>
    rw [drop_nil hnode]
    rfl
  | some node =>
    rw [(h.drop_cons hnode).1]
    by_cases hn : n = 0
    · simp only [hn, ↓reduceIte]
      exact ⟨rfl, addrs, k, h⟩
    · simp only [hn, ↓reduceIte]
      rw [← (h.drop_cons hnode).1]
      exact h.readLoop _ _ (by have := h.rounds_gt; omega)

theorem Stores.setPosition (h : Stores others p s) (v : Nat) :
    (p.setPosition v).Agrees (Stores others) (s.setPosition v) := by
  obtain ⟨addrs, k, h⟩ := h
  unfold LinkedByteArray.setPosition ByteArray.setPosition
  rw [← h.root]
  by_cases hout : v > s.capacity
  · simp only [h.capacity, hout, ↓reduceIte]
    exact ⟨rfl, addrs, k, h⟩
  have hout' : ¬ v > p.capacity := h.capacity.symm ▸ hout
  simp only [hout, hout', ↓reduceIte]
  have hrounds : addrs.length < p.rounds + 0 := h.rounds_gt
  have hseek := h.seekLoop v hrounds (Nat.zero_le _)
  rw [List.drop_zero] at hseek
  cases hcur : s.seekLoop s.nodes 0 v with
  | none =>
    rw [hcur] at hseek
    rw [show p.seekLoop p.rounds addrs[0]? v = _ from hseek]
    rfl
  | some cur =>
    rw [hcur] at hseek
    obtain ⟨j, hj, hrun, rfl⟩ := hseek
    rw [hrun]
    exact ⟨rfl, addrs, j, { h.point hj with position := rfl, size := by simp only [h.size] }⟩

theorem Stores.clear (h : Stores others p s) : p.clear.Agrees (Stores others) s.clear := by
  obtain ⟨addrs, k, h⟩ := h
  have hroot := h.deref 0
  obtain ⟨v, hv, hcell⟩ := h.chain.cell 0 _ h.root
  obtain ⟨memory, hfree, hchain⟩ := h.chain.cut h.root (Nat.le_of_lt h.rounds_gt)
  rw [h.root, hv] at hroot
  unfold LinkedByteArray.clear ByteArray.clear
  simp only [hroot, hfree]
  exact ⟨rfl, [p.root], 0, h.baseSize, rfl, h.baseSize, rfl, h.heap, hchain, rfl, rfl,
    Nat.zero_le _, rfl⟩

/-- The buffers under the cursor, through the pointers and through the chain. -/
theorem Laid.buffers_cur (h : Laid others addrs k p s) (len : Nat) :
    (p.buffersFrom p.cur p.position len = .error .nullPointer ∧
      (s.cur = none ∨ ∃ i, s.cur = some i ∧
        ByteArray.iovLoop s.chain i (s.position % s.baseSize) len = none)) ∨
    ∃ i bufs placed, p.buffersFrom p.cur p.position len = .ok placed ∧ s.cur = some i ∧
      ByteArray.iovLoop s.chain i (s.position % s.baseSize) len = some bufs ∧
      placed.map p.segment = bufs.map s.segment := by
  cases hnode : s.nodes[k]? with
  | none =>
    refine .inl ⟨h.buffersFrom_null hnode _ _ _, .inl ?_⟩
    have hge := List.getElem?_eq_none_iff.mp hnode
    rw [h.cur, if_neg (by rw [h.chain.length]; omega)]
  | some node =>
    obtain ⟨hdrop, hk⟩ := h.drop_cons hnode
    have hcur := h.cur.trans (if_pos hk)
    have hplaces := h.buffersFrom hnode h.inside p.position len
    rw [← h.cursor, hdrop, h.position, ByteArray.segmentLoop_eq, ← hdrop, ← h.chain_eq,
      ← h.position] at hplaces
    rcases hplaces.cases h with ⟨ho, ho'⟩ | ⟨bufs, placed, ho, ho', hsame⟩
    · exact .inl ⟨ho, .inr ⟨k, hcur, h.position ▸ ho'⟩⟩
    · exact .inr ⟨k, bufs, placed, ho, hcur, h.position ▸ ho', hsame⟩

theorem Stores.getWriteBuffers (h : Stores others p s) (len : Nat) {α : Type}
    (f : List (List UInt8) → α) :
    ((p.getWriteBuffers len).resolve fun p bufs => f (bufs.map p.segment)).Agrees (Stores others)
      ((s.getWriteBuffers len).resolve fun s bufs => f (bufs.map s.segment)) := by
  obtain ⟨addrs, k, h⟩ := h
  unfold LinkedByteArray.getWriteBuffers ByteArray.getWriteBuffers
  by_cases hlen : len = 0
  · simp only [hlen, ↓reduceIte]
    exact ⟨rfl, addrs, k, h⟩
  by_cases hbase : s.baseSize = 0
  · simp only [hlen, h.baseSize, hbase, ↓reduceIte]
    rfl
  simp only [hlen, h.baseSize, hbase, ↓reduceIte]
  obtain ⟨p', hrun, addrs', k', h'⟩ := h.addCapacity len
  rw [hrun]
  rcases h'.buffers_cur len with ⟨ho, hnone | ⟨i, hcur, hnone⟩⟩ | ⟨i, bufs, placed, ho, hcur, hbufs, hsame⟩
  · simp only [ho, hnone]
    rfl
  · simp only [ho, hcur, hnone]
    rfl
  · simp only [ho, hcur, hbufs]
    exact ⟨congrArg f hsame, addrs', k', h'⟩

theorem Stores.getReadBuffers (h : Stores others p s) (len : Nat) {α : Type}
    (f : Nat → List (List UInt8) → α) :
    ((p.getReadBuffers len).resolve fun p r => f r.1 (r.2.map p.segment)).Agrees (Stores others)
      ((s.getReadBuffers len).resolve fun s r => f r.1 (r.2.map s.segment)) := by
  obtain ⟨addrs, k, h⟩ := h
  unfold LinkedByteArray.getReadBuffers ByteArray.getReadBuffers
  rw [h.getReadSize]
  generalize (if len > s.getReadSize then s.getReadSize else len) = len
  by_cases hlen : len = 0
  · simp only [hlen, ↓reduceIte]
    exact ⟨rfl, addrs, k, h⟩
  by_cases hbase : s.baseSize = 0
  · simp only [hlen, h.baseSize, hbase, ↓reduceIte]
    rfl
  simp only [hlen, h.baseSize, hbase, ↓reduceIte]
  rcases h.buffers_cur len with ⟨ho, hnone | ⟨i, hcur, hnone⟩⟩ | ⟨i, bufs, placed, ho, hcur, hbufs, hsame⟩
  · simp only [ho, hnone]
    rfl
  · simp only [ho, hcur, hnone]
    rfl
  · simp only [ho, hcur, hbufs]
    exact ⟨congrArg (f len) hsame, addrs, k, h⟩

/-- The walk of the positional calls starts at the root. -/
theorem Laid.walk_root (h : Laid others addrs k p s) (count : Nat) :
    Points addrs (p.walk count (some p.root)) (s.walk count (some 0)) := by
  obtain ⟨hpos, -⟩ := List.getElem?_eq_some_iff.mp h.root
  have hwalk := h.walk count (Nat.zero_le _)
  rwa [if_pos hpos, h.root] at hwalk

theorem Stores.getReadBuffersAt (h : Stores others p s) (len position : Nat) {α : Type}
    (f : Nat → List (List UInt8) → α) :
    ((p.getReadBuffersAt len position).resolve fun p r => f r.1 (r.2.map p.segment)).Agrees
      (Stores others)
      ((s.getReadBuffersAt len position).resolve fun s r => f r.1 (r.2.map s.segment)) := by
  obtain ⟨addrs, k, h⟩ := h
  unfold LinkedByteArray.getReadBuffersAt ByteArray.getReadBuffersAt
  rw [h.getReadSize]
  generalize (if len > s.getReadSize then s.getReadSize else len) = len
  by_cases hlen : len = 0
  · simp only [hlen, ↓reduceIte]
    exact ⟨rfl, addrs, k, h⟩
  by_cases hbase : s.baseSize = 0
  · simp only [hlen, h.baseSize, hbase, ↓reduceIte]
    rfl
  simp only [hlen, h.baseSize, hbase, ↓reduceIte]
  have hwalk := h.walk_root (position / s.baseSize)
  cases hcur : s.walk (position / s.baseSize) (some 0) with
  | none =>
    rw [hcur] at hwalk
    rw [show p.walk _ _ = _ from hwalk]
    cases s.chain <;> rfl
  | some cur =>
    rw [hcur] at hwalk
    obtain ⟨j, hj, hrun, rfl⟩ := hwalk
    rw [hrun, h.chain_eq]
    cases hnode : s.nodes[k]? with
    | none =>
      rw [drop_nil hnode]
      simp only [h.buffersFrom_null hnode]
      rfl
    | some node =>
      have hplaces := h.buffersFrom hnode hj position len
      rw [(h.drop_cons hnode).1]
      by_cases hlt : j < addrs.length
      · simp only [hlt, ↓reduceIte]
        rcases hplaces.cases h with ⟨ho, ho'⟩ | ⟨bufs, placed, ho, ho', hsame⟩
        · simp only [ho, ho']
          rfl
        · simp only [ho, ho']
          exact ⟨congrArg (f len) hsame, addrs, k, h⟩
      · have hnil : s.nodes.drop j = [] :=
          List.drop_eq_nil_of_le (by rw [← h.chain.length]; omega)
        rw [hnil] at hplaces
        simp only [hlt, ↓reduceIte]
        rw [show p.buffersFrom addrs[j]? position len = _ from hplaces]
        rfl

theorem Stores.readAt (h : Stores others p s) (n position : Nat) :
    (p.readAt n position).Agrees (Stores others) (s.readAt n position) := by
  obtain ⟨addrs, k, h⟩ := h
  unfold LinkedByteArray.readAt ByteArray.readAt ByteArray.sizeFrom
  rw [h.size, h.baseSize, h.deref_cur, h.chain_eq]
  generalize (if position ≤ s.size then s.size - position else 2 ^ 64 - (position - s.size)) = left
  by_cases hshort : n > left
  · simp only [hshort, ↓reduceIte]
    exact ⟨rfl, addrs, k, h⟩
  by_cases hbase : s.baseSize = 0
  · simp only [hshort, hbase, ↓reduceIte]
    rfl
  simp only [hshort, hbase, ↓reduceIte]
  cases hnode : s.nodes[k]? with
  | none =>
    rw [drop_nil hnode]
    rfl
  | some node =>
    obtain ⟨hdrop, hk⟩ := h.drop_cons hnode
    have hwalk := h.walk_root (position / s.baseSize)
    rw [hdrop]
    cases hcur : s.walk (position / s.baseSize) (some 0) with
    | none =>
      rw [hcur] at hwalk
      simp only [show p.walk _ _ = _ from hwalk]
      rfl
    | some cur =>
      rw [hcur] at hwalk
      obtain ⟨j, hj, hrun, rfl⟩ := hwalk
      simp only [hrun, h.readAtLoop hk]
      cases s.readAtLoop node (n + 1) _ _ _ n with
      | none => rfl
      | some bytes => exact ⟨rfl, addrs, k, h⟩

end

end LinkedByteArray
end TwServer
