import TwServer.Lib.Runs
import TwServer.TcpServer.Bind

/-! The life of a `TcpServer`: `bind`, `start` and `stop` from outside, and the tasks that they and
the acceptors schedule, begun and interleaved in any order. A listening `Socket` is open while
`m_socks` or an acceptor refers to it and nobody closed it. Connections are numbered in the order
in which `accept` returns them. -/

namespace TwServer
open Programs Runs

namespace TcpServer

inductive Task where
  | startAccept (sock : Nat)
  /-- what `stop` schedules -/
  | closeSocks
  | handleClient (client : Nat)
  deriving DecidableEq

/-- A task that has begun, by what it does next. -/
inductive Fiber where
  | testing (sock : Nat)
  | accepting (sock : Nat)
  | scheduling (sock client : Nat)
  /-- at the first of `rest`, behind `past` -/
  | closing (past rest : List Nat)
  | handling (client : Nat)
  deriving DecidableEq

def Task.sock : Task → Option Nat
  | startAccept x => some x
  | _ => none

def Fiber.sock : Fiber → Option Nat
  | testing x | accepting x | scheduling x _ => some x
  | _ => none

def Task.client : Task → Option Nat
  | handleClient c => some c
  | _ => none

def Fiber.client : Fiber → Option Nat
  | scheduling _ c | handling c => some c
  | _ => none

def Fiber.isClosing : Fiber → Bool
  | closing _ _ => true
  | _ => false

def Fiber.isAccepting : Fiber → Bool
  | accepting _ => true
  | _ => false

/-- What a task does first, with `m_socks` as it is then. -/
def Task.begin (socks : List Nat) : Task → Fiber
  | startAccept x => .testing x
  | closeSocks => .closing [] socks
  | handleClient c => .handling c

structure State where
  socks : List Nat
  isStop : Bool
  isOpen : Nat → Bool
  bound : Nat
  tasks : List Task
  fibers : List Fiber
  accepted : Nat
  handled : List Nat

namespace State

/-- A `Socket::ptr` to the socket is left. -/
def Refers (s : State) (x : Nat) : Prop :=
  x ∈ s.socks ∨ (∃ t ∈ s.tasks, t.sock = some x) ∨ ∃ f ∈ s.fibers, f.sock = some x

instance (s : State) (x : Nat) : Decidable (s.Refers x) := by unfold Refers; infer_instance

/-- The destructors of the sockets that nothing refers to any more. -/
def release (s : State) : State := { s with isOpen := fun x => s.isOpen x && decide (s.Refers x) }

/-- Every connection that was accepted, wherever it is by now. -/
def clients (s : State) : List Nat :=
  s.tasks.filterMap Task.client ++ s.fibers.filterMap Fiber.client ++ s.handled

end State

inductive Label where
  | bind
  | start
  | stop
  /-- the task of a `stop` begins -/
  | walk
  | task
  deriving DecidableEq

def Task.label : Task → Label
  | closeSocks => .walk
  | startAccept _ | handleClient _ => .task

/-- `bind` and `start` are one step each. The task of `stop` walks `m_socks` as it is, and comes to
an element only while nobody else has changed the vector: with invalid iterators the code is
undefined. -/
inductive Step : State → Label → State → Prop
  | bind {s : State} (n : Nat) :
      Step s .bind { s with
        socks := s.socks ++ List.range' s.bound n
        isOpen := fun x => s.isOpen x || decide (s.bound ≤ x ∧ x < s.bound + n)
        bound := s.bound + n }
  | bindFails {s : State} : Step s .bind { s with socks := [] }.release
  | start {s : State} (stopped : s.isStop = true) :
      Step s .start { s with isStop := false, tasks := s.tasks ++ s.socks.map .startAccept }
  | started {s : State} (running : s.isStop = false) : Step s .start s
  | stop {s : State} : Step s .stop { s with isStop := true, tasks := s.tasks ++ [.closeSocks] }
  | begin {s : State} {pre post : List Task} {t : Task} (tasks : s.tasks = pre ++ t :: post) :
      Step s t.label { s with tasks := pre ++ post, fibers := t.begin s.socks :: s.fibers }
  | test {s : State} {pre post : List Fiber} {x : Nat}
      (fibers : s.fibers = pre ++ .testing x :: post) (running : s.isStop = false) :
      Step s .task { s with fibers := pre ++ .accepting x :: post }
  | leave {s : State} {pre post : List Fiber} {x : Nat}
      (fibers : s.fibers = pre ++ .testing x :: post) (stopped : s.isStop = true) :
      Step s .task { s with fibers := pre ++ post }.release
  | accept {s : State} {pre post : List Fiber} {x : Nat}
      (fibers : s.fibers = pre ++ .accepting x :: post) (isOpen : s.isOpen x = true) :
      Step s .task
        { s with fibers := pre ++ .scheduling x s.accepted :: post, accepted := s.accepted + 1 }
  | acceptFails {s : State} {pre post : List Fiber} {x : Nat}
      (fibers : s.fibers = pre ++ .accepting x :: post) :
      Step s .task { s with fibers := pre ++ .testing x :: post }
  | schedule {s : State} {pre post : List Fiber} {x client : Nat}
      (fibers : s.fibers = pre ++ .scheduling x client :: post) :
      Step s .task
        { s with tasks := s.tasks ++ [.handleClient client], fibers := pre ++ .testing x :: post }
  | close {s : State} {pre post : List Fiber} {x : Nat} {past rest : List Nat}
      (fibers : s.fibers = pre ++ .closing past (x :: rest) :: post)
      (valid : s.socks = past ++ x :: rest) :
      Step s .task
        { s with
          isOpen := Function.update s.isOpen x false
          fibers := pre ++ .closing (past ++ [x]) rest :: post }
  | clear {s : State} {pre post : List Fiber} {past : List Nat}
      (fibers : s.fibers = pre ++ .closing past [] :: post) :
      Step s .task { s with socks := [], fibers := pre ++ post }.release
  | handle {s : State} {pre post : List Fiber} {client : Nat}
      (fibers : s.fibers = pre ++ .handling client :: post) :
      Step s .task { s with fibers := pre ++ post, handled := s.handled ++ [client] }

def init (s : State) : Prop :=
  s.socks = [] ∧ s.isStop = true ∧ (∀ x, s.isOpen x = false) ∧ s.tasks = [] ∧ s.fibers = [] ∧
    s.accepted = 0 ∧ s.handled = []

def machine : System State Label := ⟨init, Step⟩

/-- A call of `bind` that comes back is a step, which leaves as many sockets. -/
theorem bind_step {addrs : List Attempt} {server server' : TcpServer} {fails fails' : List Address}
    {r : Bool} (hbind : TcpServer.bind addrs (server, fails) = .ok r (server', fails')) {s : State}
    (hsocks : s.socks.length = server.mSocks.length) :
    ∃ s', Step s .bind s' ∧ s'.socks.length = server'.mSocks.length := by
  by_cases hcrash : ∃ t ∈ addrs, t.crashes = true
  · rw [TcpServer.bind, bindLoop_fault hcrash] at hbind
    cases hbind
  · have hsafe : ∀ t ∈ addrs, t.crashes = false := by simpa using hcrash
    simp only [TcpServer.bind, bindLoop_eq hsafe] at hbind
    by_cases hfails : fails ++ addrs.flatMap Attempt.failing = []
    · rw [if_pos hfails] at hbind
      cases hbind
      exact ⟨_, .bind (addrs.filterMap Attempt.newSocket).length, by simp [hsocks]⟩
    · rw [if_neg hfails] at hbind
      cases hbind
      exact ⟨_, .bindFails, rfl⟩

/-! ## What every step keeps -/

structure Inv (s : State) : Prop where
  clients : s.clients.Perm (List.range s.accepted)
  refers : ∀ x, s.isOpen x = true → s.Refers x

theorem refers_release {s : State} {x : Nat} (h : s.release.isOpen x = true) :
    s.isOpen x = true ∧ s.release.Refers x := by
  obtain ⟨hopen, hrefers⟩ := Bool.and_eq_true_iff.mp h
  exact ⟨hopen, of_decide_eq_true hrefers⟩

theorem open_of_update {f : Nat → Bool} {x y : Nat} (h : Function.update f y false x = true) :
    x ≠ y ∧ f x = true := by
  by_cases hxy : x = y
  · rw [hxy, Function.update_self] at h
    cases h
  · rw [Function.update_of_ne hxy] at h
    exact ⟨hxy, h⟩

theorem mem_split {s : State} {pre post : List Fiber} {f : Fiber}
    (fibers : s.fibers = pre ++ f :: post) : f ∈ s.fibers := by
  rw [fibers]
  exact List.mem_append_right _ List.mem_cons_self

/-- A fiber that goes on keeps its reference. -/
theorem refers_replaced {s s' : State} {pre post : List Fiber} {f f' : Fiber} {x : Nat}
    (fibers : s.fibers = pre ++ f :: post) (fibers' : s'.fibers = pre ++ f' :: post)
    (hsocks : s'.socks = s.socks) (htasks : ∀ t ∈ s.tasks, t ∈ s'.tasks)
    (hsock : f'.sock = f.sock) (h : s.Refers x) : s'.Refers x := by
  unfold State.Refers
  rw [fibers', hsocks]
  rcases h with hmem | ⟨t, ht, hx⟩ | ⟨g, hg, hx⟩
  · exact .inl hmem
  · exact .inr (.inl ⟨t, htasks t ht, hx⟩)
  · refine .inr (.inr ?_)
    rw [fibers] at hg
    rcases List.mem_append.mp hg with hg | hg
    · exact ⟨g, List.mem_append_left _ hg, hx⟩
    · rcases List.mem_cons.mp hg with rfl | hg
      · exact ⟨f', List.mem_append_right _ List.mem_cons_self, hsock.trans hx⟩
      · exact ⟨g, List.mem_append_right _ (List.mem_cons_of_mem _ hg), hx⟩

theorem Task.sock_begin (t : Task) (socks : List Nat) : (t.begin socks).sock = t.sock := by
  cases t <;> rfl

theorem Task.client_begin (t : Task) (socks : List Nat) : (t.begin socks).client = t.client := by
  cases t <;> rfl

/-- Each connection goes from place to place. -/
theorem Inv.clients_step {s s' : State} {l : Label} (h : Inv s) (hstep : Step s l s') :
    s'.clients.Perm (List.range s'.accepted) := by
  have hcount := List.perm_iff_count.mp h.clients
  unfold State.clients at hcount
  refine List.perm_iff_count.mpr fun c => ?_
  have hc := hcount c
  cases hstep with
  | bind n => exact hc
  | bindFails => exact hc
  | started running => exact hc
  | start stopped =>
    have hnone : (s.socks.map Task.startAccept).filterMap Task.client = [] :=
      List.filterMap_eq_nil_iff.mpr fun t ht => by
        obtain ⟨x, -, rfl⟩ := List.mem_map.mp ht
        rfl
    simpa [State.clients, hnone] using hc
  | stop => simpa [State.clients, Task.client, List.filterMap_cons] using hc
  | «begin» tasks =>
    simp only [State.clients, tasks, List.filterMap_append, List.filterMap_cons,
      Task.client_begin, List.count_append] at hc ⊢
    rename_i t
    cases hclient : t.client <;> simp only [hclient, List.count_cons] at hc ⊢ <;> omega
  | test fibers running =>
    simpa [State.clients, fibers, Fiber.client, List.filterMap_cons] using hc
  | leave fibers stopped =>
    simpa [State.clients, State.release, fibers, Fiber.client, List.filterMap_cons] using hc
  | accept fibers isOpen =>
    simp only [State.clients, fibers, List.filterMap_append, List.filterMap_cons, Fiber.client,
      List.count_append, List.count_cons, List.range_succ, List.count_nil] at hc ⊢
    omega
  | acceptFails fibers =>
    simpa [State.clients, fibers, Fiber.client, List.filterMap_cons] using hc
  | schedule fibers =>
    simp only [State.clients, fibers, List.filterMap_append, List.filterMap_cons, Fiber.client,
      Task.client, List.count_append, List.count_cons, List.filterMap_nil, List.count_nil] at hc ⊢
    omega
  | close fibers valid =>
    simpa [State.clients, fibers, Fiber.client, List.filterMap_cons] using hc
  | clear fibers =>
    simpa [State.clients, State.release, fibers, Fiber.client, List.filterMap_cons] using hc
  | handle fibers =>
    simp only [State.clients, fibers, List.filterMap_append, List.filterMap_cons, Fiber.client,
      List.count_append, List.count_cons, List.count_nil] at hc ⊢
    omega

theorem Inv.refers_step {s s' : State} {l : Label} (h : Inv s) (hstep : Step s l s') (x : Nat)
    (hx : s'.isOpen x = true) : s'.Refers x := by
  cases hstep with
  | bind n =>
    rcases Bool.or_eq_true_iff.mp hx with hold | hnew
    · rcases h.refers x hold with hsocks | hrest
      · exact .inl (List.mem_append_left _ hsocks)
      · exact .inr hrest
    · obtain ⟨hle, hlt⟩ := of_decide_eq_true hnew
      exact .inl (List.mem_append_right _ (List.mem_range'_1.mpr ⟨hle, hlt⟩))
  | bindFails => exact (refers_release hx).2
  | started running => exact h.refers x hx
  | start stopped =>
    rcases h.refers x hx with hsocks | ⟨t, ht, hsock⟩ | hfiber
    · exact .inl hsocks
    · exact .inr (.inl ⟨t, List.mem_append_left _ ht, hsock⟩)
    · exact .inr (.inr hfiber)
  | stop =>
    rcases h.refers x hx with hsocks | ⟨t, ht, hsock⟩ | hfiber
    · exact .inl hsocks
    · exact .inr (.inl ⟨t, List.mem_append_left _ ht, hsock⟩)
    · exact .inr (.inr hfiber)
  | «begin» tasks =>
    rename_i t
    rcases h.refers x hx with hsocks | ⟨u, hu, hsock⟩ | ⟨f, hf, hsock⟩
    · exact .inl hsocks
    · rw [tasks] at hu
      rcases List.mem_append.mp hu with hu | hu
      · exact .inr (.inl ⟨u, List.mem_append_left _ hu, hsock⟩)
      · rcases List.mem_cons.mp hu with rfl | hu
        · exact .inr (.inr ⟨_, List.mem_cons_self, (u.sock_begin s.socks).trans hsock⟩)
        · exact .inr (.inl ⟨u, List.mem_append_right _ hu, hsock⟩)
    · exact .inr (.inr ⟨f, List.mem_cons_of_mem _ hf, hsock⟩)
  | test fibers running =>
    exact refers_replaced fibers rfl rfl (fun _ ht => ht) rfl (h.refers x hx)
  | leave fibers stopped => exact (refers_release hx).2
  | accept fibers isOpen =>
    exact refers_replaced fibers rfl rfl (fun _ ht => ht) rfl (h.refers x hx)
  | acceptFails fibers =>
    exact refers_replaced fibers rfl rfl (fun _ ht => ht) rfl (h.refers x hx)
  | schedule fibers =>
    exact refers_replaced fibers rfl rfl (fun _ ht => List.mem_append_left _ ht) rfl (h.refers x hx)
  | close fibers valid =>
    rename_i pre post y rest
    have hold := (open_of_update hx).2
    exact refers_replaced fibers rfl rfl (fun _ ht => ht) rfl (h.refers x hold)
  | clear fibers => exact (refers_release hx).2
  | handle fibers =>
    rcases h.refers x hx with hsocks | htask | ⟨f, hf, hsock⟩
    · exact .inl hsocks
    · exact .inr (.inl htask)
    · refine .inr (.inr ⟨f, ?_, hsock⟩)
      rw [fibers] at hf
      rcases List.mem_append.mp hf with hf | hf
      · exact List.mem_append_left _ hf
      · rcases List.mem_cons.mp hf with rfl | hf
        · cases hsock
        · exact List.mem_append_right _ hf

theorem inductive_inv : machine.Inductive Inv where
  init s := by
    rintro ⟨hsocks, -, hopen, htasks, hfibers, haccepted, hhandled⟩
    refine ⟨?_, fun x hx => ?_⟩
    · simp [State.clients, htasks, hfibers, haccepted, hhandled]
    · rw [hopen] at hx
      cases hx
  step s l s' h hstep := ⟨h.clients_step hstep, h.refers_step hstep⟩

/-! ## One at a time on `m_socks` -/

/-- `bind`, `start` and the task of another `stop` keep away from `m_socks` while the task of a
`stop` walks it. -/
def Apart (s : State) : Label → Prop
  | .bind | .start | .walk => ∀ f ∈ s.fibers, f.isClosing = false
  | .stop | .task => True

/-- Only one task of `stop` walks `m_socks`, and has closed what is behind it. -/
structure Walks (s : State) : Prop where
  one : s.fibers.countP Fiber.isClosing ≤ 1
  closing : ∀ past rest, .closing past rest ∈ s.fibers →
    s.socks = past ++ rest ∧ ∀ x ∈ past, s.isOpen x = false

theorem Walks.of_none {s : State} (h : ∀ f ∈ s.fibers, f.isClosing = false) : Walks s := by
  refine ⟨?_, fun past rest hmem => Bool.noConfusion (h _ hmem)⟩
  rw [List.countP_eq_zero.mpr fun f hf => by simp [h f hf]]
  exact Nat.zero_le 1

/-- A step of a fiber that does not walk. -/
theorem Walks.fiber {s s' : State} (h : Walks s) {pre post : List Fiber} {f : Fiber}
    (mid : List Fiber) (fibers : s.fibers = pre ++ f :: post)
    (fibers' : s'.fibers = pre ++ mid ++ post) (hmid : ∀ g ∈ mid, g.isClosing = false)
    (hsocks : s'.socks = s.socks) (hopen : ∀ x, s'.isOpen x = true → s.isOpen x = true) :
    Walks s' := by
  refine ⟨?_, fun past rest hmem => ?_⟩
  · have hone := h.one
    have hnone : mid.countP Fiber.isClosing = 0 :=
      List.countP_eq_zero.mpr fun g hg => by simp [hmid g hg]
    simp only [fibers, fibers', List.countP_append, List.countP_cons, hnone] at hone ⊢
    omega
  · have hold : .closing past rest ∈ s.fibers := by
      rw [fibers', List.append_assoc, List.mem_append, List.mem_append] at hmem
      rw [fibers]
      rcases hmem with hpre | hnew | hpost
      · exact List.mem_append_left _ hpre
      · exact Bool.noConfusion (hmid _ hnew)
      · exact List.mem_append_right _ (List.mem_cons_of_mem _ hpost)
    obtain ⟨hall, hclosed⟩ := h.closing past rest hold
    refine ⟨hsocks.trans hall, fun x hx => Bool.eq_false_iff.mpr fun hx' => ?_⟩
    exact Bool.noConfusion ((hclosed x hx).symm.trans (hopen x hx'))

/-- Beside the fiber that walks no other does. -/
theorem Walks.others {s : State} (h : Walks s) {pre post : List Fiber} {past rest : List Nat}
    (fibers : s.fibers = pre ++ .closing past rest :: post) :
    ∀ f ∈ pre ++ post, f.isClosing = false := by
  have hone := h.one
  rw [fibers, List.countP_append, List.countP_cons_of_pos (by rfl)] at hone
  have hnone : (pre ++ post).countP Fiber.isClosing = 0 := by
    rw [List.countP_append]
    omega
  intro f hf
  simpa using List.countP_eq_zero.mp hnone f hf

theorem Walks.step {s s' : State} {l : Label} (h : Walks s) (hstep : Step s l s')
    (hl : Apart s l) : Walks s' := by
  cases hstep with
  | bind n => exact Walks.of_none hl
  | bindFails => exact Walks.of_none hl
  | start stopped => exact Walks.of_none hl
  | started running => exact h
  | stop => exact ⟨h.one, h.closing⟩
  | «begin» tasks =>
    rename_i pre post t
    have hquiet : t ≠ .closeSocks → (t.begin s.socks).isClosing = false := by
      intro ht
      cases t with
      | closeSocks => exact absurd rfl ht
      | _ => rfl
    by_cases ht : t = .closeSocks
    · subst ht
      refine ⟨?_, fun past rest hmem => ?_⟩
      · have hnone : s.fibers.countP Fiber.isClosing = 0 :=
          List.countP_eq_zero.mpr fun f hf => by simp [show f.isClosing = false from hl f hf]
        rw [List.countP_cons_of_pos (by rfl), hnone]
      · rcases List.mem_cons.mp hmem with hnew | hold
        · obtain ⟨rfl, rfl⟩ := Fiber.closing.inj hnew
          exact ⟨rfl, fun x hx => by cases hx⟩
        · exact Bool.noConfusion (hl _ hold)
    · refine ⟨?_, fun past rest hmem => ?_⟩
      · rw [List.countP_cons_of_neg (by simp [hquiet ht])]
        exact h.one
      · rcases List.mem_cons.mp hmem with hnew | hold
        · have hclosing := hquiet ht
          rw [← hnew] at hclosing
          cases hclosing
        · exact h.closing past rest hold
  | test fibers running =>
    exact h.fiber [.accepting _] fibers (List.append_cons ..) (by simp [Fiber.isClosing]) rfl
      fun _ => id
  | leave fibers stopped =>
    exact h.fiber [] fibers (by simp [State.release]) (by simp) rfl fun x hx =>
      (refers_release hx).1
  | accept fibers isOpen =>
    exact h.fiber [.scheduling _ _] fibers (List.append_cons ..) (by simp [Fiber.isClosing]) rfl
      fun _ => id
  | acceptFails fibers =>
    exact h.fiber [.testing _] fibers (List.append_cons ..) (by simp [Fiber.isClosing]) rfl
      fun _ => id
  | schedule fibers =>
    exact h.fiber [.testing _] fibers (List.append_cons ..) (by simp [Fiber.isClosing]) rfl
      fun _ => id
  | close fibers valid =>
    rename_i pre post x past rest
    have hothers := h.others fibers
    refine ⟨?_, fun past' rest' hmem => ?_⟩
    · have hone := h.one
      simpa [fibers, List.countP_cons, Fiber.isClosing] using hone
    · rcases List.mem_append.mp hmem with hpre | hmem
      · exact Bool.noConfusion (hothers _ (List.mem_append_left _ hpre))
      · rcases List.mem_cons.mp hmem with hnew | hpost
        · obtain ⟨rfl, rfl⟩ := Fiber.closing.inj hnew
          refine ⟨by simpa using valid, fun y hy => ?_⟩
          refine Bool.eq_false_iff.mpr fun hopen => ?_
          obtain ⟨hne, hbefore⟩ := open_of_update hopen
          rcases List.mem_append.mp hy with hpast | hnow
          · have hclosed := (h.closing _ _ (mem_split fibers)).2 y hpast
            exact Bool.noConfusion (hclosed.symm.trans hbefore)
          · exact hne (List.mem_singleton.mp hnow)
        · exact Bool.noConfusion (hothers _ (List.mem_append_right _ hpost))
  | clear fibers => exact Walks.of_none (h.others fibers)
  | handle fibers => exact h.fiber [] fibers (by simp) (by simp) rfl fun _ => id

theorem apart_walks {s : State} (h : Reachable (machine.restrict Apart) s) : Walks s := by
  induction h with
  | init hs =>
    obtain ⟨-, -, -, -, hfibers, -, -⟩ := hs
    exact Walks.of_none fun f hf => by
      rw [hfibers] at hf
      cases hf
  | step _ hstep ih => exact ih.step hstep.1 hstep.2

/-! ## After `stop` -/

/-- What a run without `bind` and `start` keeps of the state `s₀` in which `stop` was called. -/
structure Stopping (s₀ s : State) : Prop where
  stopped : s.isStop = true
  /-- who has passed the test may still accept -/
  bounded : s.accepted + s.fibers.countP Fiber.isAccepting ≤
    s₀.accepted + s₀.fibers.countP Fiber.isAccepting
  pending : .closeSocks ∈ s.tasks ∨ (∃ f ∈ s.fibers, f.isClosing = true) ∨ s.socks = []
  listed : ∀ x ∈ s₀.socks, s.isOpen x = true → x ∈ s.socks

theorem stop_step {s s' : State} (h : Step s .stop s') :
    s' = { s with isStop := true, tasks := s.tasks ++ [.closeSocks] } := by
  generalize hl : Label.stop = l at h
  cases h with
  | stop => rfl
  | «begin» tasks =>
    rename_i t
    cases t <;> cases hl
  | _ => cases hl

theorem Stopping.of_stop {s₀ s : State} (hstep : Step s₀ .stop s) : Stopping s₀ s := by
  rw [stop_step hstep]
  exact ⟨rfl, Nat.le_refl _, .inl (List.mem_append_right _ List.mem_cons_self), fun _ hx _ => hx⟩

/-- A step of one fiber, which goes on as `mid` or ends. -/
theorem Stopping.fiber {s₀ s s' : State} (h : Stopping s₀ s) {pre post : List Fiber} {f : Fiber}
    (mid : List Fiber) (fibers : s.fibers = pre ++ f :: post)
    (fibers' : s'.fibers = pre ++ mid ++ post) (hstop : s'.isStop = s.isStop)
    (hbound : s'.accepted + mid.countP Fiber.isAccepting ≤
      s.accepted + [f].countP Fiber.isAccepting)
    (htasks : .closeSocks ∈ s.tasks → .closeSocks ∈ s'.tasks)
    (hclosing : f.isClosing = true → (∃ g ∈ mid, g.isClosing = true) ∨ s'.socks = [])
    (hsocks : s.socks = [] → s'.socks = [])
    (hopen : ∀ x, s'.isOpen x = true → s.isOpen x = true ∧ (x ∈ s.socks → x ∈ s'.socks)) :
    Stopping s₀ s' := by
  refine ⟨hstop.trans h.stopped, ?_, ?_, fun x hx hx' => ?_⟩
  · have hbefore := h.bounded
    simp only [fibers, fibers', List.countP_append, List.countP_cons, List.countP_nil] at *
    omega
  · rcases h.pending with htask | ⟨g, hg, hclose⟩ | hnil
    · exact .inl (htasks htask)
    · rw [fibers] at hg
      rcases List.mem_append.mp hg with hg | hg
      · exact .inr (.inl ⟨g, by simp [fibers', hg], hclose⟩)
      · rcases List.mem_cons.mp hg with rfl | hg
        · rcases hclosing hclose with ⟨g', hg', hclose'⟩ | hnil
          · exact .inr (.inl ⟨g', by simp [fibers', hg'], hclose'⟩)
          · exact .inr (.inr hnil)
        · exact .inr (.inl ⟨g, by simp [fibers', hg], hclose⟩)
    · exact .inr (.inr (hsocks hnil))
  · obtain ⟨hold, hmem⟩ := hopen x hx'
    exact hmem (h.listed x hx hold)

theorem Stopping.step {s₀ s s' : State} {l : Label} (hwalks : Walks s) (h : Stopping s₀ s)
    (hstep : Step s l s') (hl : l ≠ .bind ∧ l ≠ .start) : Stopping s₀ s' := by
  cases hstep with
  | bind n => exact absurd rfl hl.1
  | bindFails => exact absurd rfl hl.1
  | start stopped => exact absurd rfl hl.2
  | started running => exact h
  | stop =>
    exact ⟨rfl, h.bounded, .inl (List.mem_append_right _ List.mem_cons_self), h.listed⟩
  | «begin» tasks =>
    rename_i pre post t
    refine ⟨h.stopped, ?_, ?_, h.listed⟩
    · have hquiet : (t.begin s.socks).isAccepting = false := by cases t <;> rfl
      show s.accepted + (t.begin s.socks :: s.fibers).countP Fiber.isAccepting ≤ _
      rw [List.countP_cons_of_neg (by simp [hquiet])]
      exact h.bounded
    · rcases h.pending with htask | ⟨f, hf, hclose⟩ | hnil
      · rw [tasks] at htask
        rcases List.mem_append.mp htask with hpre | hpost
        · exact .inl (List.mem_append_left _ hpre)
        · rcases List.mem_cons.mp hpost with rfl | hpost
          · exact .inr (.inl ⟨_, List.mem_cons_self, rfl⟩)
          · exact .inl (List.mem_append_right _ hpost)
      · exact .inr (.inl ⟨f, List.mem_cons_of_mem _ hf, hclose⟩)
      · exact .inr (.inr hnil)
  | test fibers running => exact absurd (h.stopped.symm.trans running) (by decide)
  | leave fibers stopped =>
    exact h.fiber [] fibers (by simp [State.release]) rfl (by simp [State.release]) id
      (fun hclose => by cases hclose) id fun x hx => ⟨(refers_release hx).1, id⟩
  | accept fibers isOpen =>
    rename_i pre post x
    exact h.fiber [.scheduling x s.accepted] fibers (by simp) rfl
      (by simp [Fiber.isAccepting]) id (fun hclose => by cases hclose) id fun x hx => ⟨hx, id⟩
  | acceptFails fibers =>
    rename_i pre post x
    exact h.fiber [.testing x] fibers (by simp) rfl (by simp [List.countP_cons, Fiber.isAccepting])
      id (fun hclose => by cases hclose) id fun x hx => ⟨hx, id⟩
  | schedule fibers =>
    rename_i pre post x client
    exact h.fiber [.testing x] fibers (by simp) rfl (by simp [Fiber.isAccepting])
      (List.mem_append_left _) (fun hclose => by cases hclose) id fun x hx => ⟨hx, id⟩
  | close fibers valid =>
    rename_i pre post x past rest
    exact h.fiber [.closing (past ++ [x]) rest] fibers (by simp) rfl
      (by simp [Fiber.isAccepting]) id
      (fun _ => .inl ⟨_, List.mem_singleton_self _, rfl⟩) id
      fun y hy => ⟨(open_of_update hy).2, id⟩
  | clear fibers =>
    -- all that was in `m_socks` is closed by now
    refine h.fiber [] fibers (by simp [State.release]) rfl (by simp [State.release]) id
      (fun _ => .inr rfl) (fun _ => rfl) fun x hx => ⟨(refers_release hx).1, fun hmem => ?_⟩
    obtain ⟨hall, hclosed⟩ := hwalks.closing _ _ (mem_split fibers)
    rw [hall, List.append_nil] at hmem
    exact Bool.noConfusion ((hclosed x hmem).symm.trans (refers_release hx).1)
  | handle fibers =>
    exact h.fiber [] fibers (by simp) rfl (by simp) id (fun hclose => by cases hclose) id
      fun x hx => ⟨hx, id⟩

theorem stopping_run {s₀ s s' : State} {ls : List Label}
    (hrun : Run (machine.restrict Apart) s ls s') (hls : .bind ∉ ls ∧ .start ∉ ls)
    (hinv : Inv s) (hwalks : Walks s) (h : Stopping s₀ s) : Inv s' ∧ Stopping s₀ s' := by
  induction hrun with
  | refl s => exact ⟨hinv, h⟩
  | next hstep _ ih =>
    obtain ⟨hbind, hbinds⟩ := List.ne_and_not_mem_of_not_mem_cons hls.1
    obtain ⟨hstart, hstarts⟩ := List.ne_and_not_mem_of_not_mem_cons hls.2
    exact ih ⟨hbinds, hstarts⟩ (inductive_inv.step _ _ _ hinv hstep.1)
      (hwalks.step hstep.1 hstep.2) (h.step hwalks hstep.1 ⟨hbind.symm, hstart.symm⟩)

/-! ## What becomes of connections and sockets -/

/-- Every connection that `accept` returned is in one place: a task, the fiber that accepted it or
handles it, or behind `handleClient`; and every open listening socket is in `m_socks` or in the
hands of an acceptor. -/
theorem clients_once {s : State} (h : Reachable machine s) :
    s.clients.Perm (List.range s.accepted) ∧ ∀ x, s.isOpen x = true → s.Refers x :=
  ⟨(inductive_inv.reachable h).clients, (inductive_inv.reachable h).refers⟩

/-- A server without sockets or tasks. -/
def closed : State := ⟨[], true, fun _ => false, 0, [], [], 0, []⟩

/-- Its socket is bound and its acceptor waits in `accept`. -/
def waiting : State :=
  ⟨[0], false, fun x => decide (x = 0), 1, [], [.accepting 0], 0, []⟩

theorem reachable_waiting : Reachable (machine.restrict Apart) waiting := by
  have hinit : machine.init closed := ⟨rfl, rfl, fun _ => rfl, rfl, rfl, rfl, rfl⟩
  have hbind : Step closed .bind ⟨[0], true, fun x => decide (x = 0), 1, [], [], 0, []⟩ := by
    have hnew := @Step.bind closed 1
    simpa [closed, Nat.lt_one_iff] using hnew
  have hclosed : Reachable (machine.restrict Apart) closed := .init hinit
  have hbound := hclosed.step ⟨hbind, by simp [Apart, closed]⟩
  have hstart := hbound.step ⟨Step.start rfl, by simp [Apart]⟩
  have hbegun := hstart.step ⟨@Step.begin _ [] [] (.startAccept 0) rfl, trivial⟩
  exact hbegun.step ⟨@Step.test _ [] [] 0 rfl rfl, trivial⟩

/-- One connection is handled, the next is in the queue, and the acceptor has a third. -/
theorem clients_once_accepted : ∃ s : State, s.handled = [0] ∧ s.tasks = [.handleClient 1] ∧
    s.fibers = [.scheduling 0 2] ∧ s.clients.Perm (List.range 3) ∧
      ∀ x, s.isOpen x = true → s.Refers x := by
  have hfirst := reachable_waiting.of_restrict.step (@Step.accept _ [] [] 0 rfl rfl)
  have hqueued := hfirst.step (@Step.schedule _ [] [] 0 0 rfl)
  have hbegun := hqueued.step (@Step.begin _ [] [] (.handleClient 0) rfl)
  have hhandled := hbegun.step (@Step.handle _ [] [.testing 0] 0 rfl)
  have hagain := hhandled.step (@Step.test _ [] [] 0 rfl rfl)
  have hsecond := hagain.step (@Step.accept _ [] [] 0 rfl rfl)
  have hqueued' := hsecond.step (@Step.schedule _ [] [] 0 1 rfl)
  have hagain' := hqueued'.step (@Step.test _ [] [] 0 rfl rfl)
  have hthird := hagain'.step (@Step.accept _ [] [] 0 rfl rfl)
  exact ⟨_, rfl, rfl, rfl, clients_once hthird⟩

/-- From a `stop()` on, until the next `bind` or `start`: no more connections are accepted than
acceptors had passed the test of `m_isStop`; when the tasks of `stop` are done, `m_socks` is empty
and all that was in it is closed; and when everything has ended, no socket is open and every
connection was handled once. -/
theorem stop_ends {s₀ s s' : State} {ls : List Label}
    (h : Reachable (machine.restrict Apart) s₀) (hstop : Step s₀ .stop s)
    (hrun : Run (machine.restrict Apart) s ls s') (hls : .bind ∉ ls ∧ .start ∉ ls) :
    s'.accepted ≤ s₀.accepted + s₀.fibers.countP Fiber.isAccepting ∧
    (.closeSocks ∉ s'.tasks → (∀ f ∈ s'.fibers, f.isClosing = false) →
      s'.socks = [] ∧ ∀ x ∈ s₀.socks, s'.isOpen x = false) ∧
    (s'.tasks = [] → s'.fibers = [] →
      (∀ x, s'.isOpen x = false) ∧ s'.handled.Perm (List.range s'.accepted)) := by
  have hinv := inductive_inv.step _ _ _ (inductive_inv.reachable h.of_restrict) hstop
  have hwalks := (apart_walks h).step hstop trivial
  obtain ⟨hinv', hstopping⟩ := stopping_run hrun hls hinv hwalks (Stopping.of_stop hstop)
  have hclosed : .closeSocks ∉ s'.tasks → (∀ f ∈ s'.fibers, f.isClosing = false) →
      s'.socks = [] := by
    intro htasks hfibers
    rcases hstopping.pending with htask | ⟨f, hf, hclose⟩ | hnil
    · exact absurd htask htasks
    · rw [hfibers f hf] at hclose
      cases hclose
    · exact hnil
  refine ⟨Nat.le_trans (Nat.le_add_right _ _) hstopping.bounded, fun htasks hfibers => ?_,
    fun htasks hfibers => ?_⟩
  · have hnil := hclosed htasks hfibers
    refine ⟨hnil, fun x hx => Bool.eq_false_iff.mpr fun hopen => ?_⟩
    have hmem := hstopping.listed x hx hopen
    rw [hnil] at hmem
    cases hmem
  · have hnil := hclosed (by simp [htasks]) (by simp [hfibers])
    refine ⟨fun x => Bool.eq_false_iff.mpr fun hopen => ?_, ?_⟩
    · rcases hinv'.refers x hopen with hmem | ⟨t, ht, -⟩ | ⟨f, hf, -⟩
      · rw [hnil] at hmem
        cases hmem
      · rw [htasks] at ht
        cases ht
      · rw [hfibers] at hf
        cases hf
    · have hclients := hinv'.clients
      simpa [State.clients, htasks, hfibers] using hclients

/-- The acceptor that waits at `stop()` may return with a connection; then all tasks end. -/
theorem stop_ends_waiting :
    ∃ s ls s', Step waiting .stop s ∧ Run (machine.restrict Apart) s ls s' ∧ s'.accepted = 1 ∧
      (∀ x, s'.isOpen x = false) ∧ s'.handled.Perm (List.range s'.accepted) := by
  have hrun : ∃ s', Run (machine.restrict Apart)
      { waiting with isStop := true, tasks := [.closeSocks] }
      [.task, .task, .task, .walk, .task, .task, .task, .task] s' ∧
        s'.accepted = 1 ∧ s'.tasks = [] ∧ s'.fibers = [] :=
    ⟨_, .next ⟨@Step.accept _ [] [] 0 rfl rfl, trivial⟩ <|
      .next ⟨@Step.schedule _ [] [] 0 0 rfl, trivial⟩ <|
      .next ⟨@Step.leave _ [] [] 0 rfl rfl, trivial⟩ <|
      .next ⟨@Step.begin _ [] _ .closeSocks rfl, by simp [Apart, State.release]⟩ <|
      .next ⟨@Step.close _ [] [] 0 [] [] rfl rfl, trivial⟩ <|
      .next ⟨@Step.clear _ [] [] [0] rfl, trivial⟩ <|
      .next ⟨@Step.begin _ [] [] (.handleClient 0) rfl, trivial⟩ <|
      .next ⟨@Step.handle _ [] [] 0 rfl, trivial⟩ (.refl _), rfl, rfl, rfl⟩
  obtain ⟨s', hrun, haccepted, htasks, hfibers⟩ := hrun
  obtain ⟨-, -, hends⟩ := stop_ends reachable_waiting .stop hrun (by simp)
  exact ⟨_, _, s', .stop, hrun, haccepted, hends htasks hfibers⟩

end TcpServer
end TwServer
