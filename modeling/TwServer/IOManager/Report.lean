import TwServer.IOManager.Registration

/-! One report of `epoll_wait`. Without EPOLLERR and EPOLLHUP it wakes every
waiter of the descriptor; with one of them it goes through `delEvent`, which
wakes none. -/

namespace TwServer
open Programs Program Counting

namespace IOManager

/-! ## The two rounds of removals -/


theorem ifRegistered_false {s : IOManager} {ctx : Nat} {ev : Event} {r : Program IOManager Bool}
    (h : s.registered ctx ev = false) : ifRegistered ctx ev r s = .ok () s := by
  unfold ifRegistered
  rw [h]
  rfl

theorem ifRegistered_true {s : IOManager} {ctx : Nat} {ev : Event} {r : Program IOManager Bool}
    (h : s.registered ctx ev = true) :
    ifRegistered ctx ev r s = (do let _ ← r; return ()) s := by
  unfold ifRegistered
  rw [h, if_pos rfl]

/-- `delEvent` on whatever is registered, as after an EPOLLERR or EPOLLHUP. -/
def dropBoth (fd : Nat) : Program IOManager Unit := do
  ifRegistered fd .read (delEvent true fd .read)
  ifRegistered fd .write (delEvent true fd .write)

/-- `cancelEvent` on whatever is registered. -/
def cancelBoth (fd : Nat) : Program IOManager Unit := do
  ifRegistered fd .read (cancelEvent true fd .read)
  ifRegistered fd .write (cancelEvent true fd .write)

theorem handleReport_eq {s : IOManager} {r : Report} {c : FdContext}
    (hc : s.fdContexts[r.ctx]? = some c) (hfd : c.fd = r.ctx) :
    handleReport r s =
      (do (if r.epollerr || r.epollhup then dropBoth r.ctx else return ()); cancelBoth r.ctx) s := by
  unfold handleReport
  simp only [hc, hfd]
  rfl

theorem drop_round {s : IOManager} {fd : Nat} {ev : Event} (h : s.registered fd ev = true) :
    (∃ why, ifRegistered fd ev (delEvent true fd ev) s = .fault why) ∨
      ∃ s', ifRegistered fd ev (delEvent true fd ev) s = .ok () s' ∧
        s'.scheduled = s.scheduled ∧ Stale s' fd ev ∧
        ∀ ev', ev' ≠ ev → s'.registered fd ev' = s.registered fd ev' ∧
          (Stale s fd ev' → Stale s' fd ev') := by
  obtain ⟨c, hc, hb⟩ := registered_eq_true.mp h
  rw [ifRegistered_true h]
  rcases delEvent_registered hc hb with ⟨why, hrun⟩ | ⟨s', hrun, hd⟩
  · exact Or.inl ⟨why, bind_fault hrun⟩
  · exact Or.inr ⟨s', bind_ok hrun, hd.scheduled, hd.stale hc, fun ev' he => hd.other hc he⟩

/-- With an event registered, either the process ends or no bit is left, nothing
was scheduled and a stale fiber stays behind. -/
theorem dropBoth_registered {s : IOManager} {fd : Nat} {ev : Event}
    (h : s.registered fd ev = true) :
    (∃ why, dropBoth fd s = .fault why) ∨
      ∃ s', dropBoth fd s = .ok () s' ∧ s'.scheduled = s.scheduled ∧
        (∀ ev, s'.registered fd ev = false) ∧ ∃ ev, Stale s' fd ev := by
  cases hread : s.registered fd .read with
  | false =>
    have hwrite : s.registered fd .write = true := by
      cases ev with
      | read => exact absurd (hread.symm.trans h) Bool.false_ne_true
      | write => exact h
    have hskip := ifRegistered_false (r := delEvent true fd .read) hread
    rcases drop_round hwrite with ⟨why, hrun⟩ | ⟨s', hrun, hsch, hstale, hother⟩
    · exact Or.inl ⟨why, (bind_ok hskip).trans hrun⟩
    · refine Or.inr ⟨s', (bind_ok hskip).trans hrun, hsch, ?_, .write, hstale⟩
      intro ev'
      cases ev' with
      | read => rw [(hother .read (by decide)).1, hread]
      | write => exact hstale.unregistered
  | true =>
    rcases drop_round hread with ⟨why, hrun⟩ | ⟨t, hrun, hsch, hstale, hother⟩
    · exact Or.inl ⟨why, bind_fault hrun⟩
    · cases hwrite : t.registered fd .write with
      | false =>
        refine Or.inr ⟨t, (bind_ok hrun).trans (ifRegistered_false hwrite), hsch, ?_, .read, hstale⟩
        intro ev'
        cases ev' with
        | read => exact hstale.unregistered
        | write => exact hwrite
      | true =>
        rcases drop_round hwrite with ⟨why, hrun'⟩ | ⟨s', hrun', hsch', hstale', hother'⟩
        · exact Or.inl ⟨why, (bind_ok hrun).trans hrun'⟩
        · have hstale₁ := (hother' .read (by decide)).2 hstale
          refine Or.inr ⟨s', (bind_ok hrun).trans hrun', hsch'.trans hsch, ?_, .read, hstale₁⟩
          intro ev'
          cases ev' with
          | read => exact hstale₁.unregistered
          | write => exact hstale'.unregistered

/-- The waiter registered for an event, with its scheduler. -/
def waiter? (s : IOManager) (fd : Nat) (ev : Event) : Option (SchedulerId × Task) :=
  match s.fdContexts[fd]? with
  | none => none
  | some c => if c.events.has ev then (c.getContext ev).entry else none

theorem waiter?_of_unregistered {s : IOManager} {fd : Nat} {ev : Event}
    (h : s.registered fd ev = false) : s.waiter? fd ev = none := by
  unfold registered at h
  unfold waiter?
  cases hc : s.fdContexts[fd]? with
  | none => rfl
  | some c =>
    simp only [hc] at h
    simp only [h, Bool.false_eq_true, ↓reduceIte]

/-- Cancelling one event leaves every other registration alone. -/
theorem Cancelled.other {s s' : IOManager} {fd fd' : Nat} {ev ev' : Event} {c : FdContext}
    (hc : s.fdContexts[fd]? = some c) (hd : Cancelled s fd ev c s') (he : (fd', ev') ≠ (fd, ev)) :
    s'.registered fd' ev' = s.registered fd' ev' ∧ s'.waiter? fd' ev' = s.waiter? fd' ev' := by
  have hlt : fd < s.fdContexts.length := (List.getElem?_eq_some_iff.mp hc).1
  unfold registered waiter?
  rw [hd.fdContexts]
  by_cases hfd : fd = fd'
  · subst hfd
    have hev : ev' ≠ ev := fun h => he (by rw [h])
    rw [List.getElem?_set_self hlt, hc]
    simp only [FdContext.setContext_events, Events.has_erase_of_ne hev,
      FdContext.getContext_setContext_of_ne hev, FdContext.getContext_events, and_self]
  · rw [List.getElem?_set_ne hfd]
    exact ⟨rfl, rfl⟩

theorem Cancelled.unregistered {s s' : IOManager} {fd : Nat} {ev : Event} {c : FdContext}
    (hc : s.fdContexts[fd]? = some c) (hd : Cancelled s fd ev c s') :
    s'.registered fd ev = false := by
  have hlt : fd < s.fdContexts.length := (List.getElem?_eq_some_iff.mp hc).1
  unfold registered
  rw [hd.fdContexts, List.getElem?_set_self hlt]
  simp

/-- One `cancelEvent` of the report: the waiter, if there is one, is scheduled. -/
theorem cancel_round {s : IOManager} (h : Consistent s) (fd : Nat) (ev : Event) :
    ∃ s', ifRegistered fd ev (cancelEvent true fd ev) s = .ok () s' ∧ Consistent s' ∧
      s'.scheduled = s.scheduled ++ (s.waiter? fd ev).toList ∧ s'.registered fd ev = false ∧
      (s.registered fd ev = true → (s.waiter? fd ev).isSome = true) ∧
      ∀ fd' ev', (fd', ev') ≠ (fd, ev) →
        s'.registered fd' ev' = s.registered fd' ev' ∧ s'.waiter? fd' ev' = s.waiter? fd' ev' := by
  cases hr : s.registered fd ev with
  | false =>
    refine ⟨s, ifRegistered_false hr, h, ?_, hr, ?_, fun _ _ _ => ⟨rfl, rfl⟩⟩
    · rw [waiter?_of_unregistered hr]
      exact (List.append_nil _).symm
    · intro hf
      cases hf
  | true =>
    obtain ⟨c, hc, hb⟩ := registered_eq_true.mp hr
    have hfull := (h.slots c (List.mem_of_getElem? hc) ev).1.mp hb
    obtain ⟨s', hrun, hd⟩ := cancelEvent_registered hc hb hfull
    obtain ⟨e, hentry, hsch⟩ := hd.entry
    have hw : s.waiter? fd ev = some e := by
      simp only [waiter?, hc, hb, ↓reduceIte]
      exact hentry
    refine ⟨s', ?_, hd.consistent h hc hb, ?_, hd.unregistered hc, ?_, fun _ _ => hd.other hc⟩
    · rw [ifRegistered_true hr]
      exact bind_ok hrun
    · rw [hw]
      exact hsch
    · intro _
      rw [hw]
      rfl

/-! ## What handling a report owes -/

/-- The report is about the event. -/
def Report.covers (r : Report) : Event → Bool
  | .read => r.epollin || r.epollerr || r.epollhup
  | .write => r.epollout || r.epollerr || r.epollhup

/-- From `s` to `s'` every waiter of a covered event was scheduled once, and no
registration ended without its waiter being among those scheduled. -/
def Woken (s : IOManager) (r : Report) (s' : IOManager) : Prop :=
  ∃ L : List Event, L.Nodup ∧
    (∃ tasks, s'.scheduled = s.scheduled ++ tasks ∧ tasks.map some = L.map (s.waiter? r.ctx)) ∧
    (∀ ev, r.covers ev = true → s.registered r.ctx ev = true → ev ∈ L) ∧
    (∀ ev ∈ L, s'.registered r.ctx ev = false) ∧
    ∀ fd ev, s.registered fd ev = true → s'.registered fd ev = false → fd = r.ctx ∧ ev ∈ L

/-- The registered events, and their waiters in the same order. -/
theorem map_waiter? {s : IOManager} {fd : Nat} {L : List Event}
    (h : ∀ ev, s.registered fd ev = true → (s.waiter? fd ev).isSome = true) :
    (L.flatMap fun ev => (s.waiter? fd ev).toList).map some =
      (L.filter (s.registered fd)).map (s.waiter? fd) := by
  induction L with
  | nil => rfl
  | cons ev L ih =>
    rw [List.flatMap_cons, List.map_append, ih]
    cases hr : s.registered fd ev with
    | false => simp [hr, waiter?_of_unregistered hr]
    | true =>
      obtain ⟨e, he⟩ := Option.isSome_iff_exists.mp (h ev hr)
      simp [hr, he]

theorem cancelBoth_woken {s : IOManager} (h : Consistent s) (r : Report) :
    ∃ s', cancelBoth r.ctx s = .ok () s' ∧ Consistent s' ∧ Woken s r s' := by
  obtain ⟨t, hrun, ht, hsch, hun, hsome, hother⟩ := cancel_round h r.ctx .read
  obtain ⟨s', hrun', hs', hsch', hun', hsome', hother'⟩ := cancel_round ht r.ctx .write
  have hwrite := hother r.ctx .write (by simp)
  have hread := hother' r.ctx .read (by simp)
  rw [hwrite.1, hwrite.2] at hsome'
  have hwaiting : ∀ ev, s.registered r.ctx ev = true → (s.waiter? r.ctx ev).isSome = true := by
    intro ev
    cases ev with
    | read => exact hsome
    | write => exact hsome'
  refine ⟨s', (bind_ok hrun).trans hrun', hs', [.read, .write].filter (s.registered r.ctx),
    List.Pairwise.filter _ (by decide), ⟨_, ?_, map_waiter? hwaiting⟩, ?_, ?_, ?_⟩
  · rw [hsch', hsch, hwrite.2]
    simp
  · intro ev _ hreg
    refine List.mem_filter.mpr ⟨?_, hreg⟩
    cases ev <;> decide
  · intro ev _
    cases ev with
    | read => rw [hread.1, hun]
    | write => exact hun'
  · intro fd ev hreg hgone
    by_cases hfd : fd = r.ctx
    · refine ⟨hfd, List.mem_filter.mpr ⟨?_, hfd ▸ hreg⟩⟩
      cases ev <;> decide
    · have h₁ := (hother fd ev (fun he => hfd (congrArg Prod.fst he))).1
      have h₂ := (hother' fd ev (fun he => hfd (congrArg Prod.fst he))).1
      rw [h₂, h₁, hreg] at hgone
      cases hgone

/-! ## Both kinds of reports -/

theorem cancelBoth_unregistered {s : IOManager} {fd : Nat} (h : ∀ ev, s.registered fd ev = false) :
    cancelBoth fd s = .ok () s :=
  (bind_ok (ifRegistered_false (h .read))).trans (ifRegistered_false (h .write))

theorem dropBoth_unregistered {s : IOManager} {fd : Nat} (h : ∀ ev, s.registered fd ev = false) :
    dropBoth fd s = .ok () s :=
  (bind_ok (ifRegistered_false (h .read))).trans (ifRegistered_false (h .write))

/-- The report brings an error for a descriptor on which somebody waits. -/
def Hits (s : IOManager) (r : Report) : Prop :=
  (r.epollerr = true ∨ r.epollhup = true) ∧ ∃ ev, s.registered r.ctx ev = true

theorem handleReport_woken {s : IOManager} (h : Consistent s) {r : Report}
    (hctx : r.ctx < s.fdContexts.length) (hr : ¬ Hits s r) :
    ∃ s', handleReport r s = .ok () s' ∧ Consistent s' ∧ Woken s r s' := by
  have hc := List.getElem?_eq_getElem hctx
  obtain ⟨s', hrun, hs', hw⟩ := cancelBoth_woken h r
  refine ⟨s', ?_, hs', hw⟩
  rw [handleReport_eq hc (h.numbered _ _ hc)]
  cases herr : r.epollerr || r.epollhup with
  | false => exact (bind_ok rfl).trans hrun
  | true =>
    have hnone : ∀ ev, s.registered r.ctx ev = false := by
      intro ev
      cases hev : s.registered r.ctx ev with
      | false => rfl
      | true => exact absurd ⟨by simpa using herr, ev, hev⟩ hr
    exact (bind_ok (dropBoth_unregistered hnone)).trans hrun

/-- A report that hits ends the process, or ends registrations without waking anyone. -/
theorem handleReport_hits {s : IOManager} (h : Consistent s) {r : Report} (hr : Hits s r) :
    (∃ why, handleReport r s = .fault why) ∨
      ∃ s', handleReport r s = .ok () s' ∧ s'.scheduled = s.scheduled ∧ ∃ ev, Stale s' r.ctx ev := by
  obtain ⟨herr, ev, hev⟩ := hr
  obtain ⟨c, hc, -⟩ := registered_eq_true.mp hev
  rw [handleReport_eq hc (h.numbered _ _ hc), if_pos (by simpa using herr)]
  rcases dropBoth_registered hev with ⟨why, hrun⟩ | ⟨s', hrun, hsch, hnone, hstale⟩
  · exact Or.inl ⟨why, bind_fault hrun⟩
  · exact Or.inr ⟨s', (bind_ok hrun).trans (cancelBoth_unregistered hnone), hsch, hstale⟩

theorem Hits.not_woken {s s' : IOManager} {r : Report} (hr : Hits s r)
    (hsch : s'.scheduled = s.scheduled) : ¬ Woken s r s' := by
  obtain ⟨herr, ev, hev⟩ := hr
  rintro ⟨L, -, ⟨tasks, htasks, hmap⟩, hcov, -, -⟩
  have hcovers : r.covers ev = true := by
    rcases herr with herr | herr <;> cases ev <;> simp [Report.covers, herr]
  have hnil : tasks = [] := List.append_right_eq_self.mp (htasks.symm.trans hsch)
  rw [hnil, List.map_nil, eq_comm, List.map_eq_nil_iff] at hmap
  have hmem := hcov ev hcovers hev
  rw [hmap] at hmem
  cases hmem

end IOManager
end TwServer
