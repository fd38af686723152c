import TwServer.IOManager.Report

/-! What was handed to a scheduler stays handed over: every operation only appends
to `scheduled`, and only a `cancelEvent` that finds its event appends anything. -/

namespace TwServer
open Programs Program

namespace IOManager
variable {s s' : IOManager}

theorem addEvent_scheduled {here : Caller} {ctl : Bool} {fd : Nat} {ev : Event}
    {cb : Option Callback} {rt : Int} (h : addEvent here ctl fd ev cb s = .ok rt s') :
    s'.scheduled = s.scheduled := by
  have hres : (if s.fdContexts.length > fd then s
      else s.fdContextResize (fd * 3 / 2)).scheduled = s.scheduled := by
    split
    · rfl
    · unfold fdContextResize
      split <;> rfl
  rw [← hres]
  unfold addEvent at h
  generalize (if s.fdContexts.length > fd then s else s.fdContextResize (fd * 3 / 2)) = t at h ⊢
  cases hc : t.fdContexts[fd]? with
  | none =>
    simp only [hc] at h
    cases h
  | some c =>
    simp only [hc] at h
    split at h
    · cases h
    · split at h
      · cases h
        rfl
      · cases cb with
        | some f =>
          cases h
          rfl
        | none =>
          simp only at h
          split at h
          · cases h
            rfl
          · cases h

theorem delEvent_scheduled {ctl : Bool} {fd : Nat} {ev : Event} {rt : Bool}
    (h : delEvent ctl fd ev s = .ok rt s') : s'.scheduled = s.scheduled := by
  unfold delEvent resetContext at h
  cases hc : s.fdContexts[fd]? with
  | none =>
    simp only [hc] at h
    cases h
    rfl
  | some c =>
    simp only [hc] at h
    split at h
    · cases h
      rfl
    · split at h
      · cases h
        rfl
      · split at h
        · rename_i hreset
          split at hreset
          · cases hreset
          · split at hreset
            · cases hreset
            · cases hreset
              cases h
              rfl
        · cases h
        · cases h

theorem schedule_scheduled (sc : SchedulerId) (t : Option Task) :
    s.scheduled <+: (s.schedule sc t).scheduled := by
  cases t with
  | none => exact List.prefix_refl _
  | some t => exact List.prefix_append _ _

theorem triggerEvent_scheduled {c c' : FdContext} {ev : Event}
    (h : triggerEvent c ev s = .ok c' s') : s.scheduled <+: s'.scheduled := by
  unfold triggerEvent at h
  split at h
  · cases h
  · dsimp only at h
    split at h
    · cases h
    · cases h
      exact schedule_scheduled _ _

theorem cancelEvent_scheduled {ctl : Bool} {fd : Nat} {ev : Event} {rt : Bool}
    (h : cancelEvent ctl fd ev s = .ok rt s') : s.scheduled <+: s'.scheduled := by
  unfold cancelEvent at h
  cases hc : s.fdContexts[fd]? with
  | none =>
    simp only [hc] at h
    cases h
    exact List.prefix_refl _
  | some c =>
    simp only [hc] at h
    split at h
    · cases h
      exact List.prefix_refl _
    · split at h
      · cases h
        exact List.prefix_refl _
      · split at h
        · rename_i htrig
          cases h
          have hle := triggerEvent_scheduled htrig
          exact hle
        · cases h
        · cases h

theorem ifRegistered_scheduled {ctx : Nat} {ev : Event} {remove : Program IOManager Bool}
    (hremove : ∀ s rt s', remove s = .ok rt s' → s.scheduled <+: s'.scheduled)
    (h : ifRegistered ctx ev remove s = .ok () s') : s.scheduled <+: s'.scheduled := by
  cases hr : s.registered ctx ev with
  | false =>
    rw [ifRegistered_false hr] at h
    cases h
    exact List.prefix_refl _
  | true =>
    rw [ifRegistered_true hr] at h
    obtain ⟨rt, t, hrun, hret⟩ := of_bind_ok h
    cases hret
    exact hremove _ _ _ hrun

theorem handleReport_scheduled {r : Report} (h : handleReport r s = .ok () s') :
    s.scheduled <+: s'.scheduled := by
  have hdel : ∀ fd ev (s : IOManager) rt s', delEvent true fd ev s = .ok rt s' →
      s.scheduled <+: s'.scheduled := by
    intro fd ev s rt s' h
    rw [delEvent_scheduled h]
  have hcancel : ∀ fd ev (s : IOManager) rt s', cancelEvent true fd ev s = .ok rt s' →
      s.scheduled <+: s'.scheduled := fun fd ev s rt s' h => cancelEvent_scheduled h
  unfold handleReport at h
  split at h
  · cases h
  · obtain ⟨_, s₁, hdrop, h⟩ := of_bind_ok h
    obtain ⟨_, s₂, hread, hwrite⟩ := of_bind_ok h
    refine List.IsPrefix.trans ?_ ((ifRegistered_scheduled (hcancel _ _) hread).trans
      (ifRegistered_scheduled (hcancel _ _) hwrite))
    split at hdrop
    · obtain ⟨_, s₃, hread', hwrite'⟩ := of_bind_ok hdrop
      exact (ifRegistered_scheduled (hdel _ _) hread').trans
        (ifRegistered_scheduled (hdel _ _) hwrite')
    · cases hdrop
      exact List.prefix_refl _

end IOManager

end TwServer
