import CallCapture.Proofs.Session.Atomicity

namespace CallCapture.Session

variable {s : Session} {a : Action} {p : Pool}

theorem alive_of_view {v : TypedView} (h : s.Grounded) (hv : v ∈ s.views.values) (hp : v.view.backing = some p) :
    p ∈ s.alive := mem_alive.mpr ⟨(h.views v hv p hp).1, .inl ⟨v, hv, hp⟩⟩

theorem alive_step (h : s.Accounted) (hp : p ∈ (s.step a).2.alive) : p ∈ s.alive ∨ p ∈ s.fresh (s.step a).2 := by
  have hinherits := s.step_inherits a
  obtain ⟨hmade, ⟨v, hv, hbacking⟩ | hname | hretained⟩ := mem_alive.mp hp
  · rcases hinherits.views v hv with hold | hbacked
    · exact .inl (alive_of_view h.grounded hold hbacking)
    · rcases List.mem_append.mp (hbacked p hbacking).1 with hname | hfresh
      · exact .inl (mem_alive.mpr ⟨h.grounded.pools p hname, .inr (.inl hname)⟩)
      · exact .inr hfresh
  · rcases hinherits.pools p hname with hold | hfresh
    · exact .inl (mem_alive.mpr ⟨h.grounded.pools p hold, .inr (.inl hold)⟩)
    · exact .inr hfresh
  · rcases mem_retained_step hretained with hold | hnew
    · exact .inl (mem_alive.mpr ⟨h.retained p hold, .inr (.inr hold)⟩)
    · obtain ⟨r, hr, hpool⟩ := List.mem_filterMap.mp hnew
      have hbacking := (Region.pool?_eq_some.mp hpool).2
      rcases exists_view_of_registration hr with hnone | ⟨v, hv, rfl⟩
      · rw [hnone] at hbacking
        cases hbacking
      · exact .inl (alive_of_view h.grounded hv hbacking)

theorem not_fresh_of_made (h : s.Accounted) (hp : p ∈ s.process.pools.made) : p ∉ s.fresh (s.step a).2 := by
  intro hfresh
  have hlow := (s.step_inherits a).made.fresh_serial hfresh
  have hhigh := h.serial p hp
  omega

theorem alive_of_alive_step (h : s.Accounted) (hmade : p ∈ s.process.pools.made) (hp : p ∈ (s.step a).2.alive) :
    p ∈ s.alive := (alive_step h hp).resolve_right (not_fresh_of_made h hmade)

theorem alive_of_alive_run (h : s.Accounted) (hmade : p ∈ s.process.pools.made) {actions : List Action}
    (hp : p ∈ (s.run actions).alive) : p ∈ s.alive := by
  induction actions generalizing s with
  | nil => exact hp
  | cons a rest ih =>
      exact alive_of_alive_step h hmade (ih (h.step a) ((s.step_grounds a).made.kept.subset hmade) hp)

end CallCapture.Session
