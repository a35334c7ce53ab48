import CallCapture.Observer.Lemmas
import CallCapture.Session.Step

namespace CallCapture

theorem TypedView.at?_self {t : ElementType} (v : View t) : TypedView.at? ⟨t, v⟩ t = some v := dif_pos rfl

theorem TypedView.at?_of_ne {v : TypedView} {t : ElementType} (h : v.elem ≠ t) : v.at? t = none := dif_neg h

namespace Session

variable {s : Session} {name other : String} {P : Answer × Session → Prop}

theorem withView_of_some {v : TypedView} (h : s.views.get? name = some v) (act : TypedView → Answer × Session) :
    s.withView name act = act v := by
  rw [withView, h]

theorem withView_of_none (h : s.views.get? name = none) (act : TypedView → Answer × Session) :
    s.withView name act = (.done, s) := by
  rw [withView, h]

theorem withView_cases {act : TypedView → Answer × Session} (hnone : P (.done, s))
    (hsome : ∀ v, s.views.get? name = some v → P (act v)) : P (s.withView name act) := by
  cases hv : s.views.get? name with
  | none => simpa only [withView, hv] using hnone
  | some v => simpa only [withView, hv] using hsome v hv

theorem withViews_cases {act : (t : ElementType) → View t → View t → Answer × Session} (hnone : P (.done, s))
    (hsome : ∀ t v w, s.views.get? name = some ⟨t, v⟩ → s.views.get? other = some ⟨t, w⟩ → P (act t v w)) :
    P (s.withViews name other act) := by
  refine withView_cases hnone fun ⟨t, v⟩ hv => withView_cases hnone fun ⟨u, w⟩ hw => ?_
  by_cases h : u = t
  · subst h
    simpa only [TypedView.at?_self] using hsome u v w hv hw
  · have hw : TypedView.at? ⟨u, w⟩ t = none := TypedView.at?_of_ne h
    simpa only [hw] using hnone

theorem run_append (s : Session) (before after : List Action) :
    s.run (before ++ after) = (s.run before).run after := List.foldl_append

theorem state_step_capturePhase (s : Session) (phase : Phase) :
    (s.step (.capturePhase phase)).2 = { s with observer := (s.observer.capturePhase s.reader phase).2 } := by
  simp only [step]
  cases s.observer.capturePhase s.reader phase with
  | mk result p => cases result <;> rfl

theorem state_step_captureInto (s : Session) :
    (s.step .captureInto).2 =
      { s with
        captured := (s.observer.captureInto s.reader s.captured).2.1
        observer := (s.observer.captureInto s.reader s.captured).2.2 } := by
  simp only [step]
  cases s.observer.captureInto s.reader s.captured with
  | mk result p => cases result <;> rfl

section copies

variable {t : ElementType}

theorem copy_eq (s : Session) (dst src : View t) (name : String) :
    s.copy dst src name = nameView
      { s with
        observer := s.observer.registerRegion .read src.region
        process := ⟨if s.observer.observes dst.owner then s.process.memory
          else s.process.memory.write dst.base
            (s.process.memory.read src.base (min src.count dst.count * t.size)), s.process.pools⟩ } name dst := by
  rw [copy, Observer.copy_eq]
  rfl

theorem cloneView_of_error {src : View t} {q : Process} {f : Fault} (h : s.process.make t src.count = (.error f, q)) :
    s.cloneView src name =
      (.fault f,
        { s with observer := s.observer.note (Event.ofPools s.process.pools q.pools), process := q }) := by
  rw [cloneView, Observer.cloneView_of_error h]

theorem cloneView_of_ok {src dst : View t} {q : Process} (h : s.process.make t src.count = (.ok dst, q)) :
    s.cloneView src name = nameView
      { s with
        observer := (s.observer.note (Event.ofPools s.process.pools q.pools)).registerRegion .read src.region
        process := ⟨if s.observer.observes dst.owner then q.memory
          else q.memory.write dst.base (q.memory.read src.base (min src.count dst.count * t.size)), q.pools⟩ }
      name dst := by
  rw [cloneView, Observer.cloneView_of_ok h]

end copies

end Session

end CallCapture
