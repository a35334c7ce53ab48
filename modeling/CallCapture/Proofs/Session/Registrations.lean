import CallCapture.Observer.Registration
import CallCapture.Session.Lemmas

namespace CallCapture

/-- Where an action sends observations, if it captures: to a phase of the record or, with no phase, to the caller. -/
def Action.target? : Action → Option (Option Phase)
  | .capturePhase phase => some (some phase)
  | .captureInto => some none
  | _ => none

def Action.onlyRegisters : Action → Bool
  | .setName _ | .setError _ | .addExtra _ | .scratch _ | .capturePhase _ | .captureInto => false
  | _ => true

namespace Session

def registrations (s : Session) : Action → List (Nat × Nat)
  | .register _ base size => [(base, size)]
  | .registerView _ view =>
    (s.views.get? view).elim [] fun v => if s.observer.observes v.view.owner then [v.view.extent] else []
  | .registerForeign _ base length tool =>
    if s.observer.observesApplication ∧ tool = false then [(base, length)] else []
  | .readElement view index | .writeElement view index _ =>
    (s.views.get? view).elim [] fun v => s.observer.elementRegistrations v.view index
  | .copy dst src _ =>
    (s.views.get? dst).elim [] fun dst =>
      (s.views.get? src).elim [] fun src => if src.elem = dst.elem then [src.view.extent] else []
  | .cloneView src _ =>
    (s.views.get? src).elim [] fun src =>
      (s.process.make src.elem src.view.count).1.toOption.elim [] fun _ => [src.view.extent]
  | .readString address => Observer.stringRegistrations s.process.memory address
  | .readStringView view =>
    (s.views.get? view).elim [] fun v => if v.elem = characterType then [v.view.extent] else []
  | _ => []

def registration (s : Session) : Action → Registration
  | .register phase base size => .range phase base size
  | .registerView phase view =>
    (s.views.get? view).elim .nothing fun v =>
      if s.observer.observes v.view.owner then .region phase v.view.region else .nothing
  | .registerForeign phase base length tool =>
    if s.observer.observesApplication ∧ tool = false then .region phase ⟨base, length, .application, none⟩
    else .nothing
  | .readElement view index =>
    (s.views.get? view).elim .nothing fun v => s.observer.elementRegistration .read v.view index
  | .writeElement view index _ =>
    (s.views.get? view).elim .nothing fun v => s.observer.elementRegistration .write v.view index
  | .copy dst src _ =>
    (s.views.get? dst).elim .nothing fun dst =>
      (s.views.get? src).elim .nothing fun src =>
        if src.elem = dst.elem then .region .read src.view.region else .nothing
  | .cloneView src _ =>
    (s.views.get? src).elim .nothing fun src =>
      (s.process.make src.elem src.view.count).1.toOption.elim .nothing fun _ => .region .read src.view.region
  | .readString address => Observer.stringRegistration s.process.memory address
  | .readStringView view =>
    (s.views.get? view).elim .nothing fun v =>
      if v.elem = characterType then .region .read v.view.region else .nothing
  | _ => .nothing

def notes (s : Session) : Action → List Event
  | .make _ t count => Event.ofPools s.process.pools (s.process.make t count).2.pools
  | .createPool _ size => Event.ofPools s.process.pools (s.process.createPool size).2.pools
  | .cloneView src _ =>
    (s.views.get? src).elim [] fun src =>
      Event.ofPools s.process.pools (s.process.make src.elem src.view.count).2.pools
  | .readString address => if address = 0 then [.nullString s.observer.commandName] else []
  | _ => []

/-- `t` is `s` after its observer logged some events and entered `x`. The caller's list is left alone. -/
structure Enters (s : Session) (events : List Event) (x : Registration) (t : Session) : Prop where
  observer : s.observer.Enters events x t.observer
  captured : t.captured = s.captured

theorem Enters.refl (s : Session) : s.Enters [] .nothing s := ⟨Observer.Enters.refl _, rfl⟩

section views

variable {s : Session} {name other : String}

theorem enters_withView {act : TypedView → Answer × Session} {events : TypedView → List Event}
    {f : TypedView → Registration} (h : ∀ v, s.Enters (events v) (f v) (act v).2) :
    s.Enters ((s.views.get? name).elim [] events) ((s.views.get? name).elim .nothing f)
      (s.withView name act).2 := by
  cases hv : s.views.get? name with
  | none => simpa only [withView, hv, Option.elim_none] using Enters.refl s
  | some v => simpa only [withView, hv, Option.elim_some] using h v

theorem enters_withView_of_quiet {act : TypedView → Answer × Session} {f : TypedView → Registration}
    (h : ∀ v, s.Enters [] (f v) (act v).2) :
    s.Enters [] ((s.views.get? name).elim .nothing f) (s.withView name act).2 := by
  cases hv : s.views.get? name with
  | none => simpa only [withView, hv, Option.elim_none] using Enters.refl s
  | some v => simpa only [withView, hv, Option.elim_some] using h v

theorem enters_withViews {act : (t : ElementType) → View t → View t → Answer × Session}
    {f : TypedView → TypedView → Registration} (h : ∀ t v w, s.Enters [] (f ⟨t, v⟩ ⟨t, w⟩) (act t v w).2) :
    s.Enters []
      ((s.views.get? name).elim .nothing fun v => (s.views.get? other).elim .nothing fun w =>
        if w.elem = v.elem then f v w else .nothing)
      (s.withViews name other act).2 := by
  refine enters_withView_of_quiet fun ⟨t, v⟩ => enters_withView_of_quiet fun ⟨u, w⟩ => ?_
  by_cases he : u = t
  · subst he
    simpa only [TypedView.at?_self, if_true] using h u v w
  · have hw : TypedView.at? ⟨u, w⟩ t = none := TypedView.at?_of_ne he
    simpa only [hw, he, if_false] using Enters.refl s

theorem enters_nothing_withView {act : TypedView → Answer × Session}
    (h : ∀ v, s.Enters [] .nothing (act v).2) : s.Enters [] .nothing (s.withView name act).2 :=
  withView_cases (P := fun r => s.Enters [] .nothing r.2) (Enters.refl s) fun v _ => h v

theorem enters_nothing_withViews {act : (t : ElementType) → View t → View t → Answer × Session}
    (h : ∀ t v w, s.Enters [] .nothing (act t v w).2) : s.Enters [] .nothing (s.withViews name other act).2 :=
  withViews_cases (P := fun r => s.Enters [] .nothing r.2) (Enters.refl s) fun t v w _ _ => h t v w

end views

theorem enters_borrow (s : Session) (name : String) (t : ElementType) (tool : Bool) (base count : Nat) :
    s.Enters [] .nothing (s.borrow name t tool base count).2 := by
  cases tool with
  | false => exact ⟨Observer.Enters.refl _, rfl⟩
  | true => exact ⟨Observer.Enters.refl _, rfl⟩

theorem enters_make (s : Session) (name : String) (t : ElementType) (count : Nat) :
    s.Enters (Event.ofPools s.process.pools (s.process.make t count).2.pools) .nothing (s.make name t count).2 := by
  simp only [make]
  cases s.process.make t count with
  | mk made p =>
      cases made with
      | error f => exact ⟨rfl, rfl⟩
      | ok v => exact ⟨rfl, rfl⟩

theorem enters_overPool (s : Session) (name : String) (t : ElementType) (pool : String) :
    s.Enters [] .nothing (s.overPool name t pool).2 := by
  simp only [overPool]
  cases s.pools.get? pool with
  | none => exact Enters.refl s
  | some pool =>
      dsimp only
      cases View.ofPool t pool with
      | error f => exact Enters.refl s
      | ok v => exact ⟨Observer.Enters.refl _, rfl⟩

theorem enters_createPool (s : Session) (name : String) (size : Nat) :
    s.Enters (Event.ofPools s.process.pools (s.process.createPool size).2.pools) .nothing
      (s.createPool name size).2 := by
  simp only [createPool]
  cases s.process.createPool size with
  | mk made p =>
      cases made with
      | error f => exact ⟨rfl, rfl⟩
      | ok pool => exact ⟨rfl, rfl⟩

theorem enters_registerForeign (s : Session) (phase : Phase) (base length : Nat) (tool : Bool) :
    s.Enters []
      (if s.observer.observesApplication ∧ tool = false then .region phase ⟨base, length, .application, none⟩
        else .nothing)
      (s.registerForeign phase base length tool).2 := by
  cases tool with
  | false =>
      have h := Observer.enters_registerObserved s.observer phase ⟨base, length, .application, none⟩
      simp only [Observer.observes, Ownership.isApplication, Bool.and_true] at h
      simp only [and_true]
      exact ⟨h, rfl⟩
  | true =>
      have h := Observer.enters_registerObserved s.observer phase ⟨base, length, .tool s.process.takeId.1, none⟩
      simp only [Observer.observes, Ownership.isApplication, Bool.and_false, Bool.false_eq_true, if_false] at h
      simp only [Bool.true_eq_false, and_false, if_false]
      exact ⟨h, rfl⟩

theorem enters_copy {t : ElementType} (s : Session) (dst src : View t) (name : String) :
    s.Enters [] (.region .read src.region) (s.copy dst src name).2 := by
  rw [copy_eq]
  exact ⟨Observer.enters_enter s.observer (.region .read src.region), rfl⟩

theorem enters_cloneView {t : ElementType} (s : Session) (src : View t) (name : String) :
    s.Enters (Event.ofPools s.process.pools (s.process.make t src.count).2.pools)
      ((s.process.make t src.count).1.toOption.elim .nothing fun _ => .region .read src.region)
      (s.cloneView src name).2 := by
  cases hmake : s.process.make t src.count with
  | mk result q =>
      cases result with
      | error f =>
          rw [cloneView_of_error hmake]
          exact ⟨rfl, rfl⟩
      | ok v =>
          rw [cloneView_of_ok hmake]
          exact ⟨rfl, rfl⟩

theorem step_enters (s : Session) {a : Action} (h : a.onlyRegisters) :
    s.Enters (s.notes a) (s.registration a) (s.step a).2 := by
  cases a with
  | setName | setError | addExtra | scratch | capturePhase | captureInto => cases h
  | dropView | dropPool | poke | peek | sparsePoke | sparsePeek | sparseFill | metadata | record | extras
    | encodeExtras => exact ⟨Observer.Enters.refl _, rfl⟩
  | borrow name t tool base count => exact enters_borrow s name t tool base count
  | make name t count => exact enters_make s name t count
  | overPool name t pool => exact enters_overPool s name t pool
  | createPool name size => exact enters_createPool s name size
  | share view name => exact enters_nothing_withView fun v => ⟨Observer.Enters.refl _, rfl⟩
  | describe view => exact enters_nothing_withView fun v => Enters.refl s
  | elements view => exact enters_nothing_withView fun v => Enters.refl s
  | address view index =>
      refine enters_nothing_withView fun v => ?_
      cases v.view.elementAddress index with
      | error f => exact Enters.refl s
      | ok address => exact Enters.refl s
  | get view index =>
      refine enters_nothing_withView fun v => ?_
      cases v.view.get s.process.memory index with
      | error f => exact Enters.refl s
      | ok value => exact Enters.refl s
  | set view index value =>
      refine enters_nothing_withView fun v => ?_
      cases v.view.set s.process.memory index (v.elem.ofLiteral value) with
      | error f => exact Enters.refl s
      | ok memory => exact ⟨Observer.Enters.refl _, rfl⟩
  | copyTo view dst start count dstStart =>
      refine enters_nothing_withViews fun t v w => ?_
      cases v.copyTo w s.process.memory start count dstStart with
      | error f => exact Enters.refl s
      | ok memory => exact ⟨Observer.Enters.refl _, rfl⟩
  | register phase base size => exact ⟨Observer.enters_enter s.observer (.range phase base size), rfl⟩
  | registerView phase view =>
      refine enters_withView_of_quiet fun v => ?_
      exact ⟨Observer.enters_registerObserved s.observer phase v.view.region, rfl⟩
  | registerForeign phase base length tool => exact enters_registerForeign s phase base length tool
  | readElement view index =>
      refine enters_withView_of_quiet fun v => ?_
      have hr := Observer.enters_readElement s.observer s.process.memory v.view index
      cases hread : s.observer.readElement s.process.memory v.view index with
      | mk result p =>
          rw [hread] at hr
          cases result with
          | error f => exact ⟨hr, rfl⟩
          | ok value => exact ⟨hr, rfl⟩
  | writeElement view index value =>
      refine enters_withView_of_quiet fun v => ?_
      have hw := Observer.enters_writeElement s.observer s.process.memory v.view index (v.elem.ofLiteral value)
      cases hwrite : s.observer.writeElement s.process.memory v.view index (v.elem.ofLiteral value) with
      | error f =>
          rw [hwrite] at hw
          exact ⟨hw, rfl⟩
      | ok r =>
          rw [hwrite] at hw
          exact ⟨hw, rfl⟩
  | copy dst src name => exact enters_withViews fun t v w => enters_copy s v w name
  | cloneView src name => exact enters_withView fun v => enters_cloneView s v.view name
  | readString address =>
      have hr := Observer.enters_readString s.observer s.process.memory address
      simp only [step]
      cases hread : s.observer.readString s.process.memory address with
      | mk result p =>
          rw [hread] at hr
          cases result with
          | error e => exact ⟨hr, rfl⟩
          | ok text => exact ⟨hr, rfl⟩
  | readStringView view =>
      refine enters_withView_of_quiet fun v => ?_
      obtain ⟨t, v⟩ := v
      by_cases h : t = characterType
      · subst h
        simp only [TypedView.at?_self, if_true]
        exact ⟨Observer.enters_readStringView s.observer s.process.memory v, rfl⟩
      · have hv : TypedView.at? ⟨t, v⟩ characterType = none := TypedView.at?_of_ne h
        simpa only [hv, h, if_false] using Enters.refl s

theorem ranges_elim {α : Type} (x : Option α) (f : α → Registration) :
    (x.elim .nothing f).ranges = x.elim [] fun a => (f a).ranges := by
  cases x <;> rfl

theorem ranges_ite (c : Prop) [Decidable c] (x : Registration) :
    (if c then x else .nothing).ranges = if c then x.ranges else [] := by
  split <;> rfl

theorem ranges_registration (s : Session) (a : Action) : (s.registration a).ranges = s.registrations a := by
  cases a with
  | readElement | writeElement =>
      simp only [registration, registrations, ranges_elim, Observer.ranges_elementRegistration]
  | readString => exact Observer.ranges_stringRegistration _ _
  | registerView | registerForeign | copy | cloneView | readStringView =>
      simp only [registration, registrations, ranges_elim, ranges_ite]
      rfl
  | _ => rfl

structure Registers (s : Session) (l : List (Nat × Nat)) (t : Session) : Prop where
  observer : s.observer.Registers l t.observer
  captured : t.captured = s.captured

theorem Enters.registers {s t : Session} {events : List Event} {x : Registration} (h : s.Enters events x t) :
    s.Registers x.ranges t where
  observer := ⟨h.observer.pending, h.observer.record⟩
  captured := h.captured

theorem step_registers (s : Session) {a : Action} (h : a.target? = none) :
    s.Registers (s.registrations a) (s.step a).2 := by
  cases ha : a.onlyRegisters with
  | true =>
      rw [← ranges_registration]
      exact (s.step_enters ha).registers
  | false =>
      cases a with
      | setName | setError | addExtra | scratch => exact ⟨⟨rfl, rfl⟩, rfl⟩
      | capturePhase | captureInto => cases h
      | _ => cases ha

end Session

end CallCapture
