import CallCapture.Proofs.Session.Gating

namespace CallCapture

namespace Observer

def withPolicy (o : Observer) (policy : Bool) : Observer := { o with observesApplication := policy }

variable {t : ElementType} {owner : Ownership} (o : Observer) (policy : Bool)

theorem observes_of_ne (h : owner ≠ .application) : o.observes owner = false := by
  cases owner with
  | application => exact absurd rfl h
  | tool id => exact Bool.and_false _

section ungated

theorem note_withPolicy (events : List Event) : (o.withPolicy policy).note events = (o.note events).withPolicy policy :=
  rfl

theorem register_withPolicy (phase : Phase) (base size : Nat) :
    (o.withPolicy policy).register phase base size = (o.register phase base size).withPolicy policy := by
  simp only [register]
  split <;> rfl

theorem registerRegion_withPolicy (phase : Phase) (r : Region) :
    (o.withPolicy policy).registerRegion phase r = (o.registerRegion phase r).withPolicy policy := by
  simp only [registerRegion, register]
  split <;> rfl

theorem readString_withPolicy (m : Memory) (address : Nat) :
    (o.withPolicy policy).readString m address =
      ((o.readString m address).1, (o.readString m address).2.withPolicy policy) := by
  simp only [readString]
  split
  · rfl
  · cases m.distanceToZero address (addressTop + 1 - address) with
    | none => rfl
    | some length => exact congrArg (Prod.mk _) (o.register_withPolicy policy .read address (length + 1))

theorem finishCapture_withPolicy (target : Option Phase) :
    (o.withPolicy policy).finishCapture target =
      ((o.finishCapture target).1, (o.finishCapture target).2.withPolicy policy) := by
  simp only [finishCapture, withPolicy]
  cases o.pending.captureFault? <;> rfl

theorem attachRecord_withPolicy : (o.withPolicy policy).attachRecord = o.attachRecord.withPolicy policy := by
  cases h : o.record with
  | none => simp only [attachRecord, withPolicy, h, note]
  | some r => simp only [attachRecord, withPolicy, h]

theorem capturePhase_withPolicy (reader : Reader) (phase : Phase) :
    (o.withPolicy policy).capturePhase reader phase =
      ((o.capturePhase reader phase).1, (o.capturePhase reader phase).2.withPolicy policy) := by
  by_cases h : o.pending.isEmpty
  · rw [capturePhase_of_isEmpty o reader phase h, capturePhase_of_isEmpty (o.withPolicy policy) reader phase h]
  · rw [capturePhase_of_not_isEmpty o reader phase h, capturePhase_of_not_isEmpty (o.withPolicy policy) reader phase h,
      attachRecord_withPolicy]
    exact finishCapture_withPolicy
      { o.attachRecord with
        record := o.attachRecord.record.map (Record.append · phase (o.attachRecord.pending.capture reader)) }
      policy (some phase)

theorem captureInto_withPolicy (reader : Reader) (out : List Observation) :
    (o.withPolicy policy).captureInto reader out =
      ((o.captureInto reader out).1, (o.captureInto reader out).2.1,
        (o.captureInto reader out).2.2.withPolicy policy) := by
  by_cases h : o.pending.isEmpty
  · rw [captureInto_of_isEmpty o reader out h, captureInto_of_isEmpty (o.withPolicy policy) reader out h]
    rfl
  · rw [captureInto_of_not_isEmpty o reader out h, captureInto_of_not_isEmpty (o.withPolicy policy) reader out h,
      finishCapture_withPolicy]
    rfl

end ungated

section gated

theorem registerObserved_withPolicy (phase : Phase) {r : Region} (h : r.owner ≠ .application) :
    (o.withPolicy policy).registerObserved phase r = (o.registerObserved phase r).withPolicy policy := by
  simp only [registerObserved, observes_of_ne _ h, Bool.false_eq_true, if_false]

theorem readElement_withPolicy (m : Memory) {v : View t} (index : Nat) (h : v.owner ≠ .application) :
    (o.withPolicy policy).readElement m v index =
      ((o.readElement m v index).1, (o.readElement m v index).2.withPolicy policy) := by
  simp only [readElement, observes_of_ne _ h, Bool.false_eq_true, if_false]
  cases v.get m index <;> rfl

theorem writeElement_withPolicy (m : Memory) {v : View t} (index : Nat) (value : t.Value)
    (h : v.owner ≠ .application) :
    (o.withPolicy policy).writeElement m v index value =
      (o.writeElement m v index value).map fun (p, m) => (p.withPolicy policy, m) := by
  simp only [writeElement, observes_of_ne _ h, Bool.false_eq_true, if_false]
  cases v.set m index value <;> rfl

end gated

end Observer

/-- The same answer, under another policy where it tells the policy. -/
def Answer.withPolicy (policy : Bool) : Answer → Answer
  | .metadata name error _ => .metadata name error policy
  | answer => answer

namespace Session

def withPolicy (s : Session) (policy : Bool) : Session := { s with observer := s.observer.withPolicy policy }

/-- The owner of the memory that an action brings to a gate. -/
def gateOwner? (s : Session) : Action → Option Ownership
  | .registerView _ view | .readElement view _ | .writeElement view _ _ | .copy view _ _ =>
    (s.views.get? view).map fun v => v.view.owner
  | .registerForeign _ _ _ tool => some (s.owner tool).1
  | _ => none

def SparesGates (s : Session) : List Action → Prop
  | [] => True
  | a :: rest => s.gateOwner? a ≠ some .application ∧ (s.step a).2.SparesGates rest

def underPolicy (policy : Bool) (r : Answer × Session) : Answer × Session :=
  (r.1.withPolicy policy, r.2.withPolicy policy)

section step

variable {s : Session} {policy : Bool} {name other : String}

theorem process_withPolicy (s : Session) (policy : Bool) : (s.withPolicy policy).process = s.process := rfl

theorem observer_withPolicy (s : Session) (policy : Bool) :
    (s.withPolicy policy).observer = s.observer.withPolicy policy := rfl

theorem pools_withPolicy (s : Session) (policy : Bool) : (s.withPolicy policy).pools = s.pools := rfl

theorem reader_withPolicy (s : Session) (policy : Bool) : (s.withPolicy policy).reader = s.reader := rfl

theorem captured_withPolicy (s : Session) (policy : Bool) : (s.withPolicy policy).captured = s.captured := rfl

theorem withView_withPolicy {act act' : TypedView → Answer × Session}
    (h : ∀ v, s.views.get? name = some v → act' v = underPolicy policy (act v)) :
    (s.withPolicy policy).withView name act' = underPolicy policy (s.withView name act) := by
  cases hv : s.views.get? name with
  | none =>
      rw [withView_of_none hv, withView_of_none (s := s.withPolicy policy) hv]
      rfl
  | some v => rw [withView_of_some hv, withView_of_some (s := s.withPolicy policy) hv, h v hv]

theorem withViews_withPolicy {act act' : (t : ElementType) → View t → View t → Answer × Session}
    (h : ∀ t v w, s.views.get? name = some ⟨t, v⟩ → act' t v w = underPolicy policy (act t v w)) :
    (s.withPolicy policy).withViews name other act' = underPolicy policy (s.withViews name other act) := by
  refine withView_withPolicy fun ⟨t, v⟩ hv => withView_withPolicy fun w _ => ?_
  dsimp only
  cases w.at? t with
  | none => rfl
  | some w => exact h t v w hv

theorem copy_withPolicy {t : ElementType} {dst : View t} (h : dst.owner ≠ .application) (src : View t) :
    (s.withPolicy policy).copy dst src name = underPolicy policy (s.copy dst src name) := by
  rw [copy_eq, copy_eq, observer_withPolicy, Observer.registerRegion_withPolicy, Observer.observes_of_ne _ h,
    Observer.observes_of_ne _ h]
  rfl

theorem cloneView_withPolicy {t : ElementType} (src : View t) :
    (s.withPolicy policy).cloneView src name = underPolicy policy (s.cloneView src name) := by
  cases hmade : s.process.make t src.count with
  | mk result q =>
      have hmade' : (s.withPolicy policy).process.make t src.count = (result, q) := hmade
      cases result with
      | error f =>
          rw [cloneView_of_error hmade, cloneView_of_error hmade']
          rfl
      | ok dst =>
          have htool := Process.owner_of_make hmade
          rw [cloneView_of_ok hmade, cloneView_of_ok hmade', Observer.observes_of_ne _ htool,
            Observer.observes_of_ne _ htool, observer_withPolicy, process_withPolicy, Observer.note_withPolicy,
            Observer.registerRegion_withPolicy]
          rfl

theorem owner_ne_of_gateOwner? {view : String} {v : TypedView}
    (h : ((s.views.get? view).map fun v => v.view.owner) ≠ some .application) (hv : s.views.get? view = some v) :
    v.view.owner ≠ .application := by
  rw [hv] at h
  exact fun howner => h (congrArg some howner)

theorem step_withPolicy (s : Session) (policy : Bool) {a : Action} (h : s.gateOwner? a ≠ some .application) :
    (s.withPolicy policy).step a = underPolicy policy (s.step a) := by
  cases a with
  | dropView | dropPool | poke | peek | sparsePoke | sparsePeek | sparseFill | setName | setError | metadata | record
    | addExtra | extras | scratch => rfl
  | borrow name t tool base count => cases tool <;> rfl
  | make name t count =>
      simp only [step, make, process_withPolicy]
      rcases s.process.make t count with ⟨_ | _, q⟩ <;> rfl
  | overPool name t pool =>
      simp only [step, overPool, pools_withPolicy]
      cases s.pools.get? pool with
      | none => rfl
      | some pool =>
          dsimp only
          cases View.ofPool t pool <;> rfl
  | createPool name size =>
      simp only [step, createPool, process_withPolicy]
      rcases s.process.createPool size with ⟨_ | _, q⟩ <;> rfl
  | share view name => exact withView_withPolicy fun v _ => rfl
  | describe view => exact withView_withPolicy fun v _ => rfl
  | elements view => exact withView_withPolicy fun v _ => rfl
  | address view index =>
      refine withView_withPolicy fun v _ => ?_
      cases v.view.elementAddress index <;> rfl
  | get view index =>
      refine withView_withPolicy fun v _ => ?_
      rw [process_withPolicy]
      cases v.view.get s.process.memory index <;> rfl
  | set view index value =>
      refine withView_withPolicy fun v _ => ?_
      rw [process_withPolicy]
      cases v.view.set s.process.memory index (v.elem.ofLiteral value) <;> rfl
  | copyTo view dst start count dstStart =>
      simp only [step, process_withPolicy]
      refine withViews_withPolicy fun t v w _ => ?_
      cases v.copyTo w s.process.memory start count dstStart <;> rfl
  | register phase base size =>
      simp only [step, observer_withPolicy, Observer.register_withPolicy]
      rfl
  | registerView phase view =>
      refine withView_withPolicy fun v hv => ?_
      rw [observer_withPolicy,
        Observer.registerObserved_withPolicy _ _ _ (r := v.view.region) (owner_ne_of_gateOwner? h hv)]
      rfl
  | registerForeign phase base length tool =>
      cases tool with
      | false => exact absurd rfl h
      | true =>
          have hregister := s.observer.registerObserved_withPolicy policy phase
            (r := ⟨base, length, .tool s.process.takeId.1, none⟩) (by simp)
          simp only [step, registerForeign, owner, if_true, observer_withPolicy, process_withPolicy, hregister]
          rfl
  | readElement view index =>
      refine withView_withPolicy fun v hv => ?_
      rw [observer_withPolicy, process_withPolicy,
        Observer.readElement_withPolicy _ _ _ _ (owner_ne_of_gateOwner? h hv)]
      rcases s.observer.readElement s.process.memory v.view index with ⟨_ | _, o⟩ <;> rfl
  | writeElement view index value =>
      refine withView_withPolicy fun v hv => ?_
      rw [observer_withPolicy, process_withPolicy,
        Observer.writeElement_withPolicy _ _ _ _ _ (owner_ne_of_gateOwner? h hv)]
      rcases s.observer.writeElement s.process.memory v.view index (v.elem.ofLiteral value) with _ | _ <;> rfl
  | copy dst src name => exact withViews_withPolicy fun t w v hw => copy_withPolicy (owner_ne_of_gateOwner? h hw) v
  | cloneView src name => exact withView_withPolicy fun v _ => cloneView_withPolicy v.view
  | readString address =>
      simp only [step, observer_withPolicy, process_withPolicy, Observer.readString_withPolicy]
      rcases s.observer.readString s.process.memory address with ⟨_ | _, o⟩ <;> rfl
  | readStringView view =>
      refine withView_withPolicy fun v _ => ?_
      cases v.at? characterType with
      | none => rfl
      | some v =>
          simp only [Observer.readStringView, observer_withPolicy, process_withPolicy,
            Observer.registerRegion_withPolicy]
          rfl
  | capturePhase phase =>
      simp only [step, observer_withPolicy, reader_withPolicy, Observer.capturePhase_withPolicy]
      rcases s.observer.capturePhase s.reader phase with ⟨_ | _, o⟩ <;> rfl
  | captureInto =>
      simp only [step, observer_withPolicy, reader_withPolicy, captured_withPolicy, Observer.captureInto_withPolicy]
      rcases s.observer.captureInto s.reader s.captured with ⟨_ | _, out, o⟩ <;> rfl
  | encodeExtras limit =>
      refine Prod.ext ?_ rfl
      change s.encodeExtras limit = (s.encodeExtras limit).withPolicy policy
      rw [encodeExtras]
      cases s.observer.extras.encode.run (.ofLimit limit) <;> rfl

end step

section run

variable {s : Session} {actions : List Action}

theorem sparesGates_withPolicy (h : s.SparesGates actions) (policy : Bool) :
    (s.withPolicy policy).SparesGates actions := by
  induction actions generalizing s with
  | nil => trivial
  | cons a rest ih =>
      have hstep := s.step_withPolicy policy h.1
      refine ⟨?_, ?_⟩
      · cases a with
        | registerForeign phase base length tool => cases tool <;> exact h.1
        | _ => exact h.1
      · rw [hstep]
        exact ih h.2

theorem SparesGates.of_append {before after : List Action} (h : s.SparesGates (before ++ after)) :
    s.SparesGates before := by
  induction before generalizing s with
  | nil => trivial
  | cons a rest ih => exact ⟨h.1, ih h.2⟩

theorem run_withPolicy (h : s.SparesGates actions) (policy : Bool) :
    (s.withPolicy policy).run actions = (s.run actions).withPolicy policy := by
  induction actions generalizing s with
  | nil => rfl
  | cons a rest ih =>
      have hstep : ((s.withPolicy policy).step a).2 = (s.step a).2.withPolicy policy :=
        congrArg Prod.snd (s.step_withPolicy policy h.1)
      change ((s.withPolicy policy).step a).2.run rest = ((s.step a).2.run rest).withPolicy policy
      rw [hstep]
      exact ih h.2

theorem answers_withPolicy (h : s.SparesGates actions) (policy : Bool) :
    (s.withPolicy policy).answers actions = (s.answers actions).map (Answer.withPolicy policy) := by
  induction actions generalizing s with
  | nil => rfl
  | cons a rest ih =>
      have hstep := s.step_withPolicy policy h.1
      rw [answers, answers, hstep, List.map_cons]
      exact congrArg _ (ih h.2)

end run

/-- If no action brings memory of the application to a gate, a session goes on in the same way whatever policy it was
started with: so it is for the other policy as well, every answer is the same but that metadata tells the policy, and
after every action the states are equal, in all that is pending, kept, recorded, attached, logged and in memory, but for
the policy, which is still the one that was chosen. -/
theorem policy_hidden_by_spared_gates (config : ObserverConfig) (policy : Bool)
    (readerOf : Memory → Memory → Reader) (placement : PoolPlacement) (source : ChunkSource) (actions : List Action) :
    let s := Session.new config readerOf placement source
    let t := Session.new { config with observesApplication := policy } readerOf placement source
    s.SparesGates actions →
    t.SparesGates actions ∧
    t.answers actions = (s.answers actions).map (Answer.withPolicy policy) ∧
    ∀ before after, actions = before ++ after →
      t.run before = (s.run before).withPolicy policy ∧
      (s.run before).observer.observesApplication = config.observesApplication := by
  intro s t h
  have ht : t = s.withPolicy policy := rfl
  rw [ht]
  refine ⟨sparesGates_withPolicy h policy, answers_withPolicy h policy, fun before after hactions => ?_⟩
  subst hactions
  exact ⟨run_withPolicy h.of_append policy, observesApplication_run s before⟩

theorem copied_range_captured_alike :
    let s := Session.new .fullFidelity (fun m _ => m.reader) AddressSpace.placePool AddressSpace.placeChunk
    let t := Session.new .lightweight (fun m _ => m.reader) AddressSpace.placePool AddressSpace.placeChunk
    let actions : List Action := [.borrow "a" (.unsigned .w8) false 8 4, .make "t" (.unsigned .w8) 4,
      .copy "t" "a" "r", .readElement "t" 1, .register .write 20 2, .metadata, .capturePhase .read]
    t.answers actions = (s.answers actions).map (Answer.withPolicy false) ∧
      (t.run actions).observer.record = (s.run actions).observer.record := by
  intro s t actions
  have h : s.SparesGates actions :=
    ⟨by decide, by decide, by decide, by decide, by decide, by decide, by decide, trivial⟩
  have hlight : ObserverConfig.lightweight = { ObserverConfig.fullFidelity with observesApplication := false } := rfl
  obtain ⟨-, hanswers, hrun⟩ := policy_hidden_by_spared_gates .fullFidelity false (fun m _ => m.reader)
    AddressSpace.placePool AddressSpace.placeChunk actions h
  obtain ⟨hstate, -⟩ := hrun actions [] (List.append_nil actions).symm
  rw [← hlight] at hanswers hstate
  exact ⟨hanswers, by rw [hstate, withPolicy, Observer.withPolicy]⟩

end Session

end CallCapture
