import CallCapture.Memory.Lemmas
import CallCapture.Proofs.Session.Retention

namespace CallCapture

def Action.gated : Action → Bool
  | .registerView .. | .registerForeign .. | .readElement .. | .writeElement .. => true
  | _ => false

namespace Observer

/-- From `o` to `p` the addresses of the range became pending, as far as they can be captured, and no others did. -/
def Adds (o : Observer) (range : Nat × Nat) (p : Observer) : Prop :=
  ∀ a, a ∈ p.pending ↔ a ∈ o.pending ∨ range.1 ≤ a ∧ a < min (range.1 + range.2) addressTop

/-- From `o` to `p` the range was added if it belongs to the application and this is observed, and nothing otherwise. -/
structure Gates (o : Observer) (owner : Ownership) (range : Nat × Nat) (p : Observer) : Prop where
  passed : o.observesApplication = true → owner = .application → o.Adds range p
  stopped : o.observesApplication = false ∨ owner ≠ .application → p.pending = o.pending

variable {o p : Observer} {owner : Ownership} {range : Nat × Nat}

theorem observes_iff : o.observes owner ↔ o.observesApplication = true ∧ owner = .application := by
  cases owner <;> simp [observes, Ownership.isApplication]

theorem adds_of_insertAll (hc : o.pending.Canonical) (h : p.pending = o.pending.insertAll [range]) :
    o.Adds range p := by
  intro a
  rw [h, Coverage.mem_insertAll hc, inserted_cons]
  simp [Inserted]

theorem gates_of_insertAll (hc : o.pending.Canonical)
    (h : p.pending = o.pending.insertAll (if o.observes owner then [range] else [])) : o.Gates owner range p where
  passed policy application := by
    rw [if_pos (observes_iff.mpr ⟨policy, application⟩)] at h
    exact adds_of_insertAll hc h
  stopped hstop := by
    have hnot : ¬o.observes owner := fun ho => by
      obtain ⟨policy, application⟩ := observes_iff.mp ho
      rcases hstop with hoff | htool
      · rw [hoff] at policy
        cases policy
      · exact htool application
    rw [if_neg hnot] at h
    exact h

end Observer

namespace Session

variable {s : Session}

theorem canonical_pending_step (h : s.observer.pending.Canonical) (a : Action) :
    (s.step a).2.observer.pending.Canonical := by
  cases ha : a.target? with
  | none =>
      rw [(s.step_registers ha).observer.pending]
      exact Coverage.canonical_insertAll h _
  | some target =>
      rw [(s.step_captures ha).pending]
      exact Coverage.canonical_ofList []

theorem canonical_pending_run (h : s.observer.pending.Canonical) (actions : List Action) :
    (s.run actions).observer.pending.Canonical := by
  induction actions generalizing s with
  | nil => exact h
  | cons a rest ih => exact ih (canonical_pending_step h a)

theorem bare_step (s : Session) {a : Action} (h : a.onlyRegisters ∨ a.target?.isSome) :
    (s.step a).2.observer.bare = s.observer.bare := by
  cases ha : a.onlyRegisters with
  | true => exact (s.step_enters ha).observer.bare
  | false =>
      cases a with
      | capturePhase phase =>
          rw [state_step_capturePhase]
          exact s.observer.bare_capturePhase s.reader phase
      | captureInto =>
          rw [state_step_captureInto]
          exact s.observer.bare_captureInto s.reader s.captured
      | setName | setError | addExtra | scratch => rcases h with h | h <;> cases h
      | _ => cases ha

theorem observesApplication_step (s : Session) (a : Action) :
    (s.step a).2.observer.observesApplication = s.observer.observesApplication := by
  cases a with
  | setName | setError | addExtra | scratch => rfl
  | capturePhase | captureInto => exact (Observer.bare_eq_bare.mp (s.bare_step (.inr rfl))).1
  | _ => exact (Observer.bare_eq_bare.mp (s.bare_step (.inl rfl))).1

theorem observesApplication_run (s : Session) (actions : List Action) :
    (s.run actions).observer.observesApplication = s.observer.observesApplication := by
  induction actions generalizing s with
  | nil => rfl
  | cons a rest ih => exact (ih (s.step a).2).trans (s.observesApplication_step a)

theorem Grounded.retained_step_of_gated (h : s.Grounded) {a : Action} (ha : a.gated) :
    (s.step a).2.observer.retained = s.observer.retained := by
  have honly : a.onlyRegisters := by
    cases a with
    | registerView | registerForeign | readElement | writeElement => rfl
    | _ => cases ha
  suffices hnone : (s.registration a).pools = [] by
    rw [(s.step_enters honly).observer.retained, hnone, List.append_nil]
  rw [Registration.pools, List.filterMap_eq_nil_iff]
  intro r hr
  suffices hbacking : r.backing = none by rw [Region.pool?, hbacking, ite_self]
  cases a with
  | registerView phase view =>
      obtain ⟨v, hv, hr⟩ := Registration.mem_regions_elim hr
      obtain ⟨hobserved, hr⟩ := Registration.mem_regions_ite hr
      obtain rfl := List.mem_singleton.mp hr
      exact (h.backedBy_of_get? hv).backing_of_observes hobserved
  | registerForeign phase base length tool =>
      obtain rfl := List.mem_singleton.mp (Registration.mem_regions_ite hr).2
      rfl
  | readElement view index | writeElement view index _ =>
      obtain ⟨v, -, hr⟩ := Registration.mem_regions_elim hr
      rw [Observer.regions_elementRegistration] at hr
      cases hr
  | _ => cases ha

/-- What each kind of registration adds in this state. A copy and a clone add their source and nothing of the view that
they fill. -/
structure RegistersExactly (s : Session) : Prop where
  view : ∀ phase view v, s.views.get? view = some v →
    s.observer.Gates v.view.owner v.view.extent (s.step (.registerView phase view)).2.observer
  foreign : ∀ phase base length tool,
    s.observer.Gates (s.owner tool).1 (base, length) (s.step (.registerForeign phase base length tool)).2.observer
  element_read : ∀ view v index, s.views.get? view = some v → index < v.view.count →
    s.observer.Gates v.view.owner (v.view.elementExtent index) (s.step (.readElement view index)).2.observer
  element_written : ∀ view v index value, s.views.get? view = some v → index < v.view.count →
    s.observer.Gates v.view.owner (v.view.elementExtent index) (s.step (.writeElement view index value)).2.observer
  retained : ∀ a : Action, a.gated → (s.step a).2.observer.retained = s.observer.retained
  raw : ∀ phase base size, s.observer.Adds (base, size) (s.step (.register phase base size)).2.observer
  copied : ∀ (t : ElementType) (v w : View t) dst src name, s.views.get? dst = some ⟨t, w⟩ →
    s.views.get? src = some ⟨t, v⟩ → s.observer.Adds v.extent (s.step (.copy dst src name)).2.observer
  cloned : ∀ src v name, s.views.get? src = some v → Process.makeFault? v.elem v.view.count = none →
    s.observer.Adds v.view.extent (s.step (.cloneView src name)).2.observer
  not_cloned : ∀ src v name f, s.views.get? src = some v → Process.makeFault? v.elem v.view.count = some f →
    (s.step (.cloneView src name)).2.observer.pending = s.observer.pending
  string : ∀ address length, address ≠ 0 → address + length ≤ addressTop →
    s.process.memory.byteAt (address + length) = 0 →
    (∀ i < length, s.process.memory.byteAt (address + i) ≠ 0) →
    s.observer.Adds (address, length + 1) (s.step (.readString address)).2.observer
  characters : ∀ view (v : View characterType), s.views.get? view = some ⟨characterType, v⟩ →
    s.observer.Adds v.extent (s.step (.readStringView view)).2.observer

section registrations

theorem pending_step_registerView {phase : Phase} {view : String} {v : TypedView} (hv : s.views.get? view = some v) :
    (s.step (.registerView phase view)).2.observer.pending =
      s.observer.pending.insertAll (if s.observer.observes v.view.owner then [v.view.extent] else []) := by
  rw [(s.step_registers rfl).observer.pending, registrations, hv, Option.elim_some]

theorem pending_step_registerForeign (phase : Phase) (base length : Nat) (tool : Bool) :
    (s.step (.registerForeign phase base length tool)).2.observer.pending =
      s.observer.pending.insertAll (if s.observer.observes (s.owner tool).1 then [(base, length)] else []) := by
  rw [(s.step_registers rfl).observer.pending, registrations]
  cases tool with
  | false => simp [owner, Observer.observes, Ownership.isApplication]
  | true => simp [owner, Observer.observes, Ownership.isApplication]

theorem elementRegistrations_of_lt {t : ElementType} {v : View t} {index : Nat} (h : index < v.count) (o : Observer) :
    o.elementRegistrations v index = if o.observes v.owner then [v.elementExtent index] else [] := by
  simp only [Observer.elementRegistrations, h, and_true]

theorem distanceToZero_of_terminated {m : Memory} {address length : Nat} (htop : address + length ≤ addressTop)
    (hzero : m.byteAt (address + length) = 0) (hfirst : ∀ i < length, m.byteAt (address + i) ≠ 0) :
    m.distanceToZero address (addressTop + 1 - address) = some length :=
  Memory.distanceToZero_eq_some.mpr ⟨by omega, hzero, hfirst⟩

theorem stringRegistrations_eq {m : Memory} {address length : Nat} (hnull : address ≠ 0)
    (htop : address + length ≤ addressTop) (hzero : m.byteAt (address + length) = 0)
    (hfirst : ∀ i < length, m.byteAt (address + i) ≠ 0) :
    Observer.stringRegistrations m address = [(address, length + 1)] := by
  rw [Observer.stringRegistrations, if_neg hnull, distanceToZero_of_terminated htop hzero hfirst]
  rfl

theorem registrations_cloneView {src name : String} {v : TypedView} (hv : s.views.get? src = some v) :
    s.registrations (.cloneView src name) =
      if Process.makeFault? v.elem v.view.count = none then [v.view.extent] else [] := by
  have herror := s.process.make_eq_error v.elem v.view.count
  rw [registrations, hv, Option.elim_some]
  cases hmade : (s.process.make v.elem v.view.count).1 with
  | error f =>
      rw [(herror f).mp hmade]
      rfl
  | ok w =>
      have hnone : Process.makeFault? v.elem v.view.count = none := by
        rw [Option.eq_none_iff_forall_ne_some]
        intro f hf
        rw [(herror f).mpr hf] at hmade
        cases hmade
      rw [hnone]
      rfl

end registrations

theorem Grounded.registersExactly (h : s.Grounded) (hc : s.observer.pending.Canonical) : s.RegistersExactly where
  view _ _ _ hv := Observer.gates_of_insertAll hc (pending_step_registerView hv)
  foreign phase base length tool :=
    Observer.gates_of_insertAll hc (pending_step_registerForeign phase base length tool)
  element_read view v index hv hi := by
    apply Observer.gates_of_insertAll hc
    rw [(s.step_registers rfl).observer.pending, registrations, hv, Option.elim_some, elementRegistrations_of_lt hi]
  element_written view v index value hv hi := by
    apply Observer.gates_of_insertAll hc
    rw [(s.step_registers rfl).observer.pending, registrations, hv, Option.elim_some, elementRegistrations_of_lt hi]
  retained _ ha := h.retained_step_of_gated ha
  raw _ _ _ := Observer.adds_of_insertAll hc (s.step_registers rfl).observer.pending
  copied t v w dst src name hdst hsrc := by
    apply Observer.adds_of_insertAll hc
    rw [(s.step_registers rfl).observer.pending, registrations, hdst, hsrc]
    simp only [Option.elim_some, if_true]
  cloned src v name hv hmade := by
    apply Observer.adds_of_insertAll hc
    rw [(s.step_registers rfl).observer.pending, registrations_cloneView hv, if_pos hmade]
  not_cloned src v name f hv hfault := by
    rw [(s.step_registers rfl).observer.pending, registrations_cloneView hv, hfault]
    rfl
  string address length hnull htop hzero hfirst := by
    apply Observer.adds_of_insertAll hc
    rw [(s.step_registers rfl).observer.pending, registrations, stringRegistrations_eq hnull htop hzero hfirst]
  characters view v hv := by
    apply Observer.adds_of_insertAll hc
    rw [(s.step_registers rfl).observer.pending, registrations, hv]
    simp only [Option.elim_some, if_true]

/-- After any run the policy is still the one that was chosen, and every kind of registration adds exactly its range,
through a gate or without one. -/
theorem run_registers_exactly (config : ObserverConfig) (readerOf : Memory → Memory → Reader)
    (placement : PoolPlacement) (source : ChunkSource) (actions : List Action) :
    let s := (Session.new config readerOf placement source).run actions
    s.observer.observesApplication = config.observesApplication ∧ s.RegistersExactly := by
  intro s
  have hgrounded : s.Grounded := (run_grounds _ actions).grounded (grounded_new config readerOf placement source)
  have hcanonical : s.observer.pending.Canonical := canonical_pending_run Coverage.canonical_empty actions
  exact ⟨observesApplication_run _ actions, hgrounded.registersExactly hcanonical⟩

theorem written_word_pending :
    let s := (Session.new .fullFidelity (fun m _ => m.reader) AddressSpace.placePool AddressSpace.placeChunk).run
      [.borrow "v" (.unsigned .w16) false 8 2]
    s.observer.Adds (10, 2) (s.step (.writeElement "v" 1 (.integer 7))).2.observer := by
  dsimp only
  obtain ⟨hpolicy, hexact⟩ := run_registers_exactly .fullFidelity (fun m _ => m.reader) AddressSpace.placePool
    AddressSpace.placeChunk [.borrow "v" (.unsigned .w16) false 8 2]
  exact (hexact.element_written "v" _ 1 _ rfl (by decide)).passed hpolicy rfl

end Session

end CallCapture
