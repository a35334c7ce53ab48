import CallCapture.Proofs.Coverage.Canonical
import CallCapture.Proofs.Session.Footprint

namespace CallCapture

inductive ElementAccess
  | read (index : Nat)
  | write (index : Nat) (value : Literal)

namespace ElementAccess

def index : ElementAccess → Nat
  | read index | write index _ => index

def phase : ElementAccess → Phase
  | read _ => .read
  | write .. => .write

def on (view : String) : ElementAccess → Action
  | read index => .readElement view index
  | write index value => .writeElement view index value

end ElementAccess

theorem View.contains_iff_element {t : ElementType} (v : View t) (x : Nat) :
    v.region.Contains x ↔ ∃ index < v.count, (v.elementRegion index).Contains x := by
  constructor
  · rintro ⟨hlow, hhigh⟩
    change x < v.base + v.count * t.size at hhigh
    change v.base ≤ x at hlow
    have hsize : 0 < t.size := by
      by_contra hzero
      rw [Nat.eq_zero_of_not_pos hzero] at hhigh
      omega
    have hfloor := Nat.div_mul_le_self (x - v.base) t.size
    have hceiling := Nat.lt_div_mul_add hsize (a := x - v.base)
    refine ⟨(x - v.base) / t.size, (Nat.div_lt_iff_lt_mul hsize).mpr (by omega), ?_, ?_⟩
    · change v.base + (x - v.base) / t.size * t.size ≤ x
      omega
    · change x < v.base + (x - v.base) / t.size * t.size + t.size
      omega
  · rintro ⟨index, hindex, hlow, hhigh⟩
    exact contains_of_element hindex hlow hhigh

namespace Session

variable {s : Session} {t : ElementType} {v : View t} {view : String}

theorem step_access (hv : s.views.get? view = some ⟨t, v⟩) (ho : s.observer.observes v.owner) (a : ElementAccess) :
    (s.step (a.on view)).2 =
      { s with observer := s.observer.enter (s.observer.elementRegistration a.phase v a.index) } := by
  cases a with
  | read index =>
      have henters := Observer.enters_readElement s.observer s.process.memory v index
      rw [Observer.Enters, Observer.note_nil] at henters
      rw [ElementAccess.on, step, withView_of_some hv]
      dsimp only [ElementAccess.phase, ElementAccess.index]
      rw [← henters]
      rcases s.observer.readElement s.process.memory v index with ⟨f | value, o⟩ <;> rfl
  | write index value =>
      rw [ElementAccess.on, step, withView_of_some hv]
      dsimp only [ElementAccess.phase, ElementAccess.index]
      rw [Observer.elementRegistration]
      rcases Nat.lt_or_ge index v.count with hi | hi
      · rw [Observer.writeElement_of_lt hi, if_pos ho, if_pos ⟨ho, hi⟩]
        rfl
      · rw [Observer.writeElement_of_le hi, if_neg fun h => Nat.not_lt.mpr hi h.2]
        rfl

/-- From `s` to `t` the ranges of `l` were registered one after the other, and all but the observer is as it was. -/
structure RegistersOnly (s : Session) (l : List (Nat × Nat)) (t : Session) : Prop where
  pending : t.observer.pending = s.observer.pending.insertAll l
  rest : t = { s with observer := t.observer }

theorem RegistersOnly.trans {r : Session} {l m : List (Nat × Nat)} (h : r.RegistersOnly l s) {u : Session}
    (h' : s.RegistersOnly m u) : r.RegistersOnly (l ++ m) u where
  pending := by rw [h'.pending, h.pending, Coverage.insertAll, Coverage.insertAll, ← List.foldl_append]; rfl
  rest := by rw [h'.rest, h.rest]

def accessedExtents (v : View t) (accesses : List ElementAccess) : List (Nat × Nat) :=
  (accesses.filter (·.index < v.count)).map fun a => v.elementExtent a.index

theorem registersOnly_access (hv : s.views.get? view = some ⟨t, v⟩) (ho : s.observer.observes v.owner)
    (a : ElementAccess) : s.RegistersOnly (accessedExtents v [a]) (s.step (a.on view)).2 := by
  have hextents : accessedExtents v [a] = s.observer.elementRegistrations v a.index := by
    rw [accessedExtents, Observer.elementRegistrations, List.filter_singleton]
    by_cases h : a.index < v.count <;> simp [h, ho]
  rw [step_access hv ho, hextents]
  refine ⟨?_, rfl⟩
  rw [Observer.pending_enter, Observer.ranges_elementRegistration]

theorem registersOnly_accesses (hv : s.views.get? view = some ⟨t, v⟩) (ho : s.observer.observes v.owner)
    (accesses : List ElementAccess) :
    s.RegistersOnly (accessedExtents v accesses) (s.run (accesses.map (·.on view))) := by
  induction accesses generalizing s with
  | nil => exact ⟨rfl, rfl⟩
  | cons a rest ih =>
      have hstep := registersOnly_access hv ho a
      have hviews : (s.step (a.on view)).2.views = s.views := by rw [hstep.rest]
      have hobserves : (s.step (a.on view)).2.observer.observes v.owner := by
        rw [Observer.observes, observesApplication_step]
        exact ho
      have hrest := ih (s := (s.step (a.on view)).2) (by rw [hviews, hv]) hobserves
      have happend : accessedExtents v (a :: rest) = accessedExtents v [a] ++ accessedExtents v rest := by
        rw [accessedExtents, accessedExtents, accessedExtents, ← List.map_append, ← List.filter_append,
          List.singleton_append]
      rw [happend]
      exact hstep.trans hrest

theorem registersOnly_registerView (hv : s.views.get? view = some ⟨t, v⟩) (ho : s.observer.observes v.owner)
    (phase : Phase) : s.RegistersOnly [v.extent] (s.step (.registerView phase view)).2 := by
  refine ⟨?_, ?_⟩
  · rw [pending_step_registerView hv, if_pos ho]
  · rw [step, withView_of_some hv]

theorem inserted_accessedExtents {accesses : List ElementAccess}
    (hall : ∀ index < v.count, ∃ a ∈ accesses, a.index = index) (x : Nat) :
    Inserted (accessedExtents v accesses) x ↔ Inserted [v.extent] x := by
  constructor
  · rintro ⟨range, hrange, hlow, hhigh⟩
    obtain ⟨a, ha, rfl⟩ := List.mem_map.mp hrange
    have hindex : a.index < v.count := of_decide_eq_true (List.mem_filter.mp ha).2
    obtain ⟨hhigh, htop⟩ := Nat.lt_min.mp hhigh
    obtain ⟨hlow, hhigh⟩ := (v.contains_iff_element x).mpr ⟨a.index, hindex, hlow, hhigh⟩
    exact ⟨v.extent, List.mem_cons_self, hlow, Nat.lt_min.mpr ⟨hhigh, htop⟩⟩
  · rintro ⟨range, hrange, hlow, hhigh⟩
    obtain rfl := List.mem_singleton.mp hrange
    obtain ⟨hhigh, htop⟩ := Nat.lt_min.mp hhigh
    obtain ⟨index, hindex, hlow, hhigh⟩ := (v.contains_iff_element x).mp ⟨hlow, hhigh⟩
    obtain ⟨a, ha, rfl⟩ := hall index hindex
    have hreached : a ∈ accesses.filter (·.index < v.count) := List.mem_filter.mpr ⟨ha, decide_eq_true hindex⟩
    exact ⟨v.elementExtent a.index, List.mem_map_of_mem hreached, hlow, Nat.lt_min.mpr ⟨hhigh, htop⟩⟩

/-- In every state that a run reaches under the full policy, reading and writing the elements of a view of the
application, in any order, some of them more than once but none left out, makes the same ranges pending as the
registration of the view. Neither changes any memory. -/
theorem elements_registered_as_view (config : ObserverConfig) (readerOf : Memory → Memory → Reader)
    (placement : PoolPlacement) (source : ChunkSource) (actions : List Action) {t : ElementType} (v : View t)
    (view : String) (accesses : List ElementAccess) :
    let s := (Session.new config readerOf placement source).run actions
    config.observesApplication = true → v.owner = .application → s.views.get? view = some ⟨t, v⟩ →
    (∀ index < v.count, ∃ a ∈ accesses, a.index = index) →
    let elementwise := s.run (accesses.map (·.on view))
    ∀ phase,
      let whole := (s.step (.registerView phase view)).2
      elementwise.observer.pending = whole.observer.pending ∧
      elementwise = { s with observer := elementwise.observer } ∧ whole = { s with observer := whole.observer } := by
  intro s hfull happ hv hall elementwise phase whole
  have hcanonical : s.observer.pending.Canonical := canonical_pending_run Coverage.canonical_empty actions
  have hobserves : s.observer.observes v.owner :=
    Observer.observes_iff.mpr ⟨(observesApplication_run _ actions).trans hfull, happ⟩
  have helements : s.RegistersOnly _ elementwise := registersOnly_accesses hv hobserves accesses
  have hwhole : s.RegistersOnly _ whole := registersOnly_registerView hv hobserves phase
  refine ⟨?_, helements.rest, hwhole.rest⟩
  rw [helements.pending, hwhole.pending]
  exact hcanonical.insertAll_eq (inserted_accessedExtents hall)

theorem words_registered_as_view :
    let s := (Session.new .fullFidelity (fun m _ => m.reader) AddressSpace.placePool AddressSpace.placeChunk).run
      [.register .read 20 4, .borrow "v" (.unsigned .w32) false 8 2]
    s.views.get? "v" = some ⟨.unsigned .w32, .borrow (.unsigned .w32) .application 8 2⟩ ∧
      (s.run [.writeElement "v" 1 (.integer 7), .readElement "v" 0, .readElement "v" 0]).observer.pending =
        (s.step (.registerView .write "v")).2.observer.pending :=
  ⟨rfl, (elements_registered_as_view .fullFidelity (fun m _ => m.reader) AddressSpace.placePool
    AddressSpace.placeChunk [.register .read 20 4, .borrow "v" (.unsigned .w32) false 8 2]
    (.borrow (.unsigned .w32) .application 8 2) "v" [.write 1 (.integer 7), .read 0, .read 0]
    rfl rfl rfl (by decide) .write).1⟩

end Session

end CallCapture
