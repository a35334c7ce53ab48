import CallCapture.Proofs.Session.Capture
import CallCapture.Proofs.Session.Pools

namespace CallCapture

def View.elementRegion {t : ElementType} (v : View t) (index : Nat) : Region :=
  ⟨v.base + index * t.size, t.size, v.owner, v.backing⟩

theorem Region.BackedBy.backing_of_observes {r : Region} {made : List Pool} (h : r.BackedBy made) {o : Observer}
    (ho : o.observes r.owner) : r.backing = none := by
  cases hr : r.backing with
  | none => rfl
  | some p =>
      obtain ⟨-, -, -, howner⟩ := h p hr
      rw [Observer.observes, howner, Ownership.isApplication, Bool.and_false] at ho
      cases ho

namespace Session

def elementRegions (s : Session) : Action → List Region
  | .readElement view index | .writeElement view index _ =>
    (s.views.get? view).elim [] fun v =>
      if s.observer.observes v.view.owner ∧ index < v.view.count then [v.view.elementRegion index] else []
  | _ => []

def registeredRegions (s : Session) (a : Action) : List Region := (s.registration a).regions ++ s.elementRegions a

section registeredRegions

variable {s : Session} {a : Action} {r : Region}

theorem mem_elementRegions (h : r ∈ s.elementRegions a) :
    (r.base, r.byteLength) ∈ s.registrations a ∧
      ∃ v ∈ s.views.values, s.observer.observes v.view.owner ∧ r.backing = v.view.backing := by
  cases a with
  | readElement view index | writeElement view index _ =>
      rw [elementRegions] at h
      rw [registrations]
      cases hv : s.views.get? view with
      | none =>
          rw [hv] at h
          cases h
      | some v =>
          rw [hv, Option.elim_some] at h
          split at h
          · rename_i hobserved
            obtain rfl := List.mem_singleton.mp h
            rw [Option.elim_some, Observer.elementRegistrations, if_pos hobserved]
            exact ⟨List.mem_cons_self, v, Names.mem_values_of_get? hv, hobserved.1, rfl⟩
          · cases h
  | _ => cases h

theorem mem_registrations_of_registeredRegions (h : r ∈ s.registeredRegions a) :
    (r.base, r.byteLength) ∈ s.registrations a := by
  rcases List.mem_append.mp h with h | h
  · rw [← ranges_registration]
    exact Registration.mem_ranges_of_mem_regions h
  · exact (mem_elementRegions h).1

theorem Grounded.backedBy_of_get? (h : s.Grounded) {view : String} {v : TypedView} (hv : s.views.get? view = some v) :
    v.view.region.BackedBy s.process.pools.made := h.views v (Names.mem_values_of_get? hv)

theorem exists_view_of_registration (hr : r ∈ (s.registration a).regions) :
    r.backing = none ∨ ∃ v ∈ s.views.values, v.view.region = r := by
  cases a with
  | registerView phase view =>
      obtain ⟨v, hv, hr⟩ := Registration.mem_regions_elim hr
      obtain rfl := List.mem_singleton.mp (Registration.mem_regions_ite hr).2
      exact .inr ⟨v, Names.mem_values_of_get? hv, rfl⟩
  | registerForeign phase base length tool =>
      obtain rfl := List.mem_singleton.mp (Registration.mem_regions_ite hr).2
      exact .inl rfl
  | copy dst src name =>
      obtain ⟨w, -, hr⟩ := Registration.mem_regions_elim hr
      obtain ⟨v, hv, hr⟩ := Registration.mem_regions_elim hr
      obtain rfl := List.mem_singleton.mp (Registration.mem_regions_ite hr).2
      exact .inr ⟨v, Names.mem_values_of_get? hv, rfl⟩
  | cloneView src name =>
      obtain ⟨v, hv, hr⟩ := Registration.mem_regions_elim hr
      obtain ⟨w, -, hr⟩ := Registration.mem_regions_elim hr
      obtain rfl := List.mem_singleton.mp hr
      exact .inr ⟨v, Names.mem_values_of_get? hv, rfl⟩
  | readStringView view =>
      obtain ⟨v, hv, hr⟩ := Registration.mem_regions_elim hr
      obtain rfl := List.mem_singleton.mp (Registration.mem_regions_ite hr).2
      exact .inr ⟨v, Names.mem_values_of_get? hv, rfl⟩
  | readElement view index | writeElement view index _ =>
      obtain ⟨v, -, hr⟩ := Registration.mem_regions_elim hr
      rw [Observer.regions_elementRegistration] at hr
      cases hr
  | readString address =>
      rw [registration, Observer.regions_stringRegistration] at hr
      cases hr
  | _ => cases hr

theorem Grounded.backedBy_registration (h : s.Grounded) (hr : r ∈ (s.registration a).regions) :
    r.BackedBy s.process.pools.made := by
  rcases exists_view_of_registration hr with hnone | ⟨v, hv, rfl⟩
  · exact Region.backedBy_of_none hnone _
  · exact h.views v hv

theorem Grounded.backing_of_mem_elementRegions (h : s.Grounded) (hr : r ∈ s.elementRegions a) : r.backing = none := by
  obtain ⟨-, v, hv, hobserved, hbacking⟩ := mem_elementRegions hr
  rw [hbacking]
  exact (h.views v hv).backing_of_observes hobserved

theorem Grounded.backedBy_registeredRegions (h : s.Grounded) (hr : r ∈ s.registeredRegions a) :
    r.BackedBy s.process.pools.made := by
  rcases List.mem_append.mp hr with hr | hr
  · exact h.backedBy_registration hr
  · exact Region.backedBy_of_none (h.backing_of_mem_elementRegions hr) _

theorem Grounded.pools_registeredRegions (h : s.Grounded) (a : Action) :
    (s.registeredRegions a).filterMap Region.pool? = (s.registration a).pools := by
  have helements : (s.elementRegions a).filterMap Region.pool? = [] := by
    rw [List.filterMap_eq_nil_iff]
    intro r hr
    rw [Region.pool?, h.backing_of_mem_elementRegions hr, ite_self]
  rw [registeredRegions, List.filterMap_append, helements, List.append_nil, Registration.pools]

end registeredRegions

/-- What was registered through views since the last capture, and whether a capture has stopped at a fault with no
capture since that let go of the pools. -/
structure Retention where
  regions : List Region
  stopped : Bool

end Session

def Answer.isFault : Answer → Bool
  | .fault _ => true
  | _ => false

namespace Session

/-- Of an empty set nothing is captured into the record, and no pool is let go. -/
def retentionAfter (s : Session) (g : Retention) (a : Action) : Retention :=
  match a.target? with
  | none => ⟨g.regions ++ s.registeredRegions a, g.stopped⟩
  | some target => ⟨[], (s.step a).1.isFault || g.stopped && target.isSome && s.observer.pending.isEmpty⟩

def retention (s : Session) (g : Retention) : List Action → Retention
  | [] => g
  | a :: rest => (s.step a).2.retention (s.retentionAfter g a) rest

def Placed (s : Session) : Prop := ∀ p ∈ s.process.pools.made, p.size ≠ 0 → p.base + p.size ≤ addressTop

theorem Placed.of_prefix {s t : Session} (h : t.Placed) (hmade : s.process.pools.made <+: t.process.pools.made) :
    s.Placed := fun p hp => h p (hmade.subset hp)

theorem holds_iff {s : Session} {p : Pool} :
    s.holds p ↔
      (∃ v ∈ s.views.values, v.view.backing = some p) ∨ p ∈ s.pools.values ∨ p ∈ s.observer.retained := by
  simp only [holds, Bool.or_eq_true, List.any_eq_true, List.contains_iff_mem, decide_eq_true_eq, or_assoc]

theorem mem_alive {s : Session} {p : Pool} :
    p ∈ s.alive ↔ p ∈ s.process.pools.made ∧
      ((∃ v ∈ s.views.values, v.view.backing = some p) ∨ p ∈ s.pools.values ∨ p ∈ s.observer.retained) := by
  rw [alive, List.mem_filter, holds_iff]

/-- The observer of `s` keeps the pools behind the regions of `g`, all bytes of which are pending. -/
structure Retains (s : Session) (g : Retention) : Prop where
  canonical : s.observer.pending.Canonical
  backed : ∀ r ∈ g.regions, r.BackedBy s.process.pools.made
  pending : ∀ r ∈ g.regions, ∀ a, r.base ≤ a → a < r.base + r.byteLength → a < addressTop → a ∈ s.observer.pending
  retained : g.regions.filterMap Region.pool? <:+ s.observer.retained
  exact : g.stopped = false → s.observer.retained = g.regions.filterMap Region.pool?

section target

variable {s : Session} {a : Action} {target : Option Phase}

theorem isFault_step_of_target (ha : a.target? = some target) :
    (s.step a).1.isFault = s.observer.pending.captureFault?.isSome := by
  have hfaults := (s.step_captures ha).faults
  cases hfault : s.observer.pending.captureFault? with
  | some f => rw [(hfaults f).mpr hfault]; rfl
  | none =>
      cases hanswer : (s.step a).1 with
      | fault f =>
          have hf := (hfaults f).mp hanswer
          rw [hfault] at hf
          cases hf
      | _ => rfl

theorem retained_step_of_target (ha : a.target? = some target) :
    (s.step a).2.observer.retained =
      if (target.isSome ∧ s.observer.pending.isEmpty) ∨ (s.step a).1.isFault then s.observer.retained else [] := by
  rw [isFault_step_of_target ha]
  cases a with
  | capturePhase phase =>
      cases ha
      rw [state_step_capturePhase]
      simp only [Observer.retained_capturePhase, Option.isSome_some, true_and]
  | captureInto =>
      cases ha
      rw [state_step_captureInto]
      simp only [Observer.retained_captureInto, Option.isSome_none, Bool.false_eq_true, false_and, false_or]
  | _ => cases ha

end target

namespace Retains

variable {s : Session} {g : Retention}

theorem pending_of_pool? (h : s.Retains g) (hplaced : s.Placed) {r : Region} (hr : r ∈ g.regions) {p : Pool}
    (hp : r.pool? = some p) {a : Nat} (ha : r.base ≤ a) (hstop : a < r.base + r.byteLength) :
    a ∈ s.observer.pending ∧ p.base ≤ a ∧ a < p.base + p.size := by
  obtain ⟨hsize, hbacking⟩ := Region.pool?_eq_some.mp hp
  obtain ⟨hmade, hbase, hle, -⟩ := h.backed r hr p hbacking
  have htop := hplaced p hmade (by omega)
  exact ⟨h.pending r hr a ha hstop (by omega), by omega, by omega⟩

theorem retained_of_isEmpty (h : s.Retains g) (hplaced : s.Placed) (hempty : s.observer.pending.isEmpty)
    (hstopped : g.stopped = false) : s.observer.retained = [] := by
  rw [h.exact hstopped, List.filterMap_eq_nil_iff]
  intro r hr
  cases hp : r.pool? with
  | none => rfl
  | some p =>
      have hsize := (Region.pool?_eq_some.mp hp).1
      have hmem := (h.pending_of_pool? hplaced hr hp (Nat.le_refl r.base) (by omega)).1
      exact absurd hmem (Coverage.isEmpty_iff_forall_not_mem.mp hempty r.base)

theorem step_of_onlyRegisters (h : s.Retains g) (hs : s.Grounded) {a : Action} (ha : a.onlyRegisters) :
    (s.step a).2.Retains ⟨g.regions ++ s.registeredRegions a, g.stopped⟩ := by
  have henters := (s.step_enters ha).observer
  have hmade := (s.step_grounds a).made.kept
  have hpending := henters.pending
  have hretained := henters.retained
  rw [ranges_registration] at hpending
  rw [← hs.pools_registeredRegions] at hretained
  refine ⟨?_, fun r hr => ?_, fun r hr b hb hstop htop => ?_, ?_, fun hstopped => ?_⟩
  · rw [hpending]
    exact Coverage.canonical_insertAll h.canonical _
  · rcases List.mem_append.mp hr with hr | hr
    · exact (h.backed r hr).mono hmade.subset
    · exact (hs.backedBy_registeredRegions hr).mono hmade.subset
  · rw [hpending, Coverage.mem_insertAll h.canonical]
    rcases List.mem_append.mp hr with hr | hr
    · exact .inl (h.pending r hr b hb hstop htop)
    · exact .inr ⟨_, mem_registrations_of_registeredRegions hr, hb, lt_min hstop htop⟩
  · obtain ⟨l, hl⟩ := h.retained
    rw [hretained, List.filterMap_append, ← hl, List.append_assoc]
    exact List.suffix_append l _
  · rw [hretained, List.filterMap_append, h.exact hstopped]

theorem retained_step_of_target (h : s.Retains g) (hplaced : s.Placed) {a : Action} {target : Option Phase}
    (ha : a.target? = some target) (hstopped : (s.retentionAfter g a).stopped = false) :
    (s.step a).2.observer.retained = [] := by
  simp only [retentionAfter, ha, Bool.or_eq_false_iff] at hstopped
  rw [Session.retained_step_of_target ha, hstopped.1]
  by_cases hnothing : target.isSome ∧ s.observer.pending.isEmpty
  · rw [if_pos (Or.inl hnothing)]
    refine h.retained_of_isEmpty hplaced hnothing.2 ?_
    simpa only [hnothing.1, hnothing.2, Bool.and_true] using hstopped.2
  · rw [if_neg (by simp only [hnothing, Bool.false_eq_true, or_self, not_false_eq_true])]

theorem step_of_target (h : s.Retains g) (hplaced : s.Placed) {a : Action} {target : Option Phase}
    (ha : a.target? = some target) : (s.step a).2.Retains (s.retentionAfter g a) := by
  have hregions : (s.retentionAfter g a).regions = [] := by simp only [retentionAfter, ha]
  have hnone : ∀ r ∈ (s.retentionAfter g a).regions, False := by
    rw [hregions]
    exact fun _ => List.not_mem_nil
  refine ⟨?_, fun r hr => (hnone r hr).elim, fun r hr => (hnone r hr).elim, ?_, fun hstopped => ?_⟩
  · rw [(s.step_captures ha).pending]
    exact Coverage.canonical_ofList []
  · rw [hregions]
    exact List.nil_suffix
  · rw [hregions]
    exact h.retained_step_of_target hplaced ha hstopped

theorem step (h : s.Retains g) (hs : s.Grounded) (hplaced : s.Placed) (a : Action) :
    (s.step a).2.Retains (s.retentionAfter g a) := by
  cases ha : a.target? with
  | some target => exact h.step_of_target hplaced ha
  | none =>
      rw [retentionAfter, ha]
      cases honly : a.onlyRegisters with
      | true => exact h.step_of_onlyRegisters hs honly
      | false =>
          cases a with
          -- these change the observer elsewhere
          | setName | setError | addExtra | scratch =>
              change Retains _ ⟨g.regions ++ [], g.stopped⟩
              rw [List.append_nil]
              exact ⟨h.canonical, h.backed, h.pending, h.retained, h.exact⟩
          | capturePhase | captureInto => cases ha
          | _ => cases honly

theorem run (h : s.Retains g) (hs : s.Grounded) {actions : List Action} (hplaced : (s.run actions).Placed) :
    (s.run actions).Retains (s.retention g actions) := by
  induction actions generalizing s g with
  | nil => exact h
  | cons a rest ih =>
      have hmade := (s.run_grounds (a :: rest)).made.kept
      have hstep : (s.step a).2.Retains (s.retentionAfter g a) := h.step hs (hplaced.of_prefix hmade) a
      exact ih hstep ((s.step_grounds a).grounded hs) hplaced

theorem alive_of_pool? (h : s.Retains g) {r : Region} (hr : r ∈ g.regions) {p : Pool} (hp : r.pool? = some p) :
    p ∈ s.alive := by
  have hmade := (h.backed r hr p (Region.pool?_eq_some.mp hp).2).1
  have hretained : p ∈ s.observer.retained := h.retained.subset (List.mem_filterMap.mpr ⟨r, hr, hp⟩)
  exact mem_alive.mpr ⟨hmade, .inr (.inr hretained)⟩

end Retains

theorem retains_new (config : ObserverConfig) (readerOf : Memory → Memory → Reader) (placement : PoolPlacement)
    (source : ChunkSource) : (Session.new config readerOf placement source).Retains ⟨[], false⟩ :=
  ⟨Coverage.canonical_empty, nofun, nofun, List.suffix_rfl, fun _ => rfl⟩

/-- Every byte registered through a view over a pool since the last capture is pending and lies in a pool that is
alive, whatever views and names were dropped. Unless a capture stopped at a fault, pools are kept for pending bytes
alone, and a capture that succeeds keeps none of them: afterwards a pool lives by its views and names. -/
theorem pools_outlive_registrations (config : ObserverConfig) (readerOf : Memory → Memory → Reader)
    (placement : PoolPlacement) (source : ChunkSource) (actions : List Action) :
    let s := (Session.new config readerOf placement source).run actions
    let g := (Session.new config readerOf placement source).retention ⟨[], false⟩ actions
    s.Placed →
    (∀ r ∈ g.regions, ∀ p, r.backing = some p → ∀ a, r.base ≤ a → a < r.base + r.byteLength →
      a ∈ s.observer.pending ∧ p ∈ s.alive ∧ p.base ≤ a ∧ a < p.base + p.size) ∧
    (g.stopped = false →
      (s.observer.retained ≠ [] → ¬s.observer.pending.isEmpty) ∧
      ∀ p ∈ s.observer.retained, ∃ r ∈ g.regions, r.backing = some p ∧ r.byteLength ≠ 0 ∧
        ∀ a, r.base ≤ a → a < r.base + r.byteLength → a ∈ s.observer.pending) ∧
    ∀ a target, a.target? = some target → (s.step a).1.isFault = false →
      (g.stopped = false ∨ target = none ∨ ¬s.observer.pending.isEmpty) →
      (s.step a).2.observer.retained = [] ∧
      ∀ p ∈ (s.step a).2.alive,
        (∃ v ∈ (s.step a).2.views.values, v.view.backing = some p) ∨ p ∈ (s.step a).2.pools.values := by
  intro s g hplaced
  have h : s.Retains g := (retains_new config readerOf placement source).run
    (grounded_new config readerOf placement source) hplaced
  refine ⟨fun r hr p hbacking a ha hstop => ?_, fun hstopped => ⟨fun hne hempty => ?_, fun p hp => ?_⟩,
    fun a target ha hfault hkept => ?_⟩
  · have hp : r.pool? = some p := Region.pool?_eq_some.mpr ⟨by omega, hbacking⟩
    obtain ⟨hpending, hinside⟩ := h.pending_of_pool? hplaced hr hp ha hstop
    exact ⟨hpending, h.alive_of_pool? hr hp, hinside⟩
  · exact hne (h.retained_of_isEmpty hplaced hempty hstopped)
  · rw [h.exact hstopped] at hp
    obtain ⟨r, hr, hrp⟩ := List.mem_filterMap.mp hp
    obtain ⟨hsize, hbacking⟩ := Region.pool?_eq_some.mp hrp
    exact ⟨r, hr, hbacking, hsize, fun a ha hstop => (h.pending_of_pool? hplaced hr hrp ha hstop).1⟩
  · have hstopped : (s.retentionAfter g a).stopped = false := by
      simp only [retentionAfter, ha, hfault, Bool.false_or]
      rcases hkept with hg | rfl | hpending
      · rw [hg, Bool.false_and, Bool.false_and]
      · rw [Option.isSome_none, Bool.and_false, Bool.false_and]
      · rw [Bool.not_eq_true _ |>.mp hpending, Bool.and_false]
    have hretained := h.retained_step_of_target hplaced ha hstopped
    refine ⟨hretained, fun p hp => ?_⟩
    rcases (mem_alive.mp hp).2 with hview | hname | hkept
    · exact .inl hview
    · exact .inr hname
    · rw [hretained] at hkept
      cases hkept

theorem dropped_view_outlived :
    let s := (Session.new .lightweight (fun _ _ => Memory.pattern.reader) AddressSpace.placePool
      AddressSpace.placeChunk).run [.make "v" (.signed .w8) 3, .readStringView "v", .dropView "v"]
    s.views.values = [] ∧ ∃ p ∈ s.alive, p.base ∈ s.observer.pending := by
  intro s
  have hmade : s.process.pools.made = [⟨0, .first, AddressSpace.firstPool, 3⟩] := rfl
  have hplaced : s.Placed := by
    intro p hp _
    rw [hmade] at hp
    obtain rfl := List.mem_singleton.mp hp
    decide
  obtain ⟨houtlives, -⟩ := pools_outlive_registrations .lightweight (fun _ _ => Memory.pattern.reader)
    AddressSpace.placePool AddressSpace.placeChunk
    [.make "v" (.signed .w8) 3, .readStringView "v", .dropView "v"] hplaced
  obtain ⟨hpending, halive, -⟩ := houtlives _ List.mem_cons_self _ rfl AddressSpace.firstPool (by decide) (by decide)
  exact ⟨rfl, _, halive, hpending⟩

/-- A pool stays behind a capture that stopped at a fault, though nothing is pending any more. -/
theorem stopped_capture_keeps_pool :
    ¬∀ actions : List Action,
      let s := (Session.new .lightweight (fun _ _ => Memory.pattern.reader) AddressSpace.placePool
        AddressSpace.placeChunk).run actions
      s.Placed → (s.observer.retained ≠ [] → ¬s.observer.pending.isEmpty) ∧
        ∀ a target, a.target? = some target → (s.step a).2.observer.retained = [] := by
  intro h
  have hplaced : ((Session.new .lightweight (fun _ _ => Memory.pattern.reader) AddressSpace.placePool
      AddressSpace.placeChunk).run [.make "v" (.signed .w8) 3, .readStringView "v", .register .read 9 (2 ^ 63),
        .capturePhase .read]).Placed := by
    intro p hp _
    obtain rfl : p = ⟨0, .first, AddressSpace.firstPool, 3⟩ := List.mem_singleton.mp hp
    decide
  have hretained := (h _ hplaced).2 (.capturePhase .read) (some .read) rfl
  cases hretained

end Session

end CallCapture
