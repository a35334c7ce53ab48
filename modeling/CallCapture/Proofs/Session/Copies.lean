import CallCapture.Proofs.Session.Footprint
import CallCapture.Proofs.Views.Snapshot

namespace CallCapture

namespace Observer

variable {t : ElementType}

theorem adds_registerRegion {o : Observer} (hc : o.pending.Canonical) (phase : Phase) (r : Region) :
    o.Adds (r.base, r.byteLength) (o.registerRegion phase r) :=
  adds_of_insertAll hc (pending_enter o (.region phase r))

theorem retained_registerRegion (o : Observer) (phase : Phase) (r : Region) :
    (o.registerRegion phase r).retained = o.retained ++ r.pool?.toList := by
  rw [← Registration.pools_region phase]
  exact retained_enter o (.region phase r)

theorem Adds.mem_pending {o p : Observer} {range : Nat × Nat} (h : o.Adds range p)
    (htop : range.1 + range.2 ≤ addressTop) (a : Nat) :
    a ∈ p.pending ↔ a ∈ o.pending ∨ range.1 ≤ a ∧ a < range.1 + range.2 := by
  rw [h a, Nat.min_eq_left htop]

theorem registerRegion_of_empty (o : Observer) (phase : Phase) {r : Region} (h : r.byteLength = 0) :
    o.registerRegion phase r = o := if_pos h

theorem memory_copy_of_observes {o : Observer} {dst : View t} (h : o.observes dst.owner) (m : Memory)
    (src : View t) : (o.copy m dst src).2.2 = m := by
  rw [copy_eq]
  exact if_pos h

theorem copyTo_memory_copy {o : Observer} {dst : View t} (h : ¬o.observes dst.owner) (m : Memory) (src : View t) :
    src.copyTo dst m 0 (min src.count dst.count) 0 = .ok (o.copy m dst src).2.2 := by
  rw [copy_eq, View.copyTo_min, if_neg h]

end Observer

namespace Session

/-- A copy never faults and gives back its destination. In every state that a run reaches, it adds the range of the
source and nothing else to what is pending. To a destination that is not observed it brings as many elements as both
views have, as they were before, and it changes no other byte; of an observed one it changes no byte at all. -/
theorem copy_takes_common_elements (config : ObserverConfig) (readerOf : Memory → Memory → Reader)
    (placement : PoolPlacement) (source : ChunkSource) (actions : List Action) {t : ElementType} (dst src : View t)
    (m : Memory) :
    let s := (Session.new config readerOf placement source).run actions
    let common := min src.count dst.count
    ∃ p n, s.observer.copy m dst src = (.ok dst, p, n) ∧
      s.observer.Adds src.extent p ∧
      (src.base + src.byteLength ≤ addressTop →
        ∀ a, a ∈ p.pending ↔ a ∈ s.observer.pending ∨ src.region.Contains a) ∧
      (src.byteLength = 0 → p = s.observer) ∧
      (config.observesApplication = true → dst.owner = .application → n = m) ∧
      (config.observesApplication = false ∨ dst.owner ≠ .application →
        (∀ i < common, ∃ value, src.get m i = .ok value ∧ dst.get n i = .ok value) ∧
        ∀ x, x < dst.base ∨ dst.base + common * t.size ≤ x → n.byteAt x = m.byteAt x) ∧
      (s.process.memory = m → ∀ dstName srcName name, s.views.get? dstName = some ⟨t, dst⟩ →
        s.views.get? srcName = some ⟨t, src⟩ →
        let r := s.step (.copy dstName srcName name)
        r.1 = .view ⟨t, dst⟩ ∧ r.2.views.get? name = some ⟨t, dst⟩ ∧ r.2.observer = p ∧
          r.2.process.memory = n) := by
  intro s common
  have hcanonical : s.observer.pending.Canonical := canonical_pending_run Coverage.canonical_empty actions
  have hpolicy : s.observer.observesApplication = config.observesApplication := observesApplication_run _ actions
  have hadds := Observer.adds_registerRegion hcanonical .read src.region
  refine ⟨s.observer.registerRegion .read src.region, (s.observer.copy m dst src).2.2, ?_, hadds,
    fun htop a => hadds.mem_pending htop a, fun h => s.observer.registerRegion_of_empty .read h,
    fun hfull happ => ?_, fun hgate => ?_, fun hmemory dstName srcName name hdst hsrc => ?_⟩
  · rw [Observer.copy_eq]
  · exact Observer.memory_copy_of_observes (Observer.observes_iff.mpr ⟨hpolicy.trans hfull, happ⟩) m src
  · have hunobserved : ¬s.observer.observes dst.owner := by
      rw [Observer.observes_iff, hpolicy]
      rintro ⟨hfull, happ⟩
      rcases hgate with hoff | htool
      · rw [hoff] at hfull
        cases hfull
      · exact htool happ
    have hcopy := Observer.copyTo_memory_copy hunobserved m src
    refine ⟨fun i hi => ⟨src.element m i, View.get_of_lt (by omega) m, ?_⟩, fun x hx => ?_⟩
    · have helement := View.element_copyTo hcopy hi
      rw [Nat.zero_add] at helement
      rw [View.get_of_lt (by omega), helement]
    · apply View.byteAt_copyTo hcopy
      rw [Nat.zero_mul, Nat.add_zero, Nat.zero_add]
      exact hx
  · subst hmemory
    have hstep : s.step (.copy dstName srcName name) = s.copy dst src name := by
      rw [step, withViews, withView_of_some hdst, withView_of_some hsrc, TypedView.at?_self]
    rw [hstep, copy_eq, Observer.copy_eq]
    exact ⟨rfl, Names.get?_put_self _ _ _, rfl, rfl⟩

theorem straddling_words_copied :
    let s := (Session.new .fullFidelity (fun m _ => m.reader) AddressSpace.placePool AddressSpace.placeChunk).run
      [.borrow "a" (.unsigned .w16) false 8 3, .borrow "b" (.unsigned .w16) true 9 2, .poke 8 [1, 2, 3, 4, 5, 6]]
    let dst := View.borrow (.unsigned .w16) (.tool .first) 9 2
    s.views.get? "b" = some ⟨.unsigned .w16, dst⟩ ∧
      dst.get (s.step (.copy "b" "a" "r")).2.process.memory 1 = .ok 0x0403#16 := by
  intro s dst
  have hdst : s.views.get? "b" = some ⟨.unsigned .w16, dst⟩ := rfl
  obtain ⟨p, n, -, -, -, -, -, hcopied, hstep⟩ := copy_takes_common_elements .fullFidelity (fun m _ => m.reader)
    AddressSpace.placePool AddressSpace.placeChunk
    [.borrow "a" (.unsigned .w16) false 8 3, .borrow "b" (.unsigned .w16) true 9 2, .poke 8 [1, 2, 3, 4, 5, 6]]
    dst (.borrow (.unsigned .w16) .application 8 3) s.process.memory
  obtain ⟨-, -, -, hmemory⟩ := hstep rfl "b" "a" "r" hdst rfl
  obtain ⟨value, hsrc, hvalue⟩ := (hcopied (.inr nofun)).1 1 (by decide)
  refine ⟨hdst, ?_⟩
  rw [hmemory, hvalue, ← hsrc]
  rfl

end Session

end CallCapture
