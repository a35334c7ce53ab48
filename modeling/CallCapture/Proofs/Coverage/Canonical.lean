import CallCapture.Coverage.Lemmas
import Mathlib.Combinatorics.Enumerative.DoubleCounting
import Mathlib.Data.List.Pairwise

namespace CallCapture

structure AddressRange.IsMaximal (S : Nat → Prop) (r : AddressRange) : Prop where
  inside : ∀ a, r.Contains a → S a
  not_before : ∀ a, a + 1 = r.start → ¬S a
  not_after : ¬S r.stop

namespace Coverage

variable {c d : Coverage}

theorem Canonical.apart (hc : c.Canonical) {r s : AddressRange} (hr : r ∈ c.ranges) (hs : s ∈ c.ranges) :
    r = s ∨ r.stop < s.start ∨ s.stop < r.start := by
  have hsymm : Std.Symm fun r s : AddressRange => r.stop < s.start ∨ s.stop < r.start := ⟨fun _ _ => Or.symm⟩
  have hp : c.ranges.Pairwise fun r s => r.stop < s.start ∨ s.stop < r.start := hc.imp Or.inl
  by_cases he : r = s
  · exact Or.inl he
  · exact Or.inr (hp.forall hr hs he)

theorem Canonical.isMaximal (hc : c.Canonical) {r : AddressRange} (hr : r ∈ c.ranges) :
    r.IsMaximal (· ∈ c) where
  inside a ha := ⟨r, hr, ha⟩
  not_before := by
    rintro a ha ⟨s, hs, hsa⟩
    have := r.start_lt_stop
    simp only [AddressRange.Contains] at hsa
    rcases hc.apart hr hs with rfl | h | h <;> omega
  not_after := by
    rintro ⟨s, hs, hsa⟩
    have := r.start_lt_stop
    simp only [AddressRange.Contains] at hsa
    rcases hc.apart hr hs with rfl | h | h <;> omega

/-- A maximal interval starts and stops where the range around its first address does. -/
theorem Canonical.mem_of_isMaximal (hc : c.Canonical) {r : AddressRange} (hr : r.IsMaximal (· ∈ c)) :
    r ∈ c.ranges := by
  have hlt := r.start_lt_stop
  obtain ⟨s, hs, hfirst⟩ := hr.inside r.start ⟨Nat.le_refl _, hlt⟩
  have hmax := hc.isMaximal hs
  have hstart : s.start = r.start := by
    by_contra hne
    refine hr.not_before (r.start - 1) (by have := hfirst.1; omega) ⟨s, hs, ?_⟩
    have := hfirst.1
    have := hfirst.2
    exact ⟨by omega, by omega⟩
  have hstop : s.stop = r.stop := by
    rcases Nat.lt_trichotomy s.stop r.stop with h | h | h
    · exact absurd (hr.inside s.stop ⟨by have := hfirst.2; omega, h⟩) hmax.not_after
    · exact h
    · exact absurd (hmax.inside r.stop ⟨by omega, h⟩) hr.not_after
  have he : s = r := AddressRange.ext hstart hstop
  exact he ▸ hs

theorem Canonical.mem_ranges_iff (hc : c.Canonical) (r : AddressRange) :
    r ∈ c.ranges ↔ r.IsMaximal (· ∈ c) :=
  ⟨hc.isMaximal, hc.mem_of_isMaximal⟩

theorem Canonical.nodup (hc : c.Canonical) : c.ranges.Nodup := by
  refine hc.imp fun {r s} h he => ?_
  have := r.start_lt_stop
  rw [he] at h this
  omega

theorem Canonical.ext (hc : c.Canonical) (hd : d.Canonical) (h : ∀ a, a ∈ c ↔ a ∈ d) : c = d := by
  have hS : (fun a => a ∈ c) = fun a => a ∈ d := funext fun a => propext (h a)
  have hp : c.ranges.Perm d.ranges := by
    rw [List.perm_ext_iff_of_nodup hc.nodup hd.nodup]
    intro r
    rw [hc.mem_ranges_iff, hd.mem_ranges_iff, hS]
  -- the ranges are the maximal intervals of one set, and only one order of them ascends
  have he : c.ranges = d.ranges := by
    refine hp.eq_of_pairwise (fun r s _ _ hrs hsr => ?_) hc hd
    have := r.start_lt_stop
    have := s.start_lt_stop
    omega
  cases c
  cases d
  exact congrArg Coverage.mk he

theorem Canonical.count_le_card (hc : c.Canonical) (cover : Finset (Nat × Nat))
    (h : ∀ a, (∃ p ∈ cover, p.1 ≤ a ∧ a < p.2) ↔ a ∈ c) : c.count ≤ cover.card := by
  rw [count, ← List.toFinset_card_of_nodup hc.nodup]
  refine Finset.card_le_card_of_forall_subsingleton (fun r p => p.1 ≤ r.start ∧ r.start < p.2) ?_ ?_
  · intro r hr
    have hr := List.mem_toFinset.mp hr
    exact (h r.start).mpr ⟨r, hr, Nat.le_refl _, r.start_lt_stop⟩
  · rintro p hp r ⟨hr, hrp⟩ s ⟨hs, hsp⟩
    have hr := List.mem_toFinset.mp hr
    have hs := List.mem_toFinset.mp hs
    have := r.start_lt_stop
    have := s.start_lt_stop
    -- between two ranges is an address that is not in the set, and an interval that meets both would cover it
    rcases hc.apart hr hs with he | hlt | hlt
    · exact he
    · exact absurd ((h r.stop).mp ⟨p, hp, by omega, by omega⟩) (hc.isMaximal hr).not_after
    · exact absurd ((h s.stop).mp ⟨p, hp, by omega, by omega⟩) (hc.isMaximal hs).not_after

theorem mem_ranges_ofList_iff (l : List (Nat × Nat)) (r : AddressRange) :
    r ∈ (ofList l).ranges ↔ r.IsMaximal (Inserted l) := by
  have hS : (fun a => a ∈ ofList l) = Inserted l := funext fun a => propext (mem_ofList l a)
  rw [(canonical_ofList l).mem_ranges_iff, hS]

theorem ofList_eq_iff (l m : List (Nat × Nat)) : ofList l = ofList m ↔ ∀ a, Inserted l a ↔ Inserted m a := by
  constructor
  · intro h a
    rw [← mem_ofList, h, mem_ofList]
  · intro h
    refine (canonical_ofList l).ext (canonical_ofList m) fun a => ?_
    rw [mem_ofList, mem_ofList, h]

theorem Canonical.insertAll_eq (hc : c.Canonical) {l m : List (Nat × Nat)} (h : ∀ a, Inserted l a ↔ Inserted m a) :
    c.insertAll l = c.insertAll m := by
  refine (canonical_insertAll hc l).ext (canonical_insertAll hc m) fun a => ?_
  rw [mem_insertAll hc, mem_insertAll hc, h]

theorem Canonical.existsUnique_shows (h : c.Canonical) (hfits : c.captureFault? = none)
    (reader : Reader) {a : Nat} (ha : a ∈ c) : ∃! o, o ∈ c.capture reader ∧ o.Shows a := by
  obtain ⟨r, hr, hra⟩ := ha
  rw [capture_of_fits hfits]
  refine ⟨r.capture reader, ⟨List.mem_map_of_mem hr, (AddressRange.shows_capture reader r a).mpr hra⟩, ?_⟩
  rintro o ⟨ho, hoa⟩
  obtain ⟨s, hs, rfl⟩ := List.mem_map.mp ho
  have hsa := (AddressRange.shows_capture reader s a).mp hoa
  rcases h.apart hr hs with rfl | hlt | hlt
  · rfl
  · exact absurd (Nat.lt_of_lt_of_le hlt hsa.1) (Nat.not_lt.mpr (Nat.le_of_lt hra.2))
  · exact absurd (Nat.lt_of_lt_of_le hlt hra.1) (Nat.not_lt.mpr (Nat.le_of_lt hsa.2))

theorem eq_of_capture_eq {reader : Reader} (hc : c.captureFault? = none) (hd : d.captureFault? = none)
    (h : c.capture reader = d.capture reader) : c = d := by
  rw [capture_of_fits hc, capture_of_fits hd] at h
  have he := List.map_injective_iff.mpr (AddressRange.capture_injective reader) h
  cases c
  cases d
  exact congrArg Coverage.mk he

/-- However they are ordered, split or repeated, insertions of the same addresses give one set, which has one
capture; and that set has the fewest intervals of all covers of these addresses. -/
theorem ofList_canonical_form (l m : List (Nat × Nat)) :
    ((ofList l = ofList m ∧ ∀ reader, (ofList l).capture reader = (ofList m).capture reader ∧
        (ofList l).captureFault? = (ofList m).captureFault?) ↔ ∀ a, Inserted l a ↔ Inserted m a) ∧
    (∀ reader, (ofList l).captureFault? = none → (ofList m).captureFault? = none →
      ((ofList l).capture reader = (ofList m).capture reader ↔ ∀ a, Inserted l a ↔ Inserted m a)) ∧
    ∀ cover : Finset (Nat × Nat), (∀ a, (∃ p ∈ cover, p.1 ≤ a ∧ a < p.2) ↔ Inserted l a) →
      (ofList l).count ≤ cover.card := by
  refine ⟨?_, fun reader hl hm => ?_, fun cover h => ?_⟩
  · rw [← ofList_eq_iff]
    exact ⟨And.left, fun h => ⟨h, fun reader => by rw [h]; exact ⟨rfl, rfl⟩⟩⟩
  · rw [← ofList_eq_iff]
    exact ⟨eq_of_capture_eq hl hm, fun h => by rw [h]⟩
  · refine (canonical_ofList l).count_le_card cover fun a => ?_
    rw [h, mem_ofList]

theorem count_two_blocks_le : (ofList [(0, 4), (8, 4)]).count ≤ 2 := by
  refine (ofList_canonical_form [(0, 4), (8, 4)] []).2.2 {(0, 4), (8, 12)} fun a => ?_
  simp only [Finset.mem_insert, Finset.mem_singleton, exists_eq_or_imp, exists_eq_left, Inserted, List.mem_cons,
    List.not_mem_nil, or_false, addressTop]
  omega

end Coverage

end CallCapture
