import CallCapture.Proofs.Coverage.Run
import Mathlib.Data.Set.Card
import Mathlib.Order.Interval.Finset.Nat

namespace CallCapture

theorem AddressRange.encard_contains (r : AddressRange) : {a | r.Contains a}.encard = r.length := by
  have hset : {a | r.Contains a} = (Finset.Ico r.start r.stop : Set Nat) := by
    rw [Finset.coe_Ico]
    rfl
  rw [hset, Set.encard_coe_eq_coe_finsetCard, Nat.card_Ico, length]

theorem AddressRange.not_covered {r : AddressRange} {l : List AddressRange} (h : ∀ s ∈ l, r.stop < s.start) {a : Nat}
    (hr : r.Contains a) : ¬Covered l a := by
  rintro ⟨s, hs, hsa⟩
  exact absurd (Nat.lt_of_lt_of_le (h s hs) hsa.1) (Nat.not_lt.mpr (Nat.le_of_lt hr.2))

theorem Separated.encard_covered {l : List AddressRange} (h : Separated l) :
    {a | Covered l a}.encard = (Coverage.mk l).totalBytes := by
  induction l with
  | nil =>
      simp only [not_covered_nil, Set.ofPred_false, Set.encard_empty]
      rfl
  | cons r rest ih =>
      obtain ⟨hr, hrest⟩ := List.pairwise_cons.mp h
      calc {a | Covered (r :: rest) a}.encard
          = ({a | r.Contains a} ∪ {a | Covered rest a}).encard := by
            simp only [covered_cons]
            rfl
        _ = {a | r.Contains a}.encard + {a | Covered rest a}.encard :=
            Set.encard_union_eq (Set.disjoint_left.mpr fun _ => AddressRange.not_covered hr)
        _ = ((r.length + (Coverage.mk rest).totalBytes : Nat) : ENat) := by
            rw [r.encard_contains, ih hrest, Nat.cast_add]

namespace Coverage

variable {c : Coverage}

theorem Canonical.encard_mem (h : c.Canonical) : {a | a ∈ c}.encard = c.totalBytes := Separated.encard_covered h

theorem lt_addressTop_of_mem {a : Nat} (h : a ∈ c) : a < addressTop := by
  obtain ⟨r, -, hr⟩ := h
  exact Nat.lt_of_lt_of_le hr.2 r.stop_le

theorem Canonical.totalBytes_le (h : c.Canonical) : c.totalBytes ≤ addressTop := by
  have hbelow : {a | a ∈ c} ⊆ (Finset.range addressTop : Set Nat) := fun a ha =>
    Finset.mem_coe.mpr (Finset.mem_range.mpr (lt_addressTop_of_mem ha))
  have hcard := Set.encard_le_encard hbelow
  rw [h.encard_mem, Set.encard_coe_eq_coe_finsetCard, Finset.card_range] at hcard
  exact Nat.cast_le.mp hcard

theorem Canonical.totalBytes_insert (h : c.Canonical) (start length : Nat) :
    ((c.insert start length).totalBytes : ENat) =
      c.totalBytes + {a | (start ≤ a ∧ a < min (start + length) addressTop) ∧ a ∉ c}.encard := by
  have hdisjoint : Disjoint {a | a ∈ c} {a | (start ≤ a ∧ a < min (start + length) addressTop) ∧ a ∉ c} := by
    rw [Set.disjoint_left]
    exact fun a ha hnew => hnew.2 ha
  have hunion : {a | a ∈ c.insert start length} =
      {a | a ∈ c} ∪ {a | (start ≤ a ∧ a < min (start + length) addressTop) ∧ a ∉ c} := by
    ext a
    rw [Set.mem_ofPred_eq, mem_insert h, Set.mem_union, Set.mem_ofPred_eq, Set.mem_ofPred_eq]
    by_cases ha : a ∈ c <;> simp [ha]
  rw [← (canonical_insert h start length).encard_mem, hunion, Set.encard_union_eq hdisjoint, h.encard_mem]

theorem totalBytes_append (l m : List AddressRange) :
    totalBytes ⟨l ++ m⟩ = totalBytes ⟨l⟩ + totalBytes ⟨m⟩ := by
  induction l with
  | nil => exact (Nat.zero_add _).symm
  | cons r l ih =>
      change r.length + totalBytes ⟨l ++ m⟩ = r.length + totalBytes ⟨l⟩ + totalBytes ⟨m⟩
      rw [ih, Nat.add_assoc]

theorem totalBytes_of_length {length : Nat} {l : List AddressRange} (h : ∀ r ∈ l, r.length = length) :
    totalBytes ⟨l⟩ = l.length * length := by
  induction l with
  | nil => exact (Nat.zero_mul length).symm
  | cons r rest ih =>
      obtain ⟨hr, hrest⟩ := List.forall_mem_cons.mp h
      change r.length + totalBytes ⟨rest⟩ = (rest.length + 1) * length
      rw [hr, ih hrest, Nat.succ_mul, Nat.add_comm]

theorem totalBytes_capture_add (c : Coverage) (reader : Reader) :
    Observation.totalBytes (c.capture reader) + totalBytes ⟨c.ranges.dropWhile AddressRange.fits⟩ = c.totalBytes := by
  have hcaptured : Observation.totalBytes (c.capture reader) = totalBytes ⟨c.ranges.takeWhile AddressRange.fits⟩ := by
    rw [capture, Observation.totalBytes, List.foldr_map]
    simp only [AddressRange.length_capture, totalBytes]
  rw [hcaptured, ← totalBytes_append, List.takeWhile_append_dropWhile]

theorem totalBytes_eq_zero {l : List AddressRange} : totalBytes ⟨l⟩ = 0 ↔ l = [] := by
  cases l with
  | nil => exact iff_of_true rfl rfl
  | cons r rest =>
      have hlt := r.start_lt_stop
      have hlength : totalBytes ⟨r :: rest⟩ = r.stop - r.start + totalBytes ⟨rest⟩ := rfl
      exact iff_of_false (by omega) (List.cons_ne_nil r rest)

theorem totalBytes_capture_eq_iff (c : Coverage) (reader : Reader) :
    Observation.totalBytes (c.capture reader) = c.totalBytes ↔ c.captureFault? = none := by
  have hadd := c.totalBytes_capture_add reader
  constructor
  · intro heq
    have hnone : c.ranges.dropWhile AddressRange.fits = [] := totalBytes_eq_zero.mp (by omega)
    rw [captureFault?_eq_none]
    intro r hr
    exact of_decide_eq_true (List.dropWhile_eq_nil_iff.mp hnone r hr)
  · exact fun h => totalBytes_capture h reader

end Coverage

namespace CoverageSession

theorem exists_reader_of_captures (s : CoverageSession) {a : CoverageAction} (h : a.captures) :
    ∃ reader, s.step a = s.captureWith reader := by
  cases a with
  | capture => exact ⟨s.memory.reader, rfl⟩
  | captureThrough reader => exact ⟨reader, rfl⟩
  | _ => cases h

/-- What a coverage holds after any actions is as many bytes as addresses below the top were inserted since it was last
emptied, never more than the last address. An insertion adds the addresses that are new. A capture appends just as many
bytes if it does not fault, and fewer if it does. -/
theorem totalBytes_counts_addresses (actions : List CoverageAction) :
    let s := reached actions
    let held := {a | a < addressTop ∧ ∃ p ∈ outstanding actions, p.1 ≤ a ∧ a < p.1 + p.2}
    s.coverage.totalBytes ≤ addressTop ∧
    held.encard = s.coverage.totalBytes ∧
    (∀ start length, ((s.step (.insert start length)).2.coverage.totalBytes : ENat) =
      s.coverage.totalBytes + {a | a < addressTop ∧ (start ≤ a ∧ a < start + length) ∧ a ∉ held}.encard) ∧
    ∀ action : CoverageAction, action.captures → ∃ block,
      (s.step action).2.captured = s.captured ++ block ∧
      Observation.totalBytes block ≤ s.coverage.totalBytes ∧
      (Observation.totalBytes block = s.coverage.totalBytes ↔ ∀ f, (s.step action).1 ≠ .fault f) ∧
      ((∃ f, (s.step action).1 = .fault f) ↔ ∃ r ∈ s.coverage.ranges, maxBlockSize < r.length) := by
  intro s held
  have hcoverage : s.coverage = .ofList (outstanding actions) := coverage_reached actions
  have hcanonical : s.coverage.Canonical := hcoverage ▸ Coverage.canonical_ofList _
  have hheld : {a | a ∈ s.coverage} = held := by
    ext a
    rw [Set.mem_ofPred_eq, hcoverage, Coverage.mem_ofList]
    simp only [Inserted, held, Set.mem_ofPred_eq, Nat.lt_min]
    constructor
    · rintro ⟨p, hp, hlow, hhigh, htop⟩
      exact ⟨htop, p, hp, hlow, hhigh⟩
    · rintro ⟨htop, p, hp, hlow, hhigh⟩
      exact ⟨p, hp, hlow, hhigh, htop⟩
  refine ⟨hcanonical.totalBytes_le, hheld ▸ hcanonical.encard_mem, fun start length => ?_, fun action ha => ?_⟩
  · have hnew : {a | a < addressTop ∧ (start ≤ a ∧ a < start + length) ∧ a ∉ held} =
        {a | (start ≤ a ∧ a < min (start + length) addressTop) ∧ a ∉ s.coverage} := by
      ext a
      rw [← hheld]
      simp only [Set.mem_ofPred_eq, Nat.lt_min]
      tauto
    rw [hnew]
    exact hcanonical.totalBytes_insert start length
  · obtain ⟨reader, hstep⟩ := s.exists_reader_of_captures ha
    have hfault : ∀ f, (s.step action).1 = .fault f ↔ s.coverage.captureFault? = some f := by
      intro f
      rw [hstep]
      exact s.answer_captureWith reader f
    have hadd := s.coverage.totalBytes_capture_add reader
    refine ⟨s.coverage.capture reader, by rw [hstep]; rfl, by omega, ?_, ?_⟩
    · rw [Coverage.totalBytes_capture_eq_iff, Option.eq_none_iff_forall_ne_some]
      exact forall_congr' fun f => not_congr (hfault f).symm
    · simp only [hfault, Coverage.captureFault?_eq_some]
      exact ⟨fun h => h.elim fun _ hlong => hlong.2, fun hlong => ⟨_, rfl, hlong⟩⟩

theorem shared_addresses_counted_once :
    let s := reached [.insert 0 4, .insert 2 4]
    CoverageAction.capture.captures ∧ s.coverage.totalBytes = 6 ∧
      ∃ block, (s.step .capture).2.captured = s.captured ++ block ∧ Observation.totalBytes block = 6 := by
  obtain ⟨-, -, -, hcapture⟩ := totalBytes_counts_addresses [.insert 0 4, .insert 2 4]
  obtain ⟨block, hblock, -, htotal, -⟩ := hcapture .capture rfl
  exact ⟨rfl, by decide, block, hblock, htotal.mpr fun f hf => by cases hf⟩

theorem half_counted_and_not_captured :
    ¬∀ (actions : List CoverageAction) (action : CoverageAction), action.captures → ∃ block,
      ((reached actions).step action).2.captured = (reached actions).captured ++ block ∧
        Observation.totalBytes block = (reached actions).coverage.totalBytes := by
  intro h
  obtain ⟨block, hblock, htotal⟩ := h [.insert 0 (2 ^ 63)] (.captureThrough Memory.pattern.reader) rfl
  obtain rfl : block = [] := hblock.symm
  exact absurd htotal (by decide)

end CoverageSession

end CallCapture
