import CallCapture.Proofs.Coverage.Canonical
import CallCapture.Proofs.Coverage.Totals
import CallCapture.Workload

namespace CallCapture

namespace Coverage

variable {c : Coverage}

def bounds (c : Coverage) : List (Nat × Nat) := c.ranges.map fun r => (r.start, r.stop)

theorem mem_iff_bounds (c : Coverage) (a : Nat) : a ∈ c ↔ ∃ p ∈ c.bounds, p.1 ≤ a ∧ a < p.2 := by
  simp only [bounds, List.mem_map, exists_exists_and_eq_and]
  rfl

theorem canonical_iff_bounds (c : Coverage) : c.Canonical ↔ c.bounds.Pairwise fun p q => p.2 < q.1 := by
  rw [bounds, List.pairwise_map]
  rfl

theorem length_bounds (c : Coverage) : c.bounds.length = c.count := List.length_map _

theorem exists_bounds_eq {l : List (Nat × Nat)} (h : ∀ p ∈ l, p.1 < p.2 ∧ p.2 ≤ addressTop) :
    ∃ d : Coverage, d.bounds = l := by
  refine ⟨⟨l.pmap (fun p hp => ⟨p.1, p.2, hp.1, hp.2⟩) h⟩, ?_⟩
  simp only [bounds, List.map_pmap, Prod.mk.eta, List.pmap_eq_map, List.map_id']

/-- Intervals below the top, in ascending order with gaps between them, are the ranges of the set of their addresses. -/
theorem Canonical.bounds_eq (hc : c.Canonical) {l : List (Nat × Nat)} (hl : ∀ p ∈ l, p.1 < p.2 ∧ p.2 ≤ addressTop)
    (hapart : l.Pairwise fun p q => p.2 < q.1) (h : ∀ a, a ∈ c ↔ ∃ p ∈ l, p.1 ≤ a ∧ a < p.2) : c.bounds = l := by
  obtain ⟨d, rfl⟩ := exists_bounds_eq hl
  rw [hc.ext ((canonical_iff_bounds d).mpr hapart) fun a => (h a).trans (mem_iff_bounds d a).symm]

end Coverage

namespace Workload

variable {base count length stride : Nat}

theorem mem_strided {p : Nat × Nat} :
    p ∈ strided base count length stride ↔ ∃ i < count, p = (base + i * stride, length) := by
  simp [strided, eq_comm]

theorem stop_le_last (base length stride : Nat) {i count : Nat} (hi : i < count) :
    base + i * stride + length ≤ base + (count - 1) * stride + length := by
  have hle : i * stride ≤ (count - 1) * stride := Nat.mul_le_mul_right stride (Nat.le_sub_one_of_lt hi)
  omega

theorem inserted_strided (hfits : base + (count - 1) * stride + length ≤ addressTop) (a : Nat) :
    Inserted (strided base count length stride) a ↔
      ∃ i < count, base + i * stride ≤ a ∧ a < base + i * stride + length := by
  simp only [Inserted, mem_strided]
  constructor
  · rintro ⟨-, ⟨i, hi, rfl⟩, hlow, hhigh⟩
    exact ⟨i, hi, hlow, Nat.lt_of_lt_of_le hhigh (Nat.min_le_left _ _)⟩
  · rintro ⟨i, hi, hlow, hhigh⟩
    have hstop := stop_le_last base length stride hi
    exact ⟨_, ⟨i, hi, rfl⟩, hlow, by omega⟩

theorem exists_strided_iff (base : Nat) (hstride : stride ≤ length) (last a : Nat) :
    (∃ i < last + 1, base + i * stride ≤ a ∧ a < base + i * stride + length) ↔
      base ≤ a ∧ a < base + last * stride + length := by
  induction last with
  | zero => simp
  | succ last ih =>
      -- What is covered so far stops no earlier than the next range begins, so that one adds its end and leaves no gap.
      rw [Nat.exists_lt_succ_right, ih]
      have hnext : (last + 1) * stride = last * stride + stride := Nat.succ_mul last stride
      omega

theorem bounds_of_gap (hlength : 0 < length) (hfits : base + (count - 1) * stride + length ≤ addressTop)
    (hgap : length < stride) :
    (Coverage.ofList (strided base count length stride)).bounds =
      (List.range count).map fun i => (base + i * stride, base + i * stride + length) := by
  refine (Coverage.canonical_ofList _).bounds_eq (fun p hp => ?_) ?_ fun a => ?_
  · obtain ⟨i, hi, rfl⟩ := List.mem_map.mp hp
    exact ⟨Nat.lt_add_of_pos_right hlength, Nat.le_trans (stop_le_last base length stride (List.mem_range.mp hi)) hfits⟩
  · rw [List.pairwise_map]
    refine List.pairwise_lt_range.imp fun {i j} hij => ?_
    have hnext : i * stride + stride ≤ j * stride := by
      rw [← Nat.succ_mul]
      exact Nat.mul_le_mul_right stride hij
    dsimp only
    omega
  · rw [Coverage.mem_ofList, inserted_strided hfits]
    simp only [List.mem_map, List.mem_range, exists_exists_and_eq_and]

theorem bounds_of_no_gap (hcount : 0 < count) (hlength : 0 < length)
    (hfits : base + (count - 1) * stride + length ≤ addressTop) (hstride : stride ≤ length) :
    (Coverage.ofList (strided base count length stride)).bounds =
      [(base, base + (count - 1) * stride + length)] := by
  refine (Coverage.canonical_ofList _).bounds_eq ?_ (List.pairwise_singleton _ _) fun a => ?_
  · rw [List.forall_mem_singleton]
    exact ⟨by omega, hfits⟩
  · have hjoined := exists_strided_iff base hstride (count - 1) a
    rw [Nat.sub_add_cancel hcount] at hjoined
    rw [Coverage.mem_ofList, inserted_strided hfits, hjoined]
    simp only [List.mem_singleton, exists_eq_left]

theorem length_of_mem_ranges (hlength : 0 < length) (hfits : base + (count - 1) * stride + length ≤ addressTop)
    (hgap : length < stride) {r : AddressRange} (hr : r ∈ (Coverage.ofList (strided base count length stride)).ranges) :
    r.length = length := by
  have hmem : (r.start, r.stop) ∈ (Coverage.ofList (strided base count length stride)).bounds := List.mem_map_of_mem hr
  rw [bounds_of_gap hlength hfits hgap] at hmem
  obtain ⟨i, -, hi⟩ := List.mem_map.mp hmem
  obtain ⟨hstart, hstop⟩ := Prod.mk.inj hi
  rw [AddressRange.length, ← hstart, ← hstop, Nat.add_sub_cancel_left]

/-- Ranges of one length at equal distances, none of which reaches beyond the top, stay as they are if the distance is
greater than the length; if it is not, they come to one range, and so do ranges that follow directly on each other. -/
theorem strided_apart_or_joined (base count length : Nat) (hcount : 0 < count) (hlength : 0 < length) :
    (∀ stride, base + (count - 1) * stride + length ≤ addressTop →
      let c := Coverage.ofList (strided base count length stride)
      (length < stride →
        c.bounds = (List.range count).map (fun i => (base + i * stride, base + i * stride + length)) ∧
          c.count = count ∧ c.totalBytes = count * length) ∧
      (stride ≤ length → c.bounds = [(base, base + (count - 1) * stride + length)])) ∧
    (base + count * length ≤ addressTop →
      (Coverage.ofList (coalescing base count length)).bounds = [(base, base + count * length)]) := by
  refine ⟨fun stride hfits => ?_, fun hfits => ?_⟩
  · intro c
    refine ⟨fun hgap => ?_, bounds_of_no_gap hcount hlength hfits⟩
    have hbounds := bounds_of_gap hlength hfits hgap
    have hcounted : c.count = count := by
      rw [← c.length_bounds, hbounds, List.length_map, List.length_range]
    refine ⟨hbounds, hcounted, ?_⟩
    calc c.totalBytes
        = c.count * length := Coverage.totalBytes_of_length fun r => length_of_mem_ranges hlength hfits hgap
      _ = count * length := by rw [hcounted]
  · have hlast : base + (count - 1) * length + length = base + count * length := by
      rw [Nat.add_assoc, ← Nat.succ_mul, Nat.succ_eq_add_one, Nat.sub_add_cancel hcount]
    have hbounds := bounds_of_no_gap hcount hlength (Nat.le_trans (Nat.le_of_eq hlast) hfits) (Nat.le_refl length)
    rw [coalescing, hbounds, hlast]

theorem three_ranges_below_top :
    let c := Coverage.ofList (strided (addressTop - 14) 3 4 5)
    c.bounds = [(addressTop - 14, addressTop - 10), (addressTop - 9, addressTop - 5), (addressTop - 4, addressTop)] ∧
      c.totalBytes = 12 ∧
      (Coverage.ofList (strided (addressTop - 12) 3 4 4)).bounds = [(addressTop - 12, addressTop)] ∧
      (Coverage.ofList (coalescing (addressTop - 12) 3 4)).bounds = [(addressTop - 12, addressTop)] := by
  intro c
  obtain ⟨hstrided, -⟩ := strided_apart_or_joined (addressTop - 14) 3 4 (by decide) (by decide)
  obtain ⟨htouching, hcoalescing⟩ := strided_apart_or_joined (addressTop - 12) 3 4 (by decide) (by decide)
  obtain ⟨hbounds, -, htotal⟩ := (hstrided 5 (by decide)).1 (by decide)
  have hjoined := (htouching 4 (by decide)).2 (by decide)
  exact ⟨hbounds.trans (by decide), htotal, hjoined, hcoalescing (by decide)⟩

end Workload

end CallCapture
