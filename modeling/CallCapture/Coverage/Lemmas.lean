import CallCapture.Coverage
import Mathlib.Data.List.TakeWhile

namespace CallCapture

theorem AddressRange.contains_hull {r s : AddressRange} (hr : s.start ≤ r.stop) (hs : r.start ≤ s.stop) (a : Nat) :
    (r.hull s).Contains a ↔ r.Contains a ∨ s.Contains a := by
  have := r.start_lt_stop
  have := s.start_lt_stop
  simp only [Contains, hull]
  omega

theorem AddressRange.ofLength?_eq_none {start length : Nat} :
    ofLength? start length = none ↔ min (start + length) addressTop ≤ start := by
  simp only [ofLength?]
  split <;> simp <;> omega

theorem AddressRange.contains_of_ofLength? {start length : Nat} {r : AddressRange}
    (h : ofLength? start length = some r) (a : Nat) :
    r.Contains a ↔ start ≤ a ∧ a < min (start + length) addressTop := by
  simp only [ofLength?] at h
  split at h
  · cases h
    rfl
  · cases h

abbrev Separated (l : List AddressRange) : Prop := l.Pairwise fun r s => r.stop < s.start

def Covered (l : List AddressRange) (a : Nat) : Prop := ∃ r ∈ l, r.Contains a

@[simp] theorem not_covered_nil (a : Nat) : ¬Covered [] a := by
  rintro ⟨r, hr, -⟩
  cases hr

@[simp] theorem covered_cons (r : AddressRange) (l : List AddressRange) (a : Nat) :
    Covered (r :: l) a ↔ r.Contains a ∨ Covered l a := by
  simp [Covered]

@[simp] theorem covered_append (l m : List AddressRange) (a : Nat) :
    Covered (l ++ m) a ↔ Covered l a ∨ Covered m a := by
  simp [Covered, or_and_right, exists_or]

namespace Separated

variable {l : List AddressRange} {b : Nat}

theorem start_le_of_mem_takeWhile {s : AddressRange} (hs : s ∈ l.takeWhile (·.start ≤ b)) : s.start ≤ b := by
  simpa using List.mem_takeWhile_imp hs

theorem lt_start_of_mem_dropWhile (h : Separated l) {s : AddressRange} (hs : s ∈ l.dropWhile (·.start ≤ b)) :
    b < s.start := by
  induction l with
  | nil => cases hs
  | cons r rest ih =>
      obtain ⟨hr, hrest⟩ := List.pairwise_cons.mp h
      by_cases hb : r.start ≤ b
      · rw [List.dropWhile_cons_of_pos (by simpa using hb)] at hs
        exact ih hrest hs
      · rw [List.dropWhile_cons_of_neg (by simpa using hb)] at hs
        rcases List.mem_cons.mp hs with rfl | hs
        · omega
        · have := hr s hs
          have := r.start_lt_stop
          omega

theorem split (h : Separated l) (b : Nat) :
    Separated (l.takeWhile (·.start ≤ b)) ∧ Separated (l.dropWhile (·.start ≤ b)) ∧
      ∀ r ∈ l.takeWhile (·.start ≤ b), ∀ s ∈ l.dropWhile (·.start ≤ b), r.stop < s.start := by
  rw [← List.takeWhile_append_dropWhile (p := fun r : AddressRange => decide (r.start ≤ b)) (l := l)] at h
  exact List.pairwise_append.mp h

theorem covered_split (l : List AddressRange) (b a : Nat) :
    Covered (l.takeWhile (·.start ≤ b)) a ∨ Covered (l.dropWhile (·.start ≤ b)) a ↔ Covered l a := by
  rw [← covered_append, List.takeWhile_append_dropWhile]

end Separated

namespace Coverage

theorem contains_foldl_hull {l : List AddressRange} {r : AddressRange}
    (h : ∀ s ∈ l, r.start ≤ s.start ∧ s.start ≤ r.stop) (a : Nat) :
    (l.foldl AddressRange.hull r).Contains a ↔ r.Contains a ∨ Covered l a := by
  -- a hull only grows to the right, so it goes on to touch the ranges that follow
  induction l generalizing r with
  | nil => simp
  | cons s rest ih =>
      have hs := h s List.mem_cons_self
      have hlt := s.start_lt_stop
      have hrest : ∀ t ∈ rest, (r.hull s).start ≤ t.start ∧ t.start ≤ (r.hull s).stop := by
        intro t ht
        have := h t (List.mem_cons_of_mem s ht)
        simp only [AddressRange.hull]
        omega
      rw [List.foldl_cons, ih hrest, AddressRange.contains_hull hs.2 (by omega), covered_cons, or_assoc]

theorem start_foldl_hull {l : List AddressRange} {r : AddressRange} (h : ∀ s ∈ l, r.start ≤ s.start) :
    (l.foldl AddressRange.hull r).start = r.start := by
  induction l generalizing r with
  | nil => rfl
  | cons s rest ih =>
      have hs := h s List.mem_cons_self
      have he : (r.hull s).start = r.start := by simp only [AddressRange.hull]; omega
      rw [List.foldl_cons, ih, he]
      intro t ht
      rw [he]
      exact h t (List.mem_cons_of_mem s ht)

theorem stop_foldl_hull_lt {l : List AddressRange} {r : AddressRange} {b : Nat} (hr : r.stop < b)
    (h : ∀ s ∈ l, s.stop < b) : (l.foldl AddressRange.hull r).stop < b := by
  induction l generalizing r with
  | nil => exact hr
  | cons s rest ih =>
      have hs := h s List.mem_cons_self
      exact ih (by simp only [AddressRange.hull]; omega) fun t ht => h t (List.mem_cons_of_mem s ht)

section joinFirst

variable {after : List AddressRange} {r : AddressRange}

theorem covered_joinFirst (hr : ∀ s ∈ after, r.start ≤ s.start) (a : Nat) :
    Covered (joinFirst r after) a ↔ r.Contains a ∨ Covered after a := by
  have htouch : ∀ s ∈ after.takeWhile (·.start ≤ r.stop), r.start ≤ s.start ∧ s.start ≤ r.stop := fun s hs =>
    ⟨hr s (List.takeWhile_sublist _ |>.subset hs), Separated.start_le_of_mem_takeWhile hs⟩
  rw [joinFirst, covered_cons, contains_foldl_hull htouch, or_assoc, Separated.covered_split]

theorem start_le_of_mem_joinFirst (hr : ∀ s ∈ after, r.start ≤ s.start) :
    ∀ q ∈ joinFirst r after, r.start ≤ q.start := by
  intro q hq
  rcases List.mem_cons.mp hq with rfl | hq
  · exact Nat.le_of_eq (start_foldl_hull fun s hs => hr s (List.takeWhile_sublist _ |>.subset hs)).symm
  · exact hr q (List.dropWhile_sublist _ |>.subset hq)

theorem separated_joinFirst (h : Separated after) : Separated (joinFirst r after) := by
  obtain ⟨-, hrest, hcross⟩ := h.split r.stop
  refine List.pairwise_cons.mpr ⟨fun s hs => ?_, hrest⟩
  exact stop_foldl_hull_lt (h.lt_start_of_mem_dropWhile hs) fun t ht => hcross t ht s hs

end joinFirst

section joinLast

variable {before : List AddressRange} {r : AddressRange}

theorem separated_joinLast (h : Separated before) (hr : ∀ s ∈ before, s.start ≤ r.start) :
    Separated (joinLast before r).1 ∧ (∀ s ∈ (joinLast before r).1, s.stop < (joinLast before r).2.start) ∧
      (joinLast before r).2.start ≤ r.start := by
  rcases List.eq_nil_or_concat before with rfl | ⟨init, s, rfl⟩
  · simp [joinLast]
  · rw [List.concat_eq_append] at h hr ⊢
    obtain ⟨hinit, -, hlast⟩ := List.pairwise_append.mp h
    have hs : s.start ≤ r.start := hr s (by simp)
    have hlt := s.start_lt_stop
    simp only [joinLast, List.getLast?_concat, List.dropLast_concat]
    split
    · rename_i hapart
      refine ⟨h, fun t ht => ?_, Nat.le_refl _⟩
      rcases List.mem_append.mp ht with ht | ht
      · have hts := hlast t ht s (by simp)
        exact Nat.lt_trans hts (Nat.lt_trans hlt hapart)
      · rw [List.mem_singleton.mp ht]
        exact hapart
    · refine ⟨hinit, fun t ht => ?_, Nat.min_le_left _ _⟩
      have := hlast t ht s (by simp)
      simp only [AddressRange.hull]
      omega

theorem covered_joinLast (hr : ∀ s ∈ before, s.start ≤ r.start) (a : Nat) :
    Covered (joinLast before r).1 a ∨ (joinLast before r).2.Contains a ↔ Covered before a ∨ r.Contains a := by
  rcases List.eq_nil_or_concat before with rfl | ⟨init, s, rfl⟩
  · simp [joinLast]
  · rw [List.concat_eq_append] at hr ⊢
    have hs : s.start ≤ r.start := hr s (by simp)
    have hlt := r.start_lt_stop
    simp only [joinLast, List.getLast?_concat, List.dropLast_concat]
    split
    · rfl
    · rw [AddressRange.contains_hull (by omega) (by omega), covered_append, covered_cons, or_assoc]
      simp [or_comm (a := r.Contains a)]

end joinLast

section join

variable {l : List AddressRange} {r : AddressRange}

theorem start_le_of_mem_rest (h : Separated l) :
    ∀ s ∈ l.dropWhile (·.start ≤ r.start), (joinLast (l.takeWhile (·.start ≤ r.start)) r).2.start ≤ s.start := by
  intro s hs
  have hb := (separated_joinLast (h.split r.start).1 fun t ht => Separated.start_le_of_mem_takeWhile ht).2.2
  have := h.lt_start_of_mem_dropWhile hs
  omega

theorem separated_join (h : Separated l) : Separated (join r l) := by
  obtain ⟨hbefore, hafter, -⟩ := h.split r.start
  have hstart : ∀ t ∈ l.takeWhile (·.start ≤ r.start), t.start ≤ r.start := fun t ht =>
    Separated.start_le_of_mem_takeWhile ht
  obtain ⟨hinit, hlast, -⟩ := separated_joinLast hbefore hstart
  refine List.pairwise_append.mpr ⟨hinit, separated_joinFirst hafter, fun s hs q hq => ?_⟩
  exact Nat.lt_of_lt_of_le (hlast s hs) (start_le_of_mem_joinFirst (start_le_of_mem_rest h) q hq)

theorem covered_join (h : Separated l) (a : Nat) : Covered (join r l) a ↔ Covered l a ∨ r.Contains a := by
  have hbefore := covered_joinLast (r := r) (fun t ht => Separated.start_le_of_mem_takeWhile (l := l) ht) a
  calc Covered (join r l) a
      ↔ (Covered (joinLast (l.takeWhile (·.start ≤ r.start)) r).1 a ∨
          (joinLast (l.takeWhile (·.start ≤ r.start)) r).2.Contains a) ∨
          Covered (l.dropWhile (·.start ≤ r.start)) a := by
        rw [join, covered_append, covered_joinFirst (start_le_of_mem_rest h), or_assoc]
    _ ↔ Covered l a ∨ r.Contains a := by
        rw [hbefore, or_right_comm, Separated.covered_split]

end join

@[simp] theorem not_mem_empty (a : Nat) : a ∉ empty := not_covered_nil a

theorem eq_empty_of_isEmpty {c : Coverage} (h : c.isEmpty) : c = empty := by
  cases c
  exact congrArg Coverage.mk (List.isEmpty_iff.mp h)

theorem isEmpty_iff_forall_not_mem {c : Coverage} : c.isEmpty ↔ ∀ a, a ∉ c := by
  constructor
  · intro h a
    rw [eq_empty_of_isEmpty h]
    exact not_mem_empty a
  · intro h
    rw [isEmpty, List.isEmpty_iff, List.eq_nil_iff_forall_not_mem]
    exact fun r hr => h r.start ⟨r, hr, Nat.le_refl _, r.start_lt_stop⟩

theorem canonical_empty : empty.Canonical := List.Pairwise.nil

theorem mem_insert {c : Coverage} (h : c.Canonical) {start length a : Nat} :
    a ∈ c.insert start length ↔ a ∈ c ∨ start ≤ a ∧ a < min (start + length) addressTop := by
  simp only [insert]
  split
  · rename_i hnone
    have := AddressRange.ofLength?_eq_none.mp hnone
    exact ⟨Or.inl, fun h => h.elim id fun h => absurd h (by omega)⟩
  · rename_i r hsome
    rw [← AddressRange.contains_of_ofLength? hsome]
    exact covered_join h a

theorem canonical_insert {c : Coverage} (h : c.Canonical) (start length : Nat) :
    (c.insert start length).Canonical := by
  simp only [insert]
  split
  · exact h
  · exact separated_join h

theorem insert_zero (c : Coverage) (start : Nat) : c.insert start 0 = c := by
  have h : AddressRange.ofLength? start 0 = none := AddressRange.ofLength?_eq_none.mpr (Nat.min_le_left _ _)
  simp only [insert, h]

end Coverage

/-- The addresses below the top that some of the insertions take in. -/
def Inserted (l : List (Nat × Nat)) (a : Nat) : Prop := ∃ p ∈ l, p.1 ≤ a ∧ a < min (p.1 + p.2) addressTop

@[simp] theorem inserted_cons (p : Nat × Nat) (l : List (Nat × Nat)) (a : Nat) :
    Inserted (p :: l) a ↔ (p.1 ≤ a ∧ a < min (p.1 + p.2) addressTop) ∨ Inserted l a := by
  simp [Inserted]

namespace Coverage

theorem insertAll_concat (c : Coverage) (l : List (Nat × Nat)) (start length : Nat) :
    c.insertAll (l ++ [(start, length)]) = (c.insertAll l).insert start length := by
  simp [insertAll]

theorem ofList_append (l m : List (Nat × Nat)) : ofList (l ++ m) = (ofList l).insertAll m := List.foldl_append

theorem canonical_insertAll {c : Coverage} (h : c.Canonical) (l : List (Nat × Nat)) : (c.insertAll l).Canonical := by
  induction l generalizing c with
  | nil => exact h
  | cons p l ih => exact ih (canonical_insert h p.1 p.2)

theorem mem_insertAll {c : Coverage} (h : c.Canonical) (l : List (Nat × Nat)) (a : Nat) :
    a ∈ c.insertAll l ↔ a ∈ c ∨ Inserted l a := by
  induction l generalizing c with
  | nil => simp [insertAll, Inserted]
  | cons p l ih =>
      change a ∈ (c.insert p.1 p.2).insertAll l ↔ _
      rw [ih (canonical_insert h p.1 p.2), mem_insert h, inserted_cons, or_assoc]

theorem canonical_ofList (l : List (Nat × Nat)) : (ofList l).Canonical := canonical_insertAll canonical_empty l

theorem mem_ofList (l : List (Nat × Nat)) (a : Nat) : a ∈ ofList l ↔ Inserted l a := by
  rw [ofList, mem_insertAll canonical_empty]
  simp

theorem captureFault?_eq_none {c : Coverage} :
    c.captureFault? = none ↔ ∀ r ∈ c.ranges, r.length ≤ maxBlockSize := by
  simp [captureFault?, AddressRange.fits]

theorem captureFault?_eq_some {c : Coverage} {f : Fault} :
    c.captureFault? = some f ↔ f = .captureOverflow ∧ ∃ r ∈ c.ranges, maxBlockSize < r.length := by
  simp only [captureFault?]
  split
  · rename_i hall
    have hfits : ∀ r ∈ c.ranges, r.length ≤ maxBlockSize := by simpa [AddressRange.fits] using hall
    constructor
    · intro he
      cases he
    · rintro ⟨-, r, hr, hlong⟩
      exact absurd (hfits r hr) (by omega)
  · rename_i hall
    have hlong : ∃ r ∈ c.ranges, maxBlockSize < r.length := by simpa [AddressRange.fits] using hall
    exact ⟨fun h => ⟨(Option.some.inj h).symm, hlong⟩, fun h => congrArg some h.1.symm⟩

theorem capture_eq_nil {c : Coverage} {reader : Reader} :
    c.capture reader = [] ↔ ∀ r ∈ c.ranges.head?, maxBlockSize < r.length := by
  rw [capture, List.map_eq_nil_iff]
  cases c.ranges with
  | nil => simp
  | cons r rest =>
      by_cases h : r.length ≤ maxBlockSize
      · simp [AddressRange.fits, h]
      · simp [AddressRange.fits, h, Nat.lt_of_not_ge h]

theorem capture_of_fits {c : Coverage} (h : c.captureFault? = none) (reader : Reader) :
    c.capture reader = c.ranges.map (AddressRange.capture reader) := by
  have hfits : ∀ r ∈ c.ranges, AddressRange.fits r = true := by
    simpa [AddressRange.fits] using captureFault?_eq_none.mp h
  rw [capture, List.takeWhile_eq_self_iff.mpr hfits]

end Coverage

theorem AddressRange.toNat_address_capture (reader : Reader) (r : AddressRange) :
    (r.capture reader).address.toNat = r.start := by
  have := r.start_lt_stop
  have := r.stop_le
  simp only [addressTop] at this
  exact Nat.mod_eq_of_lt (by omega)

theorem AddressRange.length_capture (reader : Reader) (r : AddressRange) :
    (r.capture reader).length = r.length := reader.length_bytes r.start r.length

theorem AddressRange.capture_injective (reader : Reader) : Function.Injective (AddressRange.capture reader) := by
  intro r s h
  have := r.start_lt_stop
  have := s.start_lt_stop
  have hstart : r.start = s.start := by rw [← toNat_address_capture reader r, h, toNat_address_capture]
  have hlength : r.length = s.length := by rw [← length_capture reader r, h, length_capture]
  simp only [AddressRange.length] at hlength
  exact AddressRange.ext hstart (by omega)

def Observation.Shows (o : Observation) (a : Nat) : Prop := o.address.toNat ≤ a ∧ a < o.address.toNat + o.length

theorem AddressRange.shows_capture (reader : Reader) (r : AddressRange) (a : Nat) :
    (r.capture reader).Shows a ↔ r.Contains a := by
  have := r.start_lt_stop
  rw [Observation.Shows, toNat_address_capture, length_capture, Contains, length]
  omega

theorem AddressRange.bytes_capture (reader : Reader) (r : AddressRange) :
    (r.capture reader).bytes =
      reader.bytes (r.capture reader).address.toNat (r.capture reader).length := by
  rw [toNat_address_capture, length_capture]
  rfl

theorem Observation.totalBytes_append (os ps : List Observation) :
    totalBytes (os ++ ps) = totalBytes os + totalBytes ps := by
  induction os with
  | nil => exact (Nat.zero_add _).symm
  | cons o os ih =>
      change o.length + totalBytes (os ++ ps) = o.length + totalBytes os + totalBytes ps
      rw [ih, Nat.add_assoc]

namespace Coverage

theorem mem_capture {c : Coverage} {reader : Reader} {o : Observation} (h : o ∈ c.capture reader) :
    ∃ r ∈ c.ranges, r.capture reader = o := by
  obtain ⟨r, hr, ho⟩ := List.mem_map.mp h
  exact ⟨r, (List.takeWhile_sublist _).subset hr, ho⟩

theorem apart_capture {c : Coverage} (h : c.Canonical) (reader : Reader) :
    (c.capture reader).Pairwise fun o p => o.address.toNat + o.length < p.address.toNat := by
  rw [capture, List.pairwise_map]
  refine (h.sublist (List.takeWhile_sublist _)).imp fun {r s} hrs => ?_
  have := r.start_lt_stop
  rw [AddressRange.toNat_address_capture, AddressRange.toNat_address_capture, AddressRange.length_capture,
    AddressRange.length]
  omega

theorem length_capture {c : Coverage} (h : c.captureFault? = none) (reader : Reader) :
    (c.capture reader).length = c.count := by
  rw [capture_of_fits h, List.length_map]
  rfl

theorem isEmpty_capture {c : Coverage} (h : c.captureFault? = none) (reader : Reader) :
    (c.capture reader).isEmpty = c.isEmpty := by
  rw [capture_of_fits h, List.isEmpty_map]
  rfl

theorem totalBytes_capture {c : Coverage} (h : c.captureFault? = none) (reader : Reader) :
    Observation.totalBytes (c.capture reader) = c.totalBytes := by
  rw [capture_of_fits h, Observation.totalBytes, List.foldr_map]
  simp only [AddressRange.length_capture, totalBytes]

end Coverage

end CallCapture
