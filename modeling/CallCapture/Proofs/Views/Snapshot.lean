import CallCapture.Element.Lemmas
import CallCapture.Memory.Lemmas
import CallCapture.Session.Lemmas

namespace CallCapture

/-- A list with the items from `start` on in place of those from `dstStart` on, `count` of them. -/
def copyWithin {α : Type} (l : List α) (start count dstStart : Nat) : List α :=
  l.take dstStart ++ (l.drop start).take count ++ l.drop (dstStart + count)

theorem getElem?_copyWithin {α : Type} {l : List α} {start count dstStart : Nat} (hstart : start + count ≤ l.length)
    (hdst : dstStart + count ≤ l.length) (i : Nat) :
    (copyWithin l start count dstStart)[i]? =
      if dstStart ≤ i ∧ i < dstStart + count then l[start + (i - dstStart)]? else l[i]? := by
  have hbefore : (l.take dstStart).length = dstStart := List.length_take_of_le (by omega)
  have hcopied : ((l.drop start).take count).length = count := by
    rw [List.length_take, List.length_drop]
    omega
  rw [copyWithin, List.append_assoc]
  rcases Nat.lt_or_ge i dstStart with hi | hi
  · rw [List.getElem?_append_left (by omega), List.getElem?_take_of_lt hi, if_neg (by omega)]
  · rw [List.getElem?_append_right (by omega), hbefore]
    rcases Nat.lt_or_ge i (dstStart + count) with hj | hj
    · rw [List.getElem?_append_left (by omega), List.getElem?_take_of_lt (by omega), List.getElem?_drop, if_pos ⟨hi, hj⟩]
    · rw [List.getElem?_append_right (by omega), hcopied, List.getElem?_drop, if_neg (by omega)]
      congr 1
      omega

namespace View

variable {t : ElementType}

def load (v : View t) (m : Memory) (start : Nat) : (count : Nat) → Except Fault (List t.Value)
  | 0 => .ok []
  | count + 1 => do
    let value ← v.get m start
    let rest ← v.load m (start + 1) count
    pure (value :: rest)

def store (v : View t) (m : Memory) (start : Nat) : (values : List t.Value) → Except Fault Memory
  | [] => .ok m
  | value :: rest => do
    let m ← v.set m start value
    v.store m (start + 1) rest

section elements

variable {v w : View t} {m n : Memory} {start count dstStart : Nat}

theorem encode_element (v : View t) (m : Memory) (index : Nat) :
    t.encode (v.element m index) = m.read (v.base + index * t.size) t.size := by
  rw [element, t.encode_decode (by rw [Memory.length_read]), List.take_of_length_le (by rw [Memory.length_read])]

theorem getElem?_elements (v : View t) (m : Memory) (i : Nat) :
    (v.elements m)[i]? = if i < v.count then some (v.element m i) else none := by
  by_cases h : i < v.count <;> simp [elements, h]

@[simp] theorem length_elements (v : View t) (m : Memory) : (v.elements m).length = v.count := by
  rw [elements, List.length_map, List.length_range]

theorem load_of_le (h : start + count ≤ v.count) :
    v.load m start count = .ok ((List.range' start count).map (v.element m)) := by
  induction count generalizing start with
  | zero => rfl
  | succ count ih =>
      rw [load, get_of_lt (by omega), ih (by omega), List.range'_succ, List.map_cons]
      rfl

theorem store_of_le {values : List t.Value} (h : start + values.length ≤ v.count) :
    v.store m start values = .ok (m.write (v.base + start * t.size) (values.flatMap t.encode)) := by
  induction values generalizing m start with
  | nil => rw [List.flatMap_nil, Memory.write_nil, store]
  | cons value rest ih =>
      rw [List.length_cons] at h
      have hnext : v.base + (start + 1) * t.size = v.base + start * t.size + (t.encode value).length := by
        rw [t.length_encode, Nat.succ_mul, Nat.add_assoc]
      have hset := set_of_lt (show start < v.count by omega) m value
      rw [store, hset, List.flatMap_cons, Memory.write_append, ← hnext]
      exact ih (by omega)

theorem flatMap_encode_elements (v : View t) (m : Memory) (start count : Nat) :
    ((List.range' start count).map (v.element m)).flatMap t.encode =
      m.read (v.base + start * t.size) (count * t.size) := by
  induction count generalizing start with
  | zero => rw [Nat.zero_mul]; rfl
  | succ count ih =>
      rw [List.range'_succ, List.map_cons, List.flatMap_cons, ih, encode_element, Nat.succ_mul, Nat.succ_mul,
        Nat.add_comm (count * t.size), Memory.read_add, Nat.add_assoc]

theorem copyTo_eq_ok :
    v.copyTo w m start count dstStart = .ok n ↔ start + count ≤ v.count ∧ dstStart + count ≤ w.count ∧
      n = m.write (w.base + dstStart * t.size) (m.read (v.base + start * t.size) (count * t.size)) := by
  rw [copyTo]
  split
  · exact ⟨fun h => (by cases h), fun h => absurd h.1 (by omega)⟩
  · split
    · exact ⟨fun h => (by cases h), fun h => absurd h.2.1 (by omega)⟩
    · rw [Except.ok.injEq]
      exact ⟨fun h => ⟨by omega, by omega, h.symm⟩, fun h => h.2.2.symm⟩

theorem copyTo_eq_error {f : Fault} :
    v.copyTo w m start count dstStart = .error f ↔
      v.count < start + count ∧ f = .copyRange .source start count v.count ∨
      start + count ≤ v.count ∧ w.count < dstStart + count ∧ f = .copyRange .destination dstStart count w.count := by
  rw [copyTo]
  split
  · rw [Except.error.injEq]
    exact ⟨fun h => .inl ⟨by omega, h.symm⟩, fun h => h.elim (fun h => h.2.symm) fun h => absurd h.1 (by omega)⟩
  · split
    · rw [Except.error.injEq]
      exact ⟨fun h => .inr ⟨by omega, by omega, h.symm⟩,
        fun h => h.elim (fun h => absurd h.1 (by omega)) fun h => h.2.2.symm⟩
    · exact ⟨fun h => (by cases h), fun h => absurd h (by omega)⟩

/-- Both views hold what the elements' bytes say, so it makes no difference that a copy moves bytes. -/
theorem copyTo_eq_load_store (hv : start + count ≤ v.count) (hw : dstStart + count ≤ w.count) :
    v.copyTo w m start count dstStart = (do
      let values ← v.load m start count
      w.store m dstStart values) := by
  have hlength : ((List.range' start count).map (v.element m)).length = count := by
    rw [List.length_map, List.length_range']
  have hstore : w.store m dstStart ((List.range' start count).map (v.element m)) = .ok _ :=
    store_of_le (by rw [hlength]; exact hw)
  rw [load_of_le hv, copyTo_eq_ok.mpr ⟨hv, hw, rfl⟩, ← flatMap_encode_elements]
  exact hstore.symm

theorem element_copyTo (h : v.copyTo w m start count dstStart = .ok n) {i : Nat} (hi : i < count) :
    w.element n (dstStart + i) = v.element m (start + i) := by
  obtain ⟨-, -, rfl⟩ := copyTo_eq_ok.mp h
  have hle : i * t.size + t.size ≤ count * t.size := by
    rw [← Nat.succ_mul]
    exact Nat.mul_le_mul_right _ hi
  have hstores := m.stores_write (w.base + dstStart * t.size) (m.read (v.base + start * t.size) (count * t.size))
  rw [element, element, Nat.add_mul, Nat.add_mul, ← Nat.add_assoc, ← Nat.add_assoc,
    hstores.read_piece (by rw [Memory.length_read]; exact hle), Memory.take_drop_read hle]

theorem byteAt_copyTo (h : v.copyTo w m start count dstStart = .ok n) {x : Nat}
    (hx : x < w.base + dstStart * t.size ∨ w.base + (dstStart + count) * t.size ≤ x) : n.byteAt x = m.byteAt x := by
  obtain ⟨-, -, rfl⟩ := copyTo_eq_ok.mp h
  apply Memory.byteAt_write_of_outside
  rw [Memory.length_read, Nat.add_assoc, ← Nat.add_mul]
  exact hx

theorem element_copyTo_of_outside (h : v.copyTo w m start count dstStart = .ok n) {i : Nat}
    (hi : i < dstStart ∨ dstStart + count ≤ i) : w.element n i = w.element m i := by
  rw [element, element]
  congr 1
  refine Memory.read_congr fun x hlow hhigh => byteAt_copyTo h ?_
  rcases hi with hi | hi
  · have hle := Nat.mul_le_mul_right t.size hi
    rw [Nat.succ_mul] at hle
    omega
  · have hle := Nat.mul_le_mul_right t.size hi
    omega

theorem elements_copyTo_self (h : v.copyTo v m start count dstStart = .ok n) :
    v.elements n = copyWithin (v.elements m) start count dstStart := by
  obtain ⟨hstart, hdst, -⟩ := copyTo_eq_ok.mp h
  refine List.ext_getElem? fun i => ?_
  rw [getElem?_copyWithin (by rw [length_elements]; exact hstart) (by rw [length_elements]; exact hdst),
    getElem?_elements, getElem?_elements, getElem?_elements]
  split
  · split
    · rename_i hi hin
      have hcopied := element_copyTo h (i := i - dstStart) (by omega)
      rw [if_pos (by omega), ← hcopied, Nat.add_sub_cancel' hin.1]
    · rw [element_copyTo_of_outside h (by omega)]
  · rw [if_neg (by omega)]

end elements

end View

namespace Session

variable {s : Session} {t : ElementType} {v w : View t} {view dst : String} {start count dstStart : Nat}

theorem step_copyTo_of_ok (hv : s.views.get? view = some ⟨t, v⟩) (hw : s.views.get? dst = some ⟨t, w⟩) {n : Memory}
    (h : v.copyTo w s.process.memory start count dstStart = .ok n) :
    s.step (.copyTo view dst start count dstStart) = ((s.withMemory n).elements w, s.withMemory n) := by
  simp only [step, withViews, withView_of_some hv, withView_of_some hw, TypedView.at?_self, h]

theorem step_copyTo_of_error (hv : s.views.get? view = some ⟨t, v⟩) (hw : s.views.get? dst = some ⟨t, w⟩) {f : Fault}
    (h : v.copyTo w s.process.memory start count dstStart = .error f) :
    s.step (.copyTo view dst start count dstStart) = (.fault f, s) := by
  simp only [step, withViews, withView_of_some hv, withView_of_some hw, TypedView.at?_self, h]

/-- Between two views a copy of a range faults just when the range does not lie in the source or, if it does, would not
lie in the destination, and then nothing has changed. Otherwise it has come to reading the elements one by one and then
writing them one by one: no byte outside of their range in the destination has changed, and if the two are one view its
elements are copied as those of a list are. -/
theorem copyTo_copies_snapshot (hv : s.views.get? view = some ⟨t, v⟩) (hw : s.views.get? dst = some ⟨t, w⟩)
    (start count dstStart : Nat) :
    let m := s.process.memory
    let r := s.step (.copyTo view dst start count dstStart)
    (∀ f, r.1 = .fault f ↔
      v.count < start + count ∧ f = .copyRange .source start count v.count ∨
      start + count ≤ v.count ∧ w.count < dstStart + count ∧
        f = .copyRange .destination dstStart count w.count) ∧
    (∀ f, r.1 = .fault f → r.2 = s) ∧
    (start + count ≤ v.count → dstStart + count ≤ w.count → ∃ values n,
      v.load m start count = .ok values ∧ w.store m dstStart values = .ok n ∧
      r = (.elements ((w.elements n).map t.literal), s.withMemory n) ∧
      (∀ x, x < w.base + dstStart * t.size ∨ w.base + (dstStart + count) * t.size ≤ x →
        n.byteAt x = m.byteAt x) ∧
      (v = w → w.elements n = copyWithin (w.elements m) start count dstStart)) := by
  intro m r
  refine ⟨fun f => ?_, fun f hf => ?_, fun hstart hdst => ?_⟩
  · rw [← View.copyTo_eq_error (m := m)]
    cases hcopy : v.copyTo w m start count dstStart with
    | error g =>
        have hstep : r = _ := step_copyTo_of_error hv hw hcopy
        rw [hstep, Except.error.injEq, Answer.fault.injEq]
    | ok n =>
        have hstep : r = _ := step_copyTo_of_ok hv hw hcopy
        rw [hstep]
        exact ⟨nofun, nofun⟩
  · cases hcopy : v.copyTo w m start count dstStart with
    | error g =>
        have hstep : r = _ := step_copyTo_of_error hv hw hcopy
        rw [hstep]
    | ok n =>
        have hstep : r = _ := step_copyTo_of_ok hv hw hcopy
        rw [hstep] at hf
        cases hf
  · have hcopy : v.copyTo w m start count dstStart = .ok _ := View.copyTo_eq_ok.mpr ⟨hstart, hdst, rfl⟩
    have hsnapshot := View.copyTo_eq_load_store (m := m) hstart hdst
    rw [View.load_of_le hstart, hcopy] at hsnapshot
    refine ⟨_, _, View.load_of_le hstart, hsnapshot.symm, step_copyTo_of_ok hv hw hcopy,
      fun x hx => View.byteAt_copyTo hcopy hx, ?_⟩
    rintro rfl
    exact View.elements_copyTo_self hcopy

theorem overlapping_bytes_copied_up :
    let s := (Session.new .lightweight (fun m _ => m.reader) AddressSpace.placePool AddressSpace.placeChunk).run
      [.borrow "v" (.unsigned .w8) true 8 5, .poke 8 [1, 2, 3, 4, 5]]
    let v := View.borrow (.unsigned .w8) (.tool .first) 8 5
    s.views.get? "v" = some ⟨.unsigned .w8, v⟩ ∧
      v.elements (s.step (.copyTo "v" "v" 0 4 1)).2.process.memory = [1#8, 1#8, 2#8, 3#8, 4#8] := by
  intro s v
  have hv : s.views.get? "v" = some ⟨.unsigned .w8, v⟩ := rfl
  obtain ⟨-, -, hcopied⟩ := copyTo_copies_snapshot hv hv 0 4 1
  obtain ⟨values, n, -, -, hstep, -, hwithin⟩ := hcopied (by decide) (by decide)
  refine ⟨hv, ?_⟩
  rw [hstep]
  exact (hwithin rfl).trans rfl

end Session

end CallCapture
