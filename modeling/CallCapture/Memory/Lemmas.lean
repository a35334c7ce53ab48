import CallCapture.Memory

namespace CallCapture.Memory

structure Stores (m : Memory) (base : Nat) (bytes : List UInt8) (n : Memory) : Prop where
  stored : n.read base bytes.length = bytes
  frame : ∀ a, a < base ∨ base + bytes.length ≤ a → n.byteAt a = m.byteAt a

theorem stores_write (m : Memory) (base : Nat) (bytes : List UInt8) : m.Stores base bytes (m.write base bytes) where
  stored := m.read_write base bytes
  frame _ h := m.byteAt_write_of_outside h

theorem stores_overlay_zero (m : Memory) (base n : Nat) :
    m.Stores base (List.replicate n 0) (m.overlay base n .zero) where
  stored := by
    rw [List.length_replicate]
    refine List.eq_replicate_iff.mpr ⟨length_read _ _ _, fun b hb => ?_⟩
    obtain ⟨i, hi, rfl⟩ := List.mem_map.mp hb
    have hi := List.mem_range.mp hi
    exact if_pos ⟨by omega, by omega⟩
  frame a h := by
    rw [List.length_replicate] at h
    exact if_neg (by omega)

variable {m n : Memory} {base length : Nat}

theorem read_congr (h : ∀ a, base ≤ a → a < base + length → n.byteAt a = m.byteAt a) :
    n.read base length = m.read base length := by
  refine List.map_congr_left fun i hi => h _ (Nat.le_add_right base i) ?_
  have hi := List.mem_range.mp hi
  omega

theorem take_drop_read {k l : Nat} (h : k + l ≤ length) :
    ((m.read base length).drop k).take l = m.read (base + k) l := by
  refine List.ext_getElem? fun i => ?_
  by_cases hi : i < l
  · rw [List.getElem?_take_of_lt hi, List.getElem?_drop, getElem?_read, getElem?_read, if_pos (by omega), if_pos hi,
      Nat.add_assoc]
  · rw [List.getElem?_eq_none (by rw [List.length_take]; omega), getElem?_read, if_neg hi]

theorem read_add (m : Memory) (base k l : Nat) : m.read base (k + l) = m.read base k ++ m.read (base + k) l := by
  rw [read, List.range_add, List.map_append, List.map_map, read, read]
  simp only [Function.comp_def, Nat.add_assoc]

theorem write_nil (m : Memory) (base : Nat) : m.write base [] = m := by
  refine Memory.ext (funext fun a => ?_)
  exact m.byteAt_write_of_outside (by rw [List.length_nil]; omega)

theorem write_append (m : Memory) (base : Nat) (bytes more : List UInt8) :
    m.write base (bytes ++ more) = (m.write base bytes).write (base + bytes.length) more := by
  refine Memory.ext (funext fun a => ?_)
  simp only [byteAt_write, List.getElem?_append]
  by_cases hbase : base ≤ a
  · by_cases hbytes : a - base < bytes.length
    · rw [if_pos hbase, if_pos hbytes, if_neg (by omega), if_pos hbase]
    · rw [if_pos hbase, if_neg hbytes, if_pos (by omega), if_pos hbase, Nat.sub_add_eq,
        List.getElem?_eq_none (Nat.not_lt.mp hbytes)]
      rfl
  · rw [if_neg hbase, if_neg (by omega), if_neg hbase]

theorem distanceToZero_eq_some {bound k : Nat} :
    m.distanceToZero base bound = some k ↔
      k < bound ∧ m.byteAt (base + k) = 0 ∧ ∀ j < k, m.byteAt (base + j) ≠ 0 := by
  induction bound generalizing base k with
  | zero => simp [distanceToZero]
  | succ bound ih =>
      rw [distanceToZero]
      by_cases hzero : m.byteAt base = 0
      · rw [if_pos hzero, Option.some.injEq]
        constructor
        · rintro rfl
          exact ⟨Nat.succ_pos bound, hzero, nofun⟩
        · rintro ⟨-, -, hfirst⟩
          rcases Nat.eq_zero_or_pos k with rfl | hk
          · rfl
          · exact absurd hzero (hfirst 0 hk)
      · rw [if_neg hzero, Option.map_eq_some_iff]
        cases k with
        | zero => simp [hzero]
        | succ k =>
            -- the bytes from the next address on are the later ones from here
            have hshift : ∀ j, base + 1 + j = base + (j + 1) := fun j => by omega
            have hlater : (∀ j < k + 1, m.byteAt (base + j) ≠ 0) ↔ ∀ j < k, m.byteAt (base + (j + 1)) ≠ 0 := by
              rw [Nat.forall_lt_succ_left]
              exact and_iff_right hzero
            simp only [Nat.add_right_cancel_iff, exists_eq_right, ih, hshift, Nat.add_lt_add_iff_right, hlater]

theorem Stores.read_eq {start : Nat} {bytes : List UInt8} (h : m.Stores start bytes n)
    (apart : bytes.length ≠ 0 → length ≠ 0 → start + bytes.length ≤ base ∨ base + length ≤ start) :
    n.read base length = m.read base length :=
  read_congr fun a _ _ => h.frame a (by omega)

theorem Stores.eq_of_empty {bytes : List UInt8} (h : m.Stores base bytes n) (hb : bytes.length = 0) : n = m := by
  ext a
  rw [h.frame a (by omega)]

theorem Stores.read_piece {bytes : List UInt8} (h : m.Stores base bytes n) {k l : Nat} (hle : k + l ≤ bytes.length) :
    n.read (base + k) l = (bytes.drop k).take l := by
  rw [← take_drop_read hle, h.stored]

end CallCapture.Memory
