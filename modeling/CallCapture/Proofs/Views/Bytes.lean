import CallCapture.Proofs.Session.Placement

namespace CallCapture

namespace ElementType

def Numeric : ElementType → Prop
  | block => False
  | array item _ => item.Numeric
  | _ => True

/-- The byte of a value at `k`: numbers begin with their lowest bits, and arrays with their first item. -/
def byteOf : (t : ElementType) → t.Value → (k : Nat) → UInt8
  | unsigned w, v, k | signed w, v, k => UInt8.ofBitVec (BitVec.extractLsb' (8 * k) 8 (v : BitVec (8 * w.bytes)))
  | float32, v, k => UInt8.ofBitVec (BitVec.extractLsb' (8 * k) 8 (v : BitVec 32))
  | float64, v, k => UInt8.ofBitVec (BitVec.extractLsb' (8 * k) 8 (v : BitVec 64))
  | block, v, k => (Vector.toList v).getD k 0
  | array item _, v, k => (((Vector.toList v)[k / item.size]?).map fun a => item.byteOf a (k % item.size)).getD 0

theorem alignLog_le_of_numeric {t : ElementType} (h : t.Numeric) : t.alignLog ≤ 4 := by
  induction t with
  | unsigned w | signed w => cases w <;> decide
  | float32 | float64 => decide
  | block => exact h.elim
  | array item n ih => exact ih h

theorem getElem?_encode_word {w k : Nat} (v : BitVec w) {n : Nat} (h : k < n) :
    (Word.encode n v.toNat)[k]? = some (UInt8.ofBitVec (v.extractLsb' (8 * k) 8)) := by
  rw [Word.getElem?_encode _ h]
  rfl

theorem getElem?_flatMap {α β : Type} {f : α → List β} {n k : Nat} {l : List α} (h : ∀ a, (f a).length = n)
    (hk : k / n < l.length) (hn : 0 < n) : (l.flatMap f)[k]? = (f l[k / n])[k % n]? := by
  have hdrop := drop_flatMap l h (k / n)
  have hplace : k / n * n + k % n = k := Nat.div_add_mod' k n
  have hlt : k % n < (f l[k / n]).length := by
    rw [h]
    exact Nat.mod_lt k hn
  rw [← List.getElem?_append_left hlt, ← List.flatMap_cons, ← List.drop_eq_getElem_cons hk, ← hdrop, List.getElem?_drop,
    hplace]

theorem getElem?_encode (t : ElementType) (v : t.Value) {k : Nat} (h : k < t.size) :
    (t.encode v)[k]? = some (t.byteOf v k) := by
  induction t generalizing k with
  | unsigned w | signed w => exact getElem?_encode_word v h
  | float32 | float64 => exact getElem?_encode_word v h
  | block =>
      have hlt : k < (Vector.toList v).length := by
        rw [Vector.length_toList]
        exact h
      rw [byteOf, List.getD_eq_getElem?_getD]
      change (Vector.toList v)[k]? = _
      rw [List.getElem?_eq_getElem hlt]
      rfl
  | array item n ih =>
      change k < n * item.size at h
      have hsize : 0 < item.size := Nat.pos_of_ne_zero fun hzero => by
        rw [hzero] at h
        omega
      have hitem : k / item.size < (Vector.toList v).length := by
        rw [Vector.length_toList]
        exact (Nat.div_lt_iff_lt_mul hsize).mpr h
      change ((Vector.toList v).flatMap item.encode)[k]? = _
      rw [getElem?_flatMap item.length_encode hitem hsize, ih _ (Nat.mod_lt k hsize), byteOf,
        List.getElem?_eq_getElem hitem]
      rfl

theorem eq_of_byteOf {t : ElementType} {v v' : t.Value} (h : ∀ k < t.size, t.byteOf v k = t.byteOf v' k) : v = v' := by
  have hencode : t.encode v = t.encode v' := by
    refine List.ext_getElem? fun k => ?_
    by_cases hk : k < t.size
    · rw [getElem?_encode t v hk, getElem?_encode t v' hk, h k hk]
    · rw [List.getElem?_eq_none (by rw [length_encode]; omega), List.getElem?_eq_none (by rw [length_encode]; omega)]
  rw [← t.decode_encode v, hencode, t.decode_encode]

end ElementType

namespace View

variable {t u : ElementType} {m n : Memory} {index : Nat}

def Holds (v : View t) (m : Memory) (index : Nat) (value : t.Value) : Prop :=
  ∀ k < t.size, m.byteAt (v.base + index * t.size + k) = t.byteOf value k

theorem holds_element (v : View t) (m : Memory) (index : Nat) : v.Holds m index (v.element m index) := by
  intro k hk
  have hbyte := t.getElem?_encode (v.element m index) hk
  rw [encode_element, Memory.getElem?_read, if_pos hk] at hbyte
  exact Option.some.inj hbyte

theorem Holds.unique {v : View t} {a b : t.Value} (ha : v.Holds m index a) (hb : v.Holds m index b) : a = b :=
  ElementType.eq_of_byteOf fun k hk => (ha k hk).symm.trans (hb k hk)

theorem get_eq_ok {v : View t} {value : t.Value} :
    v.get m index = .ok value ↔ index < v.count ∧ v.Holds m index value := by
  rcases Nat.lt_or_ge index v.count with hindex | hindex
  · rw [get_of_lt hindex, Except.ok.injEq, and_iff_right hindex]
    refine ⟨?_, fun h => (v.holds_element m index).unique h⟩
    rintro rfl
    exact v.holds_element m index
  · rw [get_of_le hindex]
    exact ⟨nofun, fun h => absurd h.1 (Nat.not_lt.mpr hindex)⟩

theorem exists_set {v : View t} (h : index < v.count) (m : Memory) (value : t.Value) :
    ∃ n, v.set m index value = .ok n ∧ v.Holds n index value ∧
      ∀ x, ¬(v.elementRegion index).Contains x → n.byteAt x = m.byteAt x := by
  refine ⟨_, set_of_lt h m value, fun k hk => ?_, fun x hx => ?_⟩
  · have hlength : k < (t.encode value).length := by rwa [t.length_encode]
    have hbyte := t.getElem?_encode value hk
    rw [List.getElem?_eq_getElem hlength, Option.some.injEq] at hbyte
    rw [Memory.byteAt_write_of_lt m _ _ hlength, hbyte]
  · apply Memory.byteAt_write_of_outside
    rw [t.length_encode]
    exact Region.not_contains_iff.mp hx

theorem element_end_le (v : View t) {i j : Nat} (h : i < j) : v.base + i * t.size + t.size ≤ v.base + j * t.size := by
  have hle := Nat.mul_le_mul_right t.size (Nat.succ_le_of_lt h)
  rw [Nat.succ_mul] at hle
  omega

theorem disjoint_elementRegion (v : View t) {i j : Nat} (h : i ≠ j) :
    (v.elementRegion i).Disjoint (v.elementRegion j) := by
  rintro x ⟨hi, hi'⟩ ⟨hj, hj'⟩
  change v.base + i * t.size ≤ x at hi
  change x < v.base + i * t.size + t.size at hi'
  change v.base + j * t.size ≤ x at hj
  change x < v.base + j * t.size + t.size at hj'
  rcases Nat.lt_or_gt_of_ne h with h | h
  · have hend := v.element_end_le h
    omega
  · have hend := v.element_end_le h
    omega

theorem get_congr {v : View t} (h : ∀ x, (v.elementRegion index).Contains x → n.byteAt x = m.byteAt x) :
    v.get n index = v.get m index := by
  rcases Nat.lt_or_ge index v.count with hindex | hindex
  · have hread : n.read (v.base + index * t.size) t.size = m.read (v.base + index * t.size) t.size :=
      Memory.read_congr fun x hlow hhigh => h x ⟨hlow, hhigh⟩
    rw [get_of_lt hindex, get_of_lt hindex, element, element, hread]
  · rw [get_of_le hindex, get_of_le hindex]

/-- A view of the pool that leaves out no more than a rest with no room for an element. -/
structure Fills (v : View t) (pool : Pool) : Prop where
  base : v.base = pool.base
  owner : v.owner = .tool pool.id
  backing : v.backing = some pool
  inside : v.byteLength ≤ pool.size
  rest : 0 < t.size → pool.size < v.byteLength + t.size
  empty : t.size = 0 → v.count = 0

theorem exists_ofPool (h : t.Numeric) (pool : Pool) : ∃ v, ofPool t pool = .ok v ∧ v.Fills pool := by
  have halign : t.align ≤ poolAlign := by
    rw [ElementType.align, Nat.one_shiftLeft]
    exact Nat.pow_le_pow_right Nat.two_pos (ElementType.alignLog_le_of_numeric h)
  refine ⟨_, if_neg (Nat.not_lt.mpr halign), rfl, rfl, rfl, Nat.div_mul_le_self _ _, fun hsize => ?_, fun hzero => ?_⟩
  · exact Nat.lt_div_mul_add hsize
  · change pool.size / t.size = 0
    rw [hzero, Nat.div_zero]

/-- Of any two views of one memory, wherever they lie and whatever they are views of. A view of a pool leaves out less
than one element. The elements of a view lie within it, each in bytes of its own. A write changes these bytes to those
of the value and no others; after it the other view reads what the bytes now say, which is the value itself at the same
place as the same type, and what it was before where no byte is shared. -/
theorem access_by_bytes (pool : Pool) (v : View t) (w : View u) (m : Memory) :
    (t.Numeric → ∃ whole, ofPool t pool = .ok whole ∧ whole.Fills pool) ∧
    (∀ i < v.count, ∃ address, v.elementAddress i = .ok address ∧ v.base ≤ address ∧
      address + t.size ≤ v.base + v.byteLength ∧ (v.elementRegion i).base = address ∧
      (v.elementRegion i).byteLength = t.size) ∧
    (∀ i j, i ≠ j → (v.elementRegion i).Disjoint (v.elementRegion j)) ∧
    ∀ i < v.count, ∀ value, ∃ n, v.set m i value = .ok n ∧
      v.Holds n i value ∧ (∀ x, ¬(v.elementRegion i).Contains x → n.byteAt x = m.byteAt x) ∧
      (∀ j < w.count, ∃ current, w.get n j = .ok current ∧ ∀ other, w.Holds n j other ↔ other = current) ∧
      (∀ j, (v.elementRegion i).Disjoint (w.elementRegion j) → w.get n j = w.get m j) ∧
      ∀ (same : View t) j, same.elementAddress j = v.elementAddress i → same.get n j = .ok value := by
  refine ⟨fun h => exists_ofPool h pool, fun i hi => ?_, fun i j => v.disjoint_elementRegion, fun i hi value => ?_⟩
  · have hle := v.element_le hi
    exact ⟨_, elementAddress_of_lt hi, Nat.le_add_right _ _, by omega, rfl, rfl⟩
  · obtain ⟨n, hset, hholds, hframe⟩ := exists_set hi m value
    refine ⟨n, hset, hholds, hframe, fun j hj => ?_, fun j hapart => ?_, fun same j hplace => ?_⟩
    · have hget := w.holds_element n j
      refine ⟨_, get_of_lt hj n, fun other => ⟨fun h => h.unique hget, ?_⟩⟩
      rintro rfl
      exact hget
    · exact get_congr fun x hx => hframe x fun hx' => hapart x hx' hx
    · rw [elementAddress_of_lt hi] at hplace
      rcases Nat.lt_or_ge j same.count with hj | hj
      · rw [elementAddress_of_lt hj, Except.ok.injEq] at hplace
        refine get_eq_ok.mpr ⟨hj, fun k hk => ?_⟩
        rw [hplace]
        exact hholds k hk
      · rw [elementAddress_of_le hj] at hplace
        cases hplace

/-- Of a pool of ten bytes, two words cover eight: the second word reaches over the third and fourth half-word, and the
last half-word is out of reach of both words. -/
theorem word_read_as_halves :
    ∃ (words : View (.unsigned .w32)) (halves : View (.unsigned .w16)) (n : Memory),
      ofPool (.unsigned .w32) ⟨0, .first, 16, 10⟩ = .ok words ∧
      ofPool (.unsigned .w16) ⟨0, .first, 16, 10⟩ = .ok halves ∧
      words.set .pattern 1 0x04030201#32 = .ok n ∧
      halves.get n 2 = .ok 0x0201#16 ∧ halves.get n 3 = .ok 0x0403#16 ∧ halves.get n 4 = .ok 0x1918#16 := by
  let pool : Pool := ⟨0, .first, 16, 10⟩
  let words : View (.unsigned .w32) := ⟨16, 2, .tool .first, some pool⟩
  let halves : View (.unsigned .w16) := ⟨16, 5, .tool .first, some pool⟩
  obtain ⟨-, -, -, haccess⟩ := access_by_bytes pool words halves .pattern
  obtain ⟨n, hset, hholds, -, hread, hapart, -⟩ := haccess 1 (by decide) 0x04030201#32
  obtain ⟨low, hlow, hlow'⟩ := hread 2 (by decide)
  obtain ⟨high, hhigh, hhigh'⟩ := hread 3 (by decide)
  refine ⟨words, halves, n, rfl, rfl, hset, ?_, ?_, ?_⟩
  · have hbytes : ∀ k < 2, ElementType.byteOf (.unsigned .w32) 0x04030201#32 k =
        ElementType.byteOf (.unsigned .w16) 0x0201#16 k := by decide
    rw [hlow, (hlow' 0x0201#16).mp fun k hk => (hholds k (Nat.lt_of_lt_of_le hk (by decide))).trans (hbytes k hk)]
  · have hbytes : ∀ k < 2, ElementType.byteOf (.unsigned .w32) 0x04030201#32 (2 + k) =
        ElementType.byteOf (.unsigned .w16) 0x0403#16 k := by decide
    rw [hhigh, (hhigh' 0x0403#16).mp fun k hk =>
      (Nat.add_assoc 20 2 k ▸ hholds (2 + k) (Nat.add_lt_add_left hk 2)).trans (hbytes k hk)]
  · have hlast : (words.elementRegion 1).Disjoint (halves.elementRegion 4) := by
      rintro x ⟨-, hhigh⟩ ⟨hlow, -⟩
      change x < 16 + 1 * 4 + 4 at hhigh
      change 16 + 4 * 2 ≤ x at hlow
      omega
    have hbytes : ∀ k < 2, Memory.pattern.byteAt (24 + k) = ElementType.byteOf (.unsigned .w16) 0x1918#16 k := by decide
    rw [hapart 4 hlast]
    exact get_eq_ok.mpr ⟨by decide, hbytes⟩

end View

end CallCapture
