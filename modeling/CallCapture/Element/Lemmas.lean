import CallCapture.Element
import CallCapture.Word.Lemmas

namespace CallCapture.ElementType

theorem length_flatMap_of_forall {α β : Type} {f : α → List β} {n : Nat} (l : List α)
    (h : ∀ a ∈ l, (f a).length = n) : (l.flatMap f).length = l.length * n := by
  induction l with
  | nil => simp
  | cons a l ih =>
      have ha := h a List.mem_cons_self
      have hl := ih fun b hb => h b (List.mem_cons_of_mem a hb)
      simp only [List.flatMap_cons, List.length_append, List.length_cons, ha, hl, Nat.succ_mul]
      omega

theorem drop_flatMap {α β : Type} {f : α → List β} {n : Nat} (l : List α) (h : ∀ a, (f a).length = n) (i : Nat) :
    (l.flatMap f).drop (i * n) = (l.drop i).flatMap f := by
  induction l generalizing i with
  | nil => simp
  | cons a l ih =>
      cases i with
      | zero => simp
      | succ i =>
          have hi : (i + 1) * n = (f a).length + i * n := by rw [h, Nat.succ_mul, Nat.add_comm]
          rw [List.flatMap_cons, hi, List.drop_length_add_append, ih, List.drop_succ_cons]

@[simp] theorem length_encode (t : ElementType) (v : t.Value) : (t.encode v).length = t.size := by
  induction t with
  | unsigned w | signed w => exact Word.length_encode _ _
  | float32 | float64 => exact Word.length_encode _ _
  | block => exact Vector.length_toList
  | array item n ih =>
      show ((Vector.toList v).flatMap item.encode).length = n * item.size
      rw [length_flatMap_of_forall _ fun a _ => ih a, Vector.length_toList]

theorem encode_zero (t : ElementType) : t.encode t.zero = List.replicate t.size 0 := by
  induction t with
  | unsigned w | signed w => cases w <;> rfl
  | float32 | float64 => rfl
  | block => rfl
  | array item n ih =>
      show (Vector.toList (Vector.replicate n item.zero)).flatMap item.encode = List.replicate (n * item.size) 0
      rw [Vector.toList_replicate, List.flatMap_replicate, ih, List.flatten_replicate_replicate]

theorem ofNat_decode_encode (w : Nat) (v : BitVec (8 * w)) (rest : List UInt8) :
    BitVec.ofNat (8 * w) (Word.decode ((Word.encode w v.toNat ++ rest).take w)) = v := by
  have hl := Word.length_encode w v.toNat
  rw [List.take_append_of_le_length (by omega), List.take_of_length_le (by omega), Word.decode_encode]
  have hp : 256 ^ w = 2 ^ (8 * w) := by rw [Nat.pow_mul]
  rw [hp, Nat.mod_eq_of_lt v.isLt, BitVec.ofNat_toNat, BitVec.setWidth_eq]

theorem decode_encode_append (t : ElementType) (v : t.Value) (rest : List UInt8) :
    t.decode (t.encode v ++ rest) = v := by
  induction t generalizing rest with
  | unsigned w | signed w => exact ofNat_decode_encode w.bytes v rest
  | float32 => exact ofNat_decode_encode 4 v rest
  | float64 => exact ofNat_decode_encode 8 v rest
  | block =>
      refine Vector.ext fun i hi => ?_
      have hl : (Vector.toList v).length = 32 := Vector.length_toList
      simp only [decode, encode, Vector.getElem_ofFn]
      rw [List.getD_eq_getElem?_getD, List.getElem?_append_left (by omega), List.getElem?_eq_getElem (by omega)]
      simp
  | array item n ih =>
      refine Vector.ext fun i hi => ?_
      have hi' : i < (Vector.toList v).length := by rwa [Vector.length_toList]
      have hb : i * item.size ≤ ((Vector.toList v).flatMap item.encode).length := by
        rw [length_flatMap_of_forall _ fun a _ => length_encode item a, Vector.length_toList]
        exact Nat.mul_le_mul_right _ (Nat.le_of_lt hi)
      simp only [decode, encode, Vector.getElem_ofFn]
      rw [List.drop_append_of_le_length hb, drop_flatMap _ (length_encode item), List.drop_eq_getElem_cons hi',
        List.flatMap_cons, List.append_assoc, ih, Vector.getElem_toList]

theorem decode_encode (t : ElementType) (v : t.Value) : t.decode (t.encode v) = v := by
  simpa using decode_encode_append t v []

theorem flatten_pieces {α : Type} (l : List α) (n k : Nat) :
    (List.ofFn fun i : Fin n => (l.drop (i * k)).take k).flatten = l.take (n * k) := by
  induction n with
  | zero => rw [List.ofFn_zero, Nat.zero_mul]; rfl
  | succ n ih =>
      rw [List.ofFn_succ_last, List.flatten_append, List.flatten_singleton, Nat.succ_mul, List.take_add]
      exact congrArg (· ++ (l.drop (n * k)).take k) ih

theorem encode_ofNat_decode (w : Nat) {bytes : List UInt8} (h : w ≤ bytes.length) :
    Word.encode w (BitVec.ofNat (8 * w) (Word.decode (bytes.take w))).toNat = bytes.take w := by
  have hlength : (bytes.take w).length = w := List.length_take_of_le h
  have hlt := Word.decode_lt (bytes.take w)
  have hback := Word.encode_decode (bytes.take w)
  rw [hlength] at hlt hback
  rw [BitVec.toNat_ofNat, Nat.pow_mul, Nat.mod_eq_of_lt hlt, hback]

theorem encode_decode (t : ElementType) {bytes : List UInt8} (h : t.size ≤ bytes.length) :
    t.encode (t.decode bytes) = bytes.take t.size := by
  induction t generalizing bytes with
  | unsigned w | signed w => exact encode_ofNat_decode w.bytes h
  | float32 => exact encode_ofNat_decode 4 h
  | float64 => exact encode_ofNat_decode 8 h
  | block =>
      have h : 32 ≤ bytes.length := h
      show Vector.toList (Vector.ofFn fun i : Fin 32 => bytes.getD i 0) = bytes.take 32
      refine List.ext_getElem (by simp [h]) fun i hi hi' => ?_
      have hlt : i < bytes.length := List.length_take_le' 32 bytes |> Nat.lt_of_lt_of_le hi'
      simp [hlt]
  | array item n ih =>
      show (Vector.toList (Vector.ofFn fun i : Fin n => item.decode (bytes.drop (i * item.size)))).flatMap item.encode =
        bytes.take (n * item.size)
      have hpiece : ∀ i : Fin n,
          item.encode (item.decode (bytes.drop (i * item.size))) = (bytes.drop (i * item.size)).take item.size := by
        intro i
        have hle := Nat.mul_le_mul_right item.size (Nat.succ_le_of_lt i.isLt)
        have hsize : n * item.size ≤ bytes.length := h
        rw [Nat.succ_mul] at hle
        apply ih
        rw [List.length_drop]
        omega
      rw [Vector.toList_ofFn, List.flatMap_def, List.map_ofFn, ← flatten_pieces]
      exact congrArg (fun f => (List.ofFn f).flatten) (funext hpiece)

end CallCapture.ElementType
