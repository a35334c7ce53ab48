import CallCapture.Word
import Mathlib.Algebra.Group.Nat.Defs

namespace CallCapture.Word

@[simp] theorem length_encode (w n : Nat) : (encode w n).length = w := by
  induction w generalizing n with
  | zero => rfl
  | succ w ih => simp [encode, ih]

theorem decode_lt (bs : List UInt8) : decode bs < 256 ^ bs.length := by
  induction bs with
  | nil => simp [decode]
  | cons b bs ih =>
      have := b.toNat_lt
      simp only [decode, List.length_cons, Nat.pow_succ]
      omega

theorem decode_encode (w n : Nat) : decode (encode w n) = n % 256 ^ w := by
  induction w generalizing n with
  | zero => simp [encode, decode, Nat.mod_one]
  | succ w ih =>
      have hp : 256 ^ (w + 1) = 256 * 256 ^ w := by rw [Nat.pow_succ, Nat.mul_comm]
      simp only [encode, decode, ih, UInt8.toNat_ofNat']
      rw [hp, Nat.mod_mul]

theorem encode_decode (bs : List UInt8) : encode bs.length (decode bs) = bs := by
  induction bs with
  | nil => rfl
  | cons b bs ih =>
      have hb := b.toNat_lt
      have hd : (b.toNat + 256 * decode bs) / 256 = decode bs := by omega
      have hm : UInt8.ofNat (b.toNat + 256 * decode bs) = b := by
        apply UInt8.toNat_inj.mp
        simp only [UInt8.toNat_ofNat']
        omega
      simp only [List.length_cons, encode, decode, hd, hm, ih]

theorem getElem?_encode {w k : Nat} (n : Nat) (h : k < w) : (encode w n)[k]? = some (UInt8.ofNat (n >>> (8 * k))) := by
  induction w generalizing n k with
  | zero => exact absurd h (Nat.not_lt_zero k)
  | succ w ih =>
      rw [encode]
      cases k with
      | zero => rfl
      | succ k =>
          have hbyte : n >>> 8 = n / 256 := Nat.shiftRight_eq_div_pow n 8
          rw [List.getElem?_cons_succ, ih _ (Nat.lt_of_succ_lt_succ h), Nat.mul_succ, Nat.add_comm (8 * k),
            Nat.shiftRight_add, hbyte]

theorem exists_encode_append {bs : List UInt8} {width : Nat} (h : width ≤ bs.length) :
    ∃ n rest, n < 256 ^ width ∧ bs = encode width n ++ rest := by
  have hlength : (bs.take width).length = width := List.length_take_of_le h
  have hlt := decode_lt (bs.take width)
  have hencode := encode_decode (bs.take width)
  rw [hlength] at hlt hencode
  exact ⟨_, bs.drop width, hlt, by rw [hencode, List.take_append_drop]⟩

end CallCapture.Word
