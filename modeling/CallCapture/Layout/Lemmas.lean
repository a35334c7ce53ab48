import CallCapture.Layout
import Mathlib.Algebra.Group.Nat.Defs

namespace CallCapture

section roundUp

variable {n : Nat} (a : Nat)

theorem dvd_roundUp (n : Nat) : n ∣ roundUp a n := Nat.dvd_mul_left n _

theorem le_roundUp (h : 0 < n) : a ≤ roundUp a n := by
  have hdiv := Nat.div_add_mod (a + n - 1) n
  have hmod := Nat.mod_lt (a + n - 1) h
  rw [Nat.mul_comm] at hdiv
  rw [roundUp]
  omega

theorem roundUp_lt (h : 0 < n) : roundUp a n < a + n := by
  have hdiv := Nat.div_add_mod (a + n - 1) n
  rw [Nat.mul_comm] at hdiv
  rw [roundUp]
  omega

variable {a}

theorem roundUp_le {m : Nat} (h : 0 < n) (hm : n ∣ m) (hle : a ≤ m) : roundUp a n ≤ m := by
  refine Nat.le_of_not_lt fun hlt => ?_
  have hstep := Nat.le_of_dvd (Nat.sub_pos_of_lt hlt) (Nat.dvd_sub (dvd_roundUp a n) hm)
  have hbound := roundUp_lt a h
  omega

theorem roundUp_of_dvd (h : 0 < n) (ha : n ∣ a) : roundUp a n = a :=
  Nat.le_antisymm (roundUp_le h ha (Nat.le_refl a)) (le_roundUp a h)

end roundUp

namespace Layout

theorem align_eq_two_pow (l : Layout) : l.align = 2 ^ l.alignLog := Nat.one_shiftLeft l.alignLog

theorem align_pos (l : Layout) : 0 < l.align := by
  rw [align_eq_two_pow]
  exact Nat.two_pow_pos l.alignLog

theorem align_dvd_or_dvd (l : Layout) (k : Nat) : l.align ∣ 2 ^ k ∨ 2 ^ k ∣ l.align := by
  rw [align_eq_two_pow]
  exact (Nat.le_total l.alignLog k).imp (Nat.pow_dvd_pow 2) (Nat.pow_dvd_pow 2)

theorem align_dvd_sizeLimit (l : Layout) : l.align ∣ sizeLimit := by
  have hle : 2 ^ l.alignLog ≤ 2 ^ 63 := by
    have hsize := l.size_le
    rw [Nat.one_shiftLeft] at hsize
    change _ ≤ 2 ^ 63 - 1 at hsize
    omega
  have hlog : l.alignLog ≤ 63 := (Nat.pow_le_pow_iff_right (by decide)).mp hle
  rw [align_eq_two_pow]
  exact Nat.pow_dvd_pow 2 (Nat.le_succ_of_le hlog)

theorem array?_eq_some {t : ElementType} {count : Nat} {l : Layout} (h : array? t count = some l) :
    l.size = count * t.size ∧ l.align = t.align := by
  simp only [array?, ofSize?] at h
  split at h
  · cases h
    exact ⟨rfl, rfl⟩
  · cases h

end Layout

end CallCapture
