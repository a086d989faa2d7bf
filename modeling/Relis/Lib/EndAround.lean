import Mathlib.Data.Nat.ModEq

/-!
# Sums with end-around carry

What overflows a digit of base `b` is added at its low end, so a sum keeps its remainder
modulo `b - 1`.
-/

namespace Relis.EndAround

variable {b n : Nat}

def fold (b n : Nat) : Nat := n % b + n / b

theorem fold_modEq (hb : 0 < b) : fold b n ≡ n [MOD b - 1] := by
  have hone : b ≡ 1 [MOD b - 1] := by
    have hdvd : b - 1 ∣ b - 1 := dvd_rfl
    exact ((Nat.modEq_iff_dvd' hb).mpr hdvd).symm
  have hmul : n / b ≡ b * (n / b) [MOD b - 1] := by simpa using (hone.mul_right (n / b)).symm
  calc fold b n = n % b + n / b := rfl
    _ ≡ n % b + b * (n / b) [MOD b - 1] := hmul.add_left _
    _ = n := Nat.mod_add_div n b

theorem fold_pos (hn : 0 < n) : 0 < fold b n := by
  unfold fold
  rcases Nat.eq_zero_or_pos (n / b) with h | h
  · have := Nat.mod_add_div n b
    rw [h, Nat.mul_zero] at this
    omega
  · omega

theorem fold_le (hb : 0 < b) : fold b n ≤ n := by
  have hmul : n / b ≤ b * (n / b) := Nat.le_mul_of_pos_left _ hb
  have := Nat.mod_add_div n b
  unfold fold
  omega

theorem eq_last (hpos : 0 < n) (hlt : n < b) (h : n ≡ 0 [MOD b - 1]) : n = b - 1 := by
  obtain ⟨k, rfl⟩ := (Nat.modEq_zero_iff_dvd.mp h)
  have hk : k ≠ 0 := by
    rintro rfl
    simp at hpos
  have hle : (b - 1) * 1 ≤ (b - 1) * k := Nat.mul_le_mul_left _ (Nat.one_le_iff_ne_zero.mpr hk)
  omega

end Relis.EndAround
