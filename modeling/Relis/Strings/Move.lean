import Mathlib.Tactic
import Relis.Code.String

/-!
# `kmemmove` and ranges that overlap

A copy upwards is right when the destination does not start inside of the source, and a copy
downwards the other way round.
-/

open Relis.Bytes Relis.Code

namespace Relis.Strings

structure Moved (m m' : Mem) (dest src n : Nat) : Prop where
  copied : ∀ i < n, m' (dest + i) = m (src + i)
  frame : ∀ x, x < dest ∨ dest + n ≤ x → m' x = m x

variable {m : Mem} {d s : BitVec 64}

theorem toNat_succ {p : BitVec 64} (h : p.toNat + 1 < 2 ^ 64) : (p + 1).toNat = p.toNat + 1 := by
  rw [BitVec.toNat_add, show (1 : BitVec 64).toNat = 1 from rfl, Nat.mod_eq_of_lt h]

theorem toNat_pred {p : BitVec 64} {a : Nat} (h : a + 1 ≤ 2 ^ 64) (hp : p.toNat = (a + 1) % 2 ^ 64) :
    (p - 1).toNat = a := by
  rw [BitVec.toNat_sub, hp, show (1 : BitVec 64).toNat = 1 from rfl]
  omega

/-- The loop upwards. What is written lies below all that is still to be read. -/
theorem kmemmove_up_spec {n : Nat} (hd : d.toNat + n ≤ 2 ^ 64) (hs : s.toNat + n ≤ 2 ^ 64)
    (hapart : d.toNat ≤ s.toNat ∨ s.toNat + n ≤ d.toNat) :
    Moved m (kmemmove_up m d s n) d.toNat s.toNat n := by
  induction n generalizing m d s with
  | zero => exact ⟨by simp, fun _ _ => rfl⟩
  | succ n ih =>
    rw [kmemmove_up]
    rcases Nat.eq_zero_or_pos n with rfl | hn
    · refine ⟨fun i hi => ?_, fun x hx => Function.update_of_ne (by omega) _ _⟩
      obtain rfl : i = 0 := by omega
      exact Function.update_self _ _ _
    have hd' := toNat_succ (p := d) (by omega)
    have hs' := toNat_succ (p := s) (by omega)
    obtain ⟨hcopied, hframe⟩ := ih (m := Function.update m d.toNat (m s.toNat))
      (d := d + 1) (s := s + 1)
      (by omega) (by omega) (by omega)
    rw [hd'] at hcopied hframe
    rw [hs'] at hcopied
    refine ⟨fun i hi => ?_, fun x hx => ?_⟩
    · rcases Nat.eq_zero_or_pos i with rfl | hi0
      · rw [hframe _ (by omega), Nat.add_zero, Nat.add_zero, Function.update_self]
      · have hi1 := hcopied (i - 1) (by omega)
        rw [Function.update_of_ne (by omega)] at hi1
        rwa [show d.toNat + 1 + (i - 1) = d.toNat + i by omega,
          show s.toNat + 1 + (i - 1) = s.toNat + i by omega] at hi1
    · rw [hframe x (by omega), Function.update_of_ne (by omega)]

/-- The loop downwards, from the ends of the ranges. What is written lies above all that is still to
be read. -/
theorem kmemmove_down_spec {n a b : Nat} (ha : a + n ≤ 2 ^ 64) (hb : b + n ≤ 2 ^ 64)
    (hd : d.toNat = (a + n) % 2 ^ 64) (hs : s.toNat = (b + n) % 2 ^ 64) (hapart : b ≤ a ∨ a + n ≤ b) :
    Moved m (kmemmove_down m d s n) a b n := by
  induction n generalizing m d s with
  | zero => exact ⟨by simp, fun _ _ => rfl⟩
  | succ n ih =>
    have hd' : (d - 1).toNat = a + n := toNat_pred ha hd
    have hs' : (s - 1).toNat = b + n := toNat_pred hb hs
    rw [kmemmove_down]
    obtain ⟨hcopied, hframe⟩ := ih (m := Function.update m (d - 1).toNat (m (s - 1).toNat))
      (d := d - 1) (s := s - 1)
      (by omega) (by omega) (by rw [hd', Nat.mod_eq_of_lt (by omega)])
        (by rw [hs', Nat.mod_eq_of_lt (by omega)])
      (by omega)
    rw [hd', hs'] at hcopied hframe
    refine ⟨fun i hi => ?_, fun x hx => ?_⟩
    · rcases Nat.lt_succ_iff_lt_or_eq.mp hi with hi | rfl
      · rw [hd', hs', hcopied i hi, Function.update_of_ne (by omega)]
      · rw [hd', hs', hframe _ (by omega), Function.update_self]
    · rw [hd', hs', hframe x (by omega), Function.update_of_ne (by omega)]

/-- For all ranges that do not wrap, however they overlap. -/
theorem kmemmove_moves (m : Mem) (dest src n : BitVec 64) (hdest : dest.toNat + n.toNat ≤ 2 ^ 64)
    (hsrc : src.toNat + n.toNat ≤ 2 ^ 64) :
    (∀ i < n.toNat, kmemmove m dest src n (dest.toNat + i) = m (src.toNat + i)) ∧
      ∀ x, x < dest.toNat ∨ dest.toNat + n.toNat ≤ x → kmemmove m dest src n x = m x := by
  suffices h : Moved m (kmemmove m dest src n) dest.toNat src.toNat n.toNat from ⟨h.copied, h.frame⟩
  unfold kmemmove
  split_ifs with hback
  · have hlt : src.toNat < dest.toNat := hback.1
    exact kmemmove_down_spec hdest hsrc (BitVec.toNat_add _ _) (BitVec.toNat_add _ _) (.inl hlt.le)
  · refine kmemmove_up_spec hdest hsrc ?_
    -- Where the source starts below the destination its end does not wrap.
    by_contra hover
    refine hback ⟨BitVec.lt_def.mpr (by omega), BitVec.lt_def.mpr ?_⟩
    rw [BitVec.toNat_add, Nat.mod_eq_of_lt (by omega)]
    omega

/-- Three bytes that move up by one, to a range that has two of them. -/
theorem kmemmove_by_one : kmemmove (fun x => BitVec.ofNat 8 x) 2 1 3 4 = 3 :=
  (kmemmove_moves (fun x => BitVec.ofNat 8 x) 2 1 3 (by decide) (by decide)).1 2 (by decide)

end Relis.Strings
