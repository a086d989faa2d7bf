import Relis.Lib.Bytes

/-!
# `lib/string.c`: the memory loops, `kstrcpy` and `kstrcmp`

Pointers are addresses of byte memory. The direct map of the kernel
(`phys_to_virt`) only adds an offset, so an address here is a physical one.
-/

open Relis.Bytes

namespace Relis.Code

def kmemset (m : Mem) (s : Nat) (c : BitVec 8) : Nat → Mem
  | 0 => m
  | n + 1 => kmemset (Function.update m s c) (s + 1) c n

def kmemcpy (m : Mem) (dest src : Nat) : Nat → Mem
  | 0 => m
  | n + 1 => kmemcpy (Function.update m dest (m src)) (dest + 1) (src + 1) n

/-- `kmemcpy` from one object into another. -/
def kmemcpy_into (dest src : Nat → BitVec 8) (d s : Nat) : Nat → (Nat → BitVec 8)
  | 0 => dest
  | n + 1 => kmemcpy_into (Function.update dest d (src s)) src (d + 1) (s + 1) n

/-- `while (n--) *d++ = *s++;` with the pointers as they are. -/
def kmemmove_up (m : Mem) (d s : BitVec 64) : Nat → Mem
  | 0 => m
  | n + 1 => kmemmove_up (Function.update m d.toNat (m s.toNat)) (d + 1) (s + 1) n

/-- `while (n--) *--d = *--s;` -/
def kmemmove_down (m : Mem) (d s : BitVec 64) : Nat → Mem
  | 0 => m
  | n + 1 => kmemmove_down (Function.update m (d - 1).toNat (m (s - 1).toNat)) (d - 1) (s - 1) n

def kmemmove (m : Mem) (dest src n : BitVec 64) : Mem :=
  if src < dest ∧ src + n > dest then kmemmove_down m (dest + n) (src + n) n.toNat
  else kmemmove_up m dest src n.toNat

/-- The bytes of a string, without the zero at its end. -/
structure CString where
  bytes : List (BitVec 8)
  nonzero : 0 ∉ bytes

/-- `kstrcmp(a, b)` for the strings with the bytes of the lists. -/
def kstrcmp : List (BitVec 8) → List (BitVec 8) → Int
  | a :: as, b :: bs => if a = b then kstrcmp as bs else a.toNat - b.toNat
  | as, bs => (as.headD 0).toNat - (bs.headD 0).toNat

/-- `kstrcpy(dest + d, src)` for a string with the bytes of the list. The loop stops behind the zero. -/
def kstrcpy (dest : Mem) (d : Nat) : List (BitVec 8) → Mem
  | [] => Function.update dest d 0
  | c :: src => kstrcpy (Function.update dest d c) (d + 1) src

theorem kmemset_apply (m : Mem) (s n : Nat) (c : BitVec 8) (x : Nat) :
    kmemset m s c n x = if s ≤ x ∧ x < s + n then c else m x := by
  induction n generalizing m s with
  | zero => rw [kmemset, if_neg (by omega)]
  | succ n ih =>
    rw [kmemset, ih]
    by_cases hx : x = s
    · subst hx
      rw [if_neg (by omega), if_pos (by omega), Function.update_self]
    · rw [Function.update_of_ne hx]
      by_cases h : s ≤ x ∧ x < s + (n + 1)
      · rw [if_pos h, if_pos (by omega)]
      · rw [if_neg h, if_neg (by omega)]

/-- Between ranges that do not overlap, the loop copies the bytes as they were. -/
theorem kmemcpy_apply (m : Mem) (dest src n : Nat) (x : Nat)
    (h : dest + n ≤ src ∨ src + n ≤ dest) :
    kmemcpy m dest src n x = if dest ≤ x ∧ x < dest + n then m (src + (x - dest)) else m x := by
  induction n generalizing m dest src with
  | zero => rw [kmemcpy, if_neg (by omega)]
  | succ n ih =>
    rw [kmemcpy, ih _ _ _ (by omega)]
    by_cases hx : x = dest
    · subst hx
      rw [if_neg (by omega), if_pos (by omega), Function.update_self, Nat.sub_self, Nat.add_zero]
    · rw [Function.update_of_ne hx]
      by_cases hin : dest ≤ x ∧ x < dest + (n + 1)
      · rw [if_pos hin, if_pos (by omega), Function.update_of_ne (by omega)]
        congr 1
        omega
      · rw [if_neg hin, if_neg (by omega)]

/-- The loop writes to no other byte, also where the ranges overlap. -/
theorem kmemcpy_outside (m : Mem) (dest src n : Nat) {x : Nat} (h : x < dest ∨ dest + n ≤ x) :
    kmemcpy m dest src n x = m x := by
  induction n generalizing m dest src with
  | zero => rfl
  | succ n ih => rw [kmemcpy, ih _ _ _ (by omega), Function.update_of_ne (by omega)]

theorem kmemcpy_into_apply (dest src : Nat → BitVec 8) (d s n x : Nat) :
    kmemcpy_into dest src d s n x = if d ≤ x ∧ x < d + n then src (s + (x - d)) else dest x := by
  induction n generalizing dest d s with
  | zero => rw [kmemcpy_into, if_neg (by omega)]
  | succ n ih =>
    rw [kmemcpy_into, ih]
    by_cases hx : x = d
    · subst hx
      rw [if_neg (by omega), if_pos (by omega), Function.update_self, Nat.sub_self, Nat.add_zero]
    · rw [Function.update_of_ne hx]
      by_cases hin : d ≤ x ∧ x < d + (n + 1)
      · rw [if_pos hin, if_pos (by omega)]
        congr 1
        omega
      · rw [if_neg hin, if_neg (by omega)]

theorem kmemcpy_into_succ (dest src : Nat → BitVec 8) (d s n : Nat) :
    kmemcpy_into dest src d s (n + 1) =
      Function.update (kmemcpy_into dest src d s n) (d + n) (src (s + n)) := by
  induction n generalizing dest d s with
  | zero => rfl
  | succ n ih =>
    rw [kmemcpy_into, ih, kmemcpy_into, Nat.add_right_comm d, Nat.add_right_comm s]
    rfl

theorem kstrcpy_apply (dest : Mem) (d : Nat) (src : List (BitVec 8)) (x : Nat) :
    kstrcpy dest d src x = if d ≤ x ∧ x ≤ d + src.length then src.getD (x - d) 0 else dest x := by
  induction src generalizing dest d with
  | nil =>
    rw [kstrcpy, Function.update_apply, List.length_nil]
    by_cases hx : x = d
    · rw [if_pos hx, if_pos (by omega), List.getD_nil]
    · rw [if_neg hx, if_neg (by omega)]
  | cons c src ih =>
    rw [kstrcpy, ih, List.length_cons]
    by_cases hx : x = d
    · subst hx
      rw [if_neg (by omega), if_pos (by omega), Function.update_self, Nat.sub_self, List.getD_cons_zero]
    · rw [Function.update_of_ne hx]
      by_cases hin : d ≤ x ∧ x ≤ d + (src.length + 1)
      · rw [if_pos hin, if_pos (by omega), show x - d = x - (d + 1) + 1 by omega, List.getD_cons_succ]
      · rw [if_neg hin, if_neg (by omega)]

theorem kstrcmp_eq_zero {a b : List (BitVec 8)} (ha : 0 ∉ a) (hb : 0 ∉ b) :
    kstrcmp a b = 0 ↔ a = b := by
  induction a generalizing b with
  | nil =>
    cases b with
    | nil => simp [kstrcmp]
    | cons y bs =>
      have hy : y.toNat ≠ 0 := fun h => hb (by simp [BitVec.eq_of_toNat_eq (x := y) (y := 0#8) h])
      simp [kstrcmp, hy]
  | cons x as ih =>
    rw [List.mem_cons, not_or] at ha
    cases b with
    | nil =>
      have hx : x.toNat ≠ 0 := fun h => ha.1 (BitVec.eq_of_toNat_eq h).symm
      simp [kstrcmp, hx]
    | cons y bs =>
      rw [List.mem_cons, not_or] at hb
      by_cases hxy : x = y
      · simp [kstrcmp, hxy, ih ha.2 hb.2]
      · have hne : x.toNat ≠ y.toNat := fun h => hxy (BitVec.eq_of_toNat_eq h)
        rw [kstrcmp, if_neg hxy, List.cons.injEq]
        exact iff_of_false (by omega) fun h => hxy h.1

end Relis.Code
