import Relis.Paging.Typing

/-!
# The levels of the tables

Each frame with a user table has one level, and a present entry leads to a frame of the
next.
-/

open Relis.Bytes Relis.Run Relis.Code Relis.PageAlloc

namespace Relis.Paging

def width (d : Nat) : Nat := if d = 0 then 256 else 512

theorem width_le (d : Nat) : width d ≤ 512 := by
  unfold width
  split_ifs <;> omega

def levels : Typing Nat where
  root := 0
  depth d := d
  next d _ := d + 1
  Covers d i := i < width d
  Ok L d _ e := has e PTE_PRESENT = true → pageOf (pte_addr e) ∈ L (d + 1)
  Allows _ _ _ := True
  depth_root := rfl
  depth_next _ _ := rfl
  covers_lt h := h.trans_le (width_le _)
  covers_user := by
    intro d i hi htop
    unfold width
    split_ifs with hd
    · exact htop hd
    · exact hi
  ok_zero h := by
    rw [zero_has] at h
    cases h
  ok_mono hL h hpres := hL _ (h hpres)
  ok_table hf hmem hu _ _ := by
    rw [tableEntry_addr _ hu, hf]
    exact hmem
  ok_user h hu _ hpres := by
    rw [has_or, hu.has (by decide), Bool.or_false] at hpres
    rw [addr_or, hu.addr, show ∀ x : BitVec 64, x ||| 0 = x from fun _ => BitVec.or_zero]
    exact h hpres
  ok_clone _ hf hmem _ := by
    rw [cloneEntry_addr hf]
    exact hmem
  leads h hpres _ := h hpres

variable {s s' : Mm} {L L' : Nat → Set Nat}

theorem levels_not_covers {i : Nat} (h : 256 ≤ i) : ¬ levels.Covers levels.root i := Nat.not_lt.mpr h

theorem TypedStep.kernel {t : BitVec 64} (h : TypedStep levels s s' L L') (ht : Aligned t)
    (hmem : pageOf t ∈ L 0) : ∀ i, 256 ≤ i → i < 512 → table_get s'.mem t i = table_get s.mem t i :=
  fun i hlo hhi => h.upper t ht hmem i hhi (levels_not_covers hlo)

theorem arch_map_page_level {c virt phys flags : BitVec 64} (hT : Typed levels s L)
    (hpgd : s.current_pgd = some c) (hc : Aligned c) (hmem : pageOf c ∈ L 0) (hv : UserHalf virt)
    (h : arch_map_page s virt phys flags = .ok s') : ∃ L', TypedStep levels s s' L L' := by
  have hu := userFlag_cases flags
  have hindex : ∀ d, indexOf virt d < width d := by
    intro d
    unfold width
    split_ifs with hd
    · subst hd
      exact hv
    · exact indexOf_lt virt d
  unfold arch_map_page at h
  rw [hpgd] at h
  simp only [bind_ok] at h
  obtain ⟨s1, h1, s2, h2, s3, h3, h⟩ := h
  cases h
  obtain ⟨L1, st1, p1⟩ :=
    ensure_table_typed (κ := 0) hT (by decide) hc hmem (hindex 0) hu trivial h1
  have m1 := st1.typed.entry 0 (by decide) c hc (st1.mono 0 hmem) _ (hindex 0) p1
  obtain ⟨L2, st2, p2⟩ := ensure_table_typed (κ := 1) st1.typed (by decide) (addr_aligned _) m1
    (hindex 1) hu trivial h2
  have m2 := st2.typed.entry 1 (by decide) _ (addr_aligned _) (st2.mono 1 m1) _ (hindex 1) p2
  obtain ⟨L3, st3, p3⟩ := ensure_table_typed (κ := 2) st2.typed (by decide) (addr_aligned _) m2
    (hindex 2) hu trivial h3
  have m3 := st3.typed.entry 2 (by decide) _ (addr_aligned _) (st3.mono 2 m2) _ (hindex 2) p3
  have st4 := typed_set (κ := 3) (e := pageEntry phys flags) st3.typed (addr_aligned _) m3 (hindex 3)
    fun hlt => absurd hlt (lt_irrefl 3)
  exact ⟨L3, st1.trans (st2.trans (st3.trans st4))⟩

end Relis.Paging
