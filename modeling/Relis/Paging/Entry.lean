import Relis.Code.Paging
import Relis.PageAlloc
import Mathlib.Tactic.IntervalCases

/-!
# Page table entries

An entry is an address and flags, in bits that do not overlap.
-/

open Relis.Bytes Relis.Run Relis.Code Relis.PageAlloc

namespace Relis.Paging

variable {t u : BitVec 64} {i : Nat}

/-! ## Flags -/

theorem has_or (a b f : BitVec 64) : has (a ||| b) f = (has a f || has b f) := by
  unfold has
  rw [BitVec.and_or_distrib_right]
  apply Bool.eq_iff_iff.mpr
  simp only [bne_iff_ne, ne_eq, BitVec.ofNat_eq_ofNat, BitVec.or_eq_zero_iff, Bool.or_eq_true]
  tauto

theorem has_and (a m f : BitVec 64) : has (a &&& m) f = has a (m &&& f) := by
  unfold has
  rw [BitVec.and_assoc]

theorem has_zero (a : BitVec 64) : has a 0 = false := by
  simp [has]

theorem zero_has (f : BitVec 64) : has 0 f = false := by
  simp [has]

theorem addr_has (e f : BitVec 64) (h : PTE_ADDR_MASK &&& f = 0) : has (pte_addr e) f = false := by
  rw [pte_addr, has_and, h, has_zero]

theorem flags_has (e f : BitVec 64) (h : PTE_FLAGS_MASK &&& f = f) :
    has (pte_flags e) f = has e f := by
  rw [pte_flags, has_and, h]

/-! ## Addresses -/

theorem addr_or (a b : BitVec 64) : pte_addr (a ||| b) = pte_addr a ||| pte_addr b := by
  unfold pte_addr
  rw [BitVec.and_or_distrib_right]

theorem flags_or (a b : BitVec 64) : pte_flags (a ||| b) = pte_flags a ||| pte_flags b := by
  unfold pte_flags
  rw [BitVec.and_or_distrib_right]

@[simp] theorem addr_addr (e : BitVec 64) : pte_addr (pte_addr e) = pte_addr e := by
  unfold pte_addr
  rw [BitVec.and_assoc, BitVec.and_self]

@[simp] theorem flags_flags (e : BitVec 64) : pte_flags (pte_flags e) = pte_flags e := by
  unfold pte_flags
  rw [BitVec.and_assoc, BitVec.and_self]

@[simp] theorem addr_flags (e : BitVec 64) : pte_addr (pte_flags e) = 0 := by
  unfold pte_addr pte_flags
  rw [BitVec.and_assoc, show PTE_FLAGS_MASK &&& PTE_ADDR_MASK = 0 by decide]
  simp

@[simp] theorem flags_addr (e : BitVec 64) : pte_flags (pte_addr e) = 0 := by
  unfold pte_addr pte_flags
  rw [BitVec.and_assoc, show PTE_ADDR_MASK &&& PTE_FLAGS_MASK = 0 by decide]
  simp

theorem addr_or_flags (e : BitVec 64) : pte_addr e ||| pte_flags e = e := by
  unfold pte_addr pte_flags
  rw [← BitVec.and_or_distrib_left, show PTE_ADDR_MASK ||| PTE_FLAGS_MASK = BitVec.allOnes 64 by decide,
    BitVec.and_allOnes]

def Aligned (t : BitVec 64) : Prop := t.toNat % 4096 = 0

theorem addr_aligned (e : BitVec 64) : Aligned (pte_addr e) := by
  unfold Aligned pte_addr
  rw [BitVec.toNat_and, show 4096 = 2 ^ 12 by decide, Nat.and_mod_two_pow,
    show PTE_ADDR_MASK.toNat % 2 ^ 12 = 0 by decide, Nat.and_zero]

theorem addr_of_page (ht : t.toNat = 4096 * i) (hi : i < 65536) : pte_addr t = t := by
  have hmask : PTE_ADDR_MASK.toNat = (2 ^ 40 - 1) <<< 12 := by decide
  have hshift : t.toNat = i <<< 12 := by rw [ht, Nat.shiftLeft_eq]; omega
  apply BitVec.eq_of_toNat_eq
  rw [pte_addr, BitVec.toNat_and, hshift, hmask, ← Nat.shiftLeft_and_distrib,
    Nat.and_two_pow_sub_one_eq_mod, Nat.mod_eq_of_lt (by omega)]

theorem addr_of_flags {f : BitVec 64} (h : pte_flags f = f) : pte_addr f = 0 := by
  rw [← h, addr_flags]

/-! ## The entries that the code builds -/

def UserFlag (u : BitVec 64) : Prop := u = PTE_USER ∨ u = 0

theorem UserFlag.addr (h : UserFlag u) : pte_addr u = 0 := by
  rcases h with rfl | rfl <;> decide

theorem UserFlag.has (h : UserFlag u) {f : BitVec 64} (hf : PTE_USER &&& f = 0) :
    has u f = false := by
  rcases h with rfl | rfl
  · simp [Code.has, hf]
  · exact zero_has f

def tableEntry (t u : BitVec 64) : BitVec 64 := pte_addr t ||| PTE_PRESENT ||| PTE_WRITABLE ||| u

theorem tableEntry_addr (t : BitVec 64) (hu : UserFlag u) :
    pte_addr (tableEntry t u) = pte_addr t := by
  rw [tableEntry, addr_or, addr_or, addr_or, hu.addr, addr_addr,
    show pte_addr PTE_PRESENT = 0 by decide, show pte_addr PTE_WRITABLE = 0 by decide]
  simp

theorem tableEntry_present (t u : BitVec 64) : has (tableEntry t u) PTE_PRESENT = true := by
  simp [tableEntry, has_or, show has PTE_PRESENT PTE_PRESENT = true by decide]

theorem tableEntry_huge (t : BitVec 64) (hu : UserFlag u) :
    has (tableEntry t u) PTE_HUGE = false := by
  rw [tableEntry, has_or, has_or, has_or, addr_has _ _ (by decide), hu.has (by decide)]
  decide

theorem tableEntry_user (t : BitVec 64) : has (tableEntry t PTE_USER) PTE_USER = true := by
  simp [tableEntry, has_or, show has PTE_USER PTE_USER = true by decide]

def pageEntry (phys flags : BitVec 64) : BitVec 64 := pte_addr phys ||| flags ||| PTE_PRESENT

theorem pageEntry_present (phys flags : BitVec 64) :
    has (pageEntry phys flags) PTE_PRESENT = true := by
  simp [pageEntry, has_or, show has PTE_PRESENT PTE_PRESENT = true by decide]

theorem pageEntry_user (phys flags : BitVec 64) :
    has (pageEntry phys flags) PTE_USER = has flags PTE_USER := by
  rw [pageEntry, has_or, has_or, addr_has _ _ (by decide),
    show has PTE_PRESENT PTE_USER = false by decide, Bool.false_or, Bool.or_false]

theorem pageEntry_addr (phys : BitVec 64) {flags : BitVec 64} (h : pte_flags flags = flags) :
    pte_addr (pageEntry phys flags) = pte_addr phys := by
  rw [pageEntry, addr_or, addr_or, addr_of_flags h, addr_addr,
    show pte_addr PTE_PRESENT = 0 by decide]
  simp

def cloneEntry (t e : BitVec 64) : BitVec 64 := t ||| pte_flags e

theorem cloneEntry_addr (h : pte_addr t = t) (e : BitVec 64) : pte_addr (cloneEntry t e) = t := by
  rw [cloneEntry, addr_or, addr_flags, h]
  simp

theorem cloneEntry_flags (h : pte_addr t = t) (e : BitVec 64) :
    pte_flags (cloneEntry t e) = pte_flags e := by
  rw [cloneEntry, flags_or, flags_flags, ← h, flags_addr]
  simp

theorem has_of_flags {a b f : BitVec 64} (h : pte_flags a = pte_flags b)
    (hf : PTE_FLAGS_MASK &&& f = f) : has a f = has b f := by
  rw [← flags_has a f hf, ← flags_has b f hf, h]

/-! ## Reading and writing tables -/

theorem table_get_set (s : Mm) {t' : BitVec 64} {j : Nat} (e : BitVec 64) (ht : Aligned t)
    (ht' : Aligned t') (hi : i < 512) (hj : j < 512) :
    table_get (table_set s t i e).mem t' j =
      if t' = t ∧ j = i then e else table_get s.mem t' j := by
  unfold table_get table_set
  unfold Aligned at ht ht'
  split_ifs with h
  · obtain ⟨rfl, rfl⟩ := h
    exact read64_write64_self _ _ _
  · apply read64_write64_ne
    by_cases heq : t'.toNat = t.toNat
    · have hji : j ≠ i := fun hji => h ⟨BitVec.eq_of_toNat_eq heq, hji⟩
      omega
    · omega

def pageOf (t : BitVec 64) : Nat := t.toNat / 4096

theorem pageOf_inj {t' : BitVec 64} (ht : Aligned t) (ht' : Aligned t') (h : pageOf t = pageOf t') :
    t = t' := by
  unfold Aligned at ht ht'
  unfold pageOf at h
  apply BitVec.eq_of_toNat_eq
  omega

def SamePage (m m' : Mem) (k : Nat) : Prop := ∀ x, x / 4096 = k → m' x = m x

theorem SamePage.trans {m m1 m' : Mem} {k : Nat} (h1 : SamePage m m1 k) (h2 : SamePage m1 m' k) :
    SamePage m m' k :=
  fun x hx => (h2 x hx).trans (h1 x hx)

theorem SamePage.table_get {m m' : Mem} (h : SamePage m m' (pageOf t))
    (ht : Aligned t) (hi : i < 512) : table_get m' t i = table_get m t i := by
  unfold Code.table_get
  unfold Aligned at ht
  apply read64_congr
  intro x h1 h2
  apply h
  unfold pageOf
  omega

theorem samePage_table_set (s : Mm) {k : Nat} (e : BitVec 64) (ht : Aligned t)
    (hi : i < 512) (hk : k ≠ pageOf t) : SamePage s.mem (table_set s t i e).mem k := by
  unfold Aligned at ht
  unfold pageOf at hk
  intro x hx
  apply write64_apply_of_lt
  omega

end Relis.Paging
