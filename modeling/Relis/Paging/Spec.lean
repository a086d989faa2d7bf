import Relis.Paging.Entry
import Relis.Lib.Radix

/-!
# What an address space is

A tree of tables below a root, and two halves of paths. The huge bit ends a path
at the two middle levels, as it does in the hardware.
-/

open Relis.Bytes Relis.Run Relis.Code Relis.PageAlloc

namespace Relis.Paging

variable {p : List Nat} {d : Nat} {e : BitVec 64}

def child (d : Nat) (e : BitVec 64) : Option (BitVec 64) :=
  if has e PTE_PRESENT && !((d == 1 || d == 2) && has e PTE_HUGE) then some (pte_addr e) else none

def node (m : Mem) (r : BitVec 64) (p : List Nat) : Option (BitVec 64) :=
  Radix.node child (table_get m) 0 r p

def slot (m : Mem) (r : BitVec 64) (p : List Nat) (i : Nat) : BitVec 64 :=
  Radix.slot child (table_get m) 0 0 r p i

/-! ## Paths -/

def UserPath : List Nat → Prop
  | [] => True
  | i :: p => i < 256 ∧ ∀ j ∈ p, j < 512

def KernelPath : List Nat → Prop
  | [] => True
  | i :: p => 256 ≤ i ∧ i < 512 ∧ ∀ j ∈ p, j < 512

theorem UserPath.of_prefix (p q : List Nat) (h : p <+: q) (hq : UserPath q) : UserPath p := by
  obtain ⟨x, rfl⟩ := h
  cases p with
  | nil => trivial
  | cons i p =>
    obtain ⟨hi, hall⟩ := hq
    exact ⟨hi, fun j hj => hall j (List.mem_append_left _ hj)⟩

theorem UserPath.init {i : Nat} (h : UserPath (p ++ [i])) : UserPath p :=
  UserPath.of_prefix _ _ (List.prefix_append p [i]) h

theorem UserPath.last_lt {i : Nat} (h : UserPath (p ++ [i])) : i < 512 := by
  cases p with
  | nil =>
    have := h.1
    omega
  | cons j p => exact h.2 i (by simp)

theorem KernelPath.lt (h : KernelPath p) : ∀ j ∈ p, j < 512 := by
  cases p with
  | nil => simp
  | cons i p => simpa using h.2

/-! ## Virtual addresses -/

def indexOf (v : BitVec 64) : Nat → Nat
  | 0 => pgd_index v
  | 1 => pud_index v
  | 2 => pmd_index v
  | _ => pte_index v

def pathOf (v : BitVec 64) (n : Nat) : List Nat := (List.range n).map (indexOf v)

def UserHalf (v : BitVec 64) : Prop := pgd_index v < 256
def KernelHalf (v : BitVec 64) : Prop := 256 ≤ pgd_index v

/-- The addresses that the hardware accepts. -/
def Canonical (v : BitVec 64) : Prop := v.toNat < 2 ^ 47 ∨ 2 ^ 64 - 2 ^ 47 ≤ v.toNat

instance : DecidablePred UserHalf := fun v => inferInstanceAs (Decidable (pgd_index v < 256))

instance : DecidablePred Canonical :=
  fun v => inferInstanceAs (Decidable (v.toNat < 2 ^ 47 ∨ 2 ^ 64 - 2 ^ 47 ≤ v.toNat))

theorem pathOf_zero (v : BitVec 64) : pathOf v 0 = [] := rfl

theorem pathOf_succ (v : BitVec 64) (n : Nat) : pathOf v (n + 1) = pathOf v n ++ [indexOf v n] := by
  simp [pathOf, List.range_succ]

@[simp] theorem pathOf_length (v : BitVec 64) (n : Nat) : (pathOf v n).length = n := by
  simp [pathOf]

theorem toNat_index (v : BitVec 64) (k n : Nat) (m : BitVec 64) (hm : m.toNat = 2 ^ n - 1) :
    ((v >>> k) &&& m).toNat = v.toNat / 2 ^ k % 2 ^ n := by
  rw [BitVec.toNat_and, hm, BitVec.toNat_ushiftRight, Nat.and_two_pow_sub_one_eq_mod,
    Nat.shiftRight_eq_div_pow]

theorem index_lt (x : BitVec 64) : (x &&& 0x1FF).toNat < 512 := by
  rw [BitVec.toNat_and]
  exact Nat.lt_of_le_of_lt Nat.and_le_right (by decide)

theorem indexOf_lt (v : BitVec 64) (d : Nat) : indexOf v d < 512 := by
  unfold indexOf
  split <;> exact index_lt _

theorem pathOf_user {v : BitVec 64} (h : UserHalf v) (n : Nat) : UserPath (pathOf v n) := by
  cases n with
  | zero => trivial
  | succ n =>
    rw [pathOf, List.range_succ_eq_map, List.map_cons]
    refine ⟨h, ?_⟩
    intro j hj
    simp only [List.map_map, List.mem_map] at hj
    obtain ⟨d, -, rfl⟩ := hj
    exact indexOf_lt v (d + 1)

theorem pathOf_kernel {v : BitVec 64} (h : KernelHalf v) (n : Nat) : KernelPath (pathOf v n) := by
  cases n with
  | zero => trivial
  | succ n =>
    rw [pathOf, List.range_succ_eq_map, List.map_cons]
    refine ⟨h, indexOf_lt v 0, ?_⟩
    intro j hj
    simp only [List.map_map, List.mem_map] at hj
    obtain ⟨d, -, rfl⟩ := hj
    exact indexOf_lt v (d + 1)

/-- What the hardware makes of `v`: the walk stops at a huge entry. -/
def translate (m : Mem) (root v : BitVec 64) : Option (BitVec 64) :=
  let e4 := table_get m root (pgd_index v)
  if !has e4 PTE_PRESENT then none else
  let e3 := table_get m (pte_addr e4) (pud_index v)
  if !has e3 PTE_PRESENT then none else
  if has e3 PTE_HUGE then some ((e3 &&& 0xFFFFFC0000000) ||| (v &&& 0x3FFFFFFF)) else
  let e2 := table_get m (pte_addr e3) (pmd_index v)
  if !has e2 PTE_PRESENT then none else
  if has e2 PTE_HUGE then some ((e2 &&& 0xFFFFFFFE00000) ||| (v &&& 0x1FFFFF)) else
  let e1 := table_get m (pte_addr e2) (pte_index v)
  if !has e1 PTE_PRESENT then none else some (pte_addr e1 ||| (v &&& 0xFFF))

/-- The page is there, and all entries down to it have the bits for the access. -/
def Permits (m : Mem) (r v : BitVec 64) (user write : Bool) : Prop :=
  translate m r v ≠ none ∧
  ∀ n ≤ 3, has (slot m r (pathOf v n) (indexOf v n)) PTE_PRESENT = true →
    (user = true → has (slot m r (pathOf v n) (indexOf v n)) PTE_USER = true) ∧
    (write = true → has (slot m r (pathOf v n) (indexOf v n)) PTE_WRITABLE = true)

instance (m : Mem) (r v : BitVec 64) (user write : Bool) : Decidable (Permits m r v user write) :=
  inferInstanceAs (Decidable (translate m r v ≠ none ∧
    ∀ n ≤ 3, has (slot m r (pathOf v n) (indexOf v n)) PTE_PRESENT = true →
      (user = true → has (slot m r (pathOf v n) (indexOf v n)) PTE_USER = true) ∧
      (write = true → has (slot m r (pathOf v n) (indexOf v n)) PTE_WRITABLE = true)))

/-- Ring 3 may use `v`: the entry of every level has the present and the user bit. -/
def UserAccessible (m : Mem) (root v : BitVec 64) : Prop :=
  ∀ n < 4, has (slot m root (pathOf v n) (indexOf v n)) PTE_PRESENT = true ∧
    has (slot m root (pathOf v n) (indexOf v n)) PTE_USER = true

/-! ## Children -/

theorem child_of_absent (h : has e PTE_PRESENT = false) : child d e = none := by
  simp [child, h]

theorem child_of_small (h : has e PTE_PRESENT = true)
    (hs : d = 1 ∨ d = 2 → has e PTE_HUGE = false) : child d e = some (pte_addr e) := by
  unfold child
  rw [if_pos]
  by_cases hd : d = 1 ∨ d = 2
  · simp [h, hs hd]
  · rw [not_or] at hd
    simp [h, hd.1, hd.2]

theorem child_eq_some {t : BitVec 64} (h : child d e = some t) :
    t = pte_addr e ∧ has e PTE_PRESENT = true := by
  unfold child at h
  split_ifs at h with hc
  rw [Option.some.injEq] at h
  simp only [Bool.and_eq_true] at hc
  exact ⟨h.symm, hc.1⟩

theorem child_congr {e' : BitVec 64} (hp : has e' PTE_PRESENT = has e PTE_PRESENT)
    (hh : has e' PTE_HUGE = has e PTE_HUGE) (ha : pte_addr e' = pte_addr e) :
    child d e' = child d e := by
  unfold child
  rw [hp, hh, ha]

theorem node_nil (m : Mem) (r : BitVec 64) : node m r [] = some r := rfl

theorem node_snoc (m : Mem) (r : BitVec 64) (p : List Nat) (i : Nat) :
    node m r (p ++ [i]) = (node m r p).bind fun t => child p.length (table_get m t i) := by
  unfold node
  rw [Radix.node_snoc, Nat.zero_add]

theorem node_aligned {m : Mem} {r t : BitVec 64} (hr : Aligned r)
    (h : node m r p = some t) : Aligned t := by
  induction p using List.reverseRecOn with
  | nil =>
    rw [node_nil, Option.some.injEq] at h
    rwa [← h]
  | append_singleton p i ih =>
    rw [node_snoc, Option.bind_eq_some_iff] at h
    obtain ⟨t', -, h⟩ := h
    rw [(child_eq_some h).1]
    exact addr_aligned _

theorem slot_of_node {m : Mem} {r t : BitVec 64} (h : node m r p = some t) (i : Nat) :
    slot m r p i = table_get m t i := Radix.slot_of_node h i

theorem slot_of_none {m : Mem} {r : BitVec 64} (h : node m r p = none) (i : Nat) :
    slot m r p i = 0 := by
  unfold slot Radix.slot
  unfold node at h
  rw [h]

end Relis.Paging
