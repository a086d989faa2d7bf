import Relis.Code.PageAlloc

/-!
# `include/asm/pgtable.h`, `arch/mm/init.c` and the unmapping of `mm/memory.c`

A table is named by the physical address of its frame. The translation cache is
left out: `invlpg` follows each write to a live entry.
-/

open Relis.Bytes Relis.Run

namespace Relis.Code

/-! ## `pgtable.h` -/

def PTE_PRESENT : BitVec 64 := 0x1
def PTE_WRITABLE : BitVec 64 := 0x2
def PTE_USER : BitVec 64 := 0x4
def PTE_PCD : BitVec 64 := 0x10
def PTE_HUGE : BitVec 64 := 0x80
def PTE_GLOBAL : BitVec 64 := 0x100
def PTE_COW : BitVec 64 := 0x200

def PTE_FLAGS_MASK : BitVec 64 := 0xFFF0000000000FFF
def PTE_ADDR_MASK : BitVec 64 := 0x000FFFFFFFFFF000

def pgd_index (va : BitVec 64) : Nat := ((va >>> 39) &&& 0x1FF).toNat
def pud_index (va : BitVec 64) : Nat := ((va >>> 30) &&& 0x1FF).toNat
def pmd_index (va : BitVec 64) : Nat := ((va >>> 21) &&& 0x1FF).toNat
def pte_index (va : BitVec 64) : Nat := ((va >>> 12) &&& 0x1FF).toNat

/-- The C test `e & flag`. -/
def has (e flag : BitVec 64) : Bool := e &&& flag != 0

/-- `e & PTE_ADDR_MASK` -/
def pte_addr (e : BitVec 64) : BitVec 64 := e &&& PTE_ADDR_MASK

/-- `e & PTE_FLAGS_MASK` -/
def pte_flags (e : BitVec 64) : BitVec 64 := e &&& PTE_FLAGS_MASK

/-- `table[i]` -/
def table_get (m : Mem) (table : BitVec 64) (i : Nat) : BitVec 64 := read64 m (table.toNat + 8 * i)

/-- `table[i] = e` -/
def table_set (s : Mm) (table : BitVec 64) (i : Nat) (e : BitVec 64) : Mm :=
  { s with mem := write64 s.mem (table.toNat + 8 * i) e }

/-! ## The current address space -/

def switch_address_space (s : Mm) (cr3 : BitVec 64) : Mm :=
  { s with cr3 := cr3, current_pgd := some (pte_addr cr3) }

-- The block that `arch_map_page` repeats at its first three levels.
def ensure_table (s : Mm) (table : BitVec 64) (i : Nat) (user_flag : BitVec 64) :
    Except Halt Mm := do
  if !has (table_get s.mem table i) PTE_PRESENT then
    let (new_table, s) ← alloc_page s
    return table_set s table i
      (pte_addr new_table ||| PTE_PRESENT ||| PTE_WRITABLE ||| user_flag)
  else
    return table_set s table i (table_get s.mem table i ||| user_flag)

def arch_map_page (s : Mm) (virt phys flags : BitVec 64) : Except Halt Mm :=
  match s.current_pgd with
  | none => return s
  | some pgd => do
    let user_flag := if has flags PTE_USER then PTE_USER else 0
    let s ← ensure_table s pgd (pgd_index virt) user_flag
    let pud := pte_addr (table_get s.mem pgd (pgd_index virt))
    let s ← ensure_table s pud (pud_index virt) user_flag
    let pmd := pte_addr (table_get s.mem pud (pud_index virt))
    let s ← ensure_table s pmd (pmd_index virt) user_flag
    let pte := pte_addr (table_get s.mem pmd (pmd_index virt))
    return table_set s pte (pte_index virt) (pte_addr phys ||| flags ||| PTE_PRESENT)

/-- The address of the last-level entry of `virt`, or null. -/
def walk_page_table (s : Mm) (virt : BitVec 64) : Option Nat := do
  let pgd ← s.current_pgd
  let e := table_get s.mem pgd (pgd_index virt)
  guard (has e PTE_PRESENT)
  let pud := pte_addr e
  let e := table_get s.mem pud (pud_index virt)
  guard (has e PTE_PRESENT)
  let pmd := pte_addr e
  let e := table_get s.mem pmd (pmd_index virt)
  guard (has e PTE_PRESENT)
  let pte := pte_addr e
  return pte.toNat + 8 * pte_index virt

/-- `paging_unmap_page` of `mm/memory.c`. -/
def paging_unmap_page (s : Mm) (virt : BitVec 64) : Mm :=
  match walk_page_table s virt with
  | none => s
  | some pte =>
    if has (read64 s.mem pte) PTE_PRESENT then { s with mem := write64 s.mem pte 0 } else s

/-! ## New address spaces -/

-- The loop that both functions below start with.
def copy_kernel_half (old_pml4 new_pml4 : BitVec 64) (s : Mm) : Except Halt Mm :=
  loop 256 256 (fun i s => .ok (table_set s new_pml4 i (table_get s.mem old_pml4 i))) s

def create_new_address_space (s : Mm) : Except Halt (BitVec 64 × Mm) := do
  let (new_pml4, s) ← alloc_page s
  let old_pml4 := pte_addr s.cr3
  let s ← copy_kernel_half old_pml4 new_pml4 s
  return (new_pml4, s)

/-- One present entry of an upper level: a new table, the entry for it, then the
entries below. -/
def clone_entry (inner : BitVec 64 → BitVec 64 → Mm → Except Halt Mm)
    (old new : BitVec 64) (i : Nat) (s : Mm) : Except Halt Mm := do
  let old_sub := pte_addr (table_get s.mem old i)
  let (new_sub, s) ← alloc_page s
  let s := table_set s new i (new_sub ||| pte_flags (table_get s.mem old i))
  inner old_sub new_sub s

/-- The body of the loop over `l`. -/
def clone_pt_entry (old_pt new_pt : BitVec 64) (l : Nat) (s : Mm) : Except Halt Mm :=
  if !has (table_get s.mem old_pt l) PTE_PRESENT then .ok s
  else do
    let old_page_phys := pte_addr (table_get s.mem old_pt l)
    let (new_page_phys, s) ← alloc_page s
    let s := { s with mem := kmemcpy s.mem new_page_phys.toNat old_page_phys.toNat PAGE_SIZE }
    return table_set s new_pt l (new_page_phys ||| pte_flags (table_get s.mem old_pt l))

def clone_pt (old_pt new_pt : BitVec 64) (s : Mm) : Except Halt Mm :=
  loop 0 512 (clone_pt_entry old_pt new_pt) s

/-- The body of the loop over `k`, the only one that looks at `PTE_HUGE`. -/
def clone_pd_entry (old_pd new_pd : BitVec 64) (k : Nat) (s : Mm) : Except Halt Mm :=
  if !has (table_get s.mem old_pd k) PTE_PRESENT then .ok s
  else if has (table_get s.mem old_pd k) PTE_HUGE then
    .ok (table_set s new_pd k (table_get s.mem old_pd k))
  else clone_entry clone_pt old_pd new_pd k s

def clone_pd (old_pd new_pd : BitVec 64) (s : Mm) : Except Halt Mm :=
  loop 0 512 (clone_pd_entry old_pd new_pd) s

/-- The body of the loop over `j`. -/
def clone_pdpt_entry (old_pdpt new_pdpt : BitVec 64) (j : Nat) (s : Mm) : Except Halt Mm :=
  if !has (table_get s.mem old_pdpt j) PTE_PRESENT then .ok s
  else clone_entry clone_pd old_pdpt new_pdpt j s

def clone_pdpt (old_pdpt new_pdpt : BitVec 64) (s : Mm) : Except Halt Mm :=
  loop 0 512 (clone_pdpt_entry old_pdpt new_pdpt) s

/-- The body of the loop over `i`. -/
def clone_pml4_entry (old_pml4 new_pml4 : BitVec 64) (i : Nat) (s : Mm) : Except Halt Mm :=
  if !has (table_get s.mem old_pml4 i) PTE_PRESENT then .ok s
  else clone_entry clone_pdpt old_pml4 new_pml4 i s

/-- The user half of the top level. -/
def clone_pml4 (old_pml4 new_pml4 : BitVec 64) (s : Mm) : Except Halt Mm :=
  loop 0 256 (clone_pml4_entry old_pml4 new_pml4) s

def clone_address_space (s : Mm) : Except Halt (BitVec 64 × Mm) := do
  let (new_pml4, s) ← alloc_page s
  let old_pml4 := pte_addr s.cr3
  let s ← copy_kernel_half old_pml4 new_pml4 s
  let s ← clone_pml4 old_pml4 new_pml4 s
  return (new_pml4, s)

end Relis.Code
