import Relis.Code.Paging

/-!
# The tables of `arch/entry.asm`, and `arch_paging_init`

The seven tables lie one behind the other in `.boot.bss`, which is zero. The boot
code stores 32 bits of an entry, and the upper half of each entry is zero.
-/

open Relis.Bytes Relis.Run

namespace Relis.Code

/-! ## `entry.asm` -/

/-- The table that lies `n` pages behind `p4_table`. -/
def boot_table (p4_table : BitVec 64) (n : Nat) : BitVec 64 := p4_table + BitVec.ofNat 64 (4096 * n)

def p3_table (p4_table : BitVec 64) : BitVec 64 := boot_table p4_table 1
def p2_table (p4_table : BitVec 64) : BitVec 64 := boot_table p4_table 2
def p3_table_high (p4_table : BitVec 64) : BitVec 64 := boot_table p4_table 3
def p2_table_high (p4_table : BitVec 64) : BitVec 64 := boot_table p4_table 4
def p3_table_direct (p4_table : BitVec 64) : BitVec 64 := boot_table p4_table 5
def p2_table_direct (p4_table : BitVec 64) : BitVec 64 := boot_table p4_table 6

/-- `mov [table + i * 8], e` -/
def store_entry (table : BitVec 64) (i : Nat) (e : BitVec 64) (m : Mem) : Mem :=
  write64 m (table.toNat + 8 * i) e

/-- The loops `.map_p2_low`, `.map_p2_high` and `.map_p2_direct`, which put 2 MiB
pages into the first `n` entries of a table. -/
def map_p2 (table : BitVec 64) (n : Nat) (m : Mem) : Mem :=
  (List.range n).foldl
    (fun m ecx => store_entry table ecx (BitVec.ofNat 64 (0x200000 * ecx) ||| 0x83) m) m

/-- The memory when `_start` loads CR3. -/
def start_tables (p4_table : BitVec 64) (m : Mem) : Mem :=
  let m := store_entry p4_table 0 (p3_table p4_table ||| 3) m
  let m := store_entry (p3_table p4_table) 0 (p2_table p4_table ||| 3) m
  let m := store_entry p4_table 511 (p3_table_high p4_table ||| 3) m
  let m := store_entry (p3_table_high p4_table) 510 (p2_table_high p4_table ||| 3) m
  let m := store_entry p4_table 256 (p3_table_direct p4_table ||| 3) m
  let m := store_entry (p3_table_direct p4_table) 0 (p2_table_direct p4_table ||| 3) m
  let m := map_p2 (p2_table p4_table) 1 m
  let m := map_p2 (p2_table_high p4_table) 512 m
  map_p2 (p2_table_direct p4_table) 512 m

/-- `pmm_init(262144, 0)` on what `_start` has left. -/
def start_mm (p4_table : BitVec 64) (m : Mem) (kernel_end : BitVec 64) : Mm :=
  pmm_init ⟨Pmm.zero, start_tables p4_table m, p4_table, none⟩ 262144 kernel_end

/-! ## `include/asm/apic.h` and `arch_paging_init` -/

def LAPIC_BASE_PHYS : BitVec 64 := 0xFEE00000
def IOAPIC_BASE_PHYS : BitVec 64 := 0xFEC00000
def LAPIC_VADDR : BitVec 64 := 0xFFFFC90000000000
def IOAPIC_VADDR : BitVec 64 := 0xFFFFC90000001000

def arch_paging_init (s : Mm) : Except Halt Mm := do
  let s := { s with current_pgd := some (pte_addr s.cr3) }
  let s ← arch_map_page s LAPIC_VADDR LAPIC_BASE_PHYS (PTE_WRITABLE ||| PTE_PCD ||| PTE_GLOBAL)
  arch_map_page s IOAPIC_VADDR IOAPIC_BASE_PHYS (PTE_WRITABLE ||| PTE_PCD ||| PTE_GLOBAL)

end Relis.Code
