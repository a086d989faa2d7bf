import Relis.Code.Vmalloc
import Relis.Paging.Spec

/-!
# `relis_nic/nic_hw.c`

The wait loop and the message are left out. A register is written by a store
through the tables of CR3.
-/

open Relis.Bytes Relis.Run

namespace Relis.Code

def PTE_PWT : BitVec 64 := 0x8

def MMIO_VIRT_BASE : BitVec 64 := 0xFFFFC90000000000

def E1000_CTRL : BitVec 32 := 0x0000
def E1000_IMS : BitVec 32 := 0x00D0

def writel (s : Mm) (addr : BitVec 64) (value : BitVec 32) : Except Halt Mm :=
  match Paging.translate s.mem (pte_addr s.cr3) addr with
  | none => .error .page_fault
  | some phys => .ok { s with mem := write32 s.mem phys.toNat value }

def nic_write_reg (s : Mm) (nic_mmio_base : BitVec 64) (offset value : BitVec 32) : Except Halt Mm :=
  writel s (nic_mmio_base + offset.setWidth 64) value

/-- The new `nic_mmio_base`, and the memory. -/
def nic_hw_init (s : Mm) (phys_bar0 : BitVec 64) : Except Halt (BitVec 64 × Mm) := do
  let s ← loop 0 3 (fun i s => arch_map_page s (MMIO_VIRT_BASE + BitVec.ofNat 64 i * 4096)
    (phys_bar0 + BitVec.ofNat 64 i * 4096) (PTE_WRITABLE ||| PTE_PCD ||| PTE_PWT)) s
  let nic_mmio_base := MMIO_VIRT_BASE
  let s ← nic_write_reg s nic_mmio_base E1000_CTRL (1 <<< 26)
  let s ← nic_write_reg s nic_mmio_base E1000_IMS 0
  return (nic_mmio_base, s)

end Relis.Code
