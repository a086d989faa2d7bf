import Relis.Code.Task

/-! # `handle_page_fault` of `mm/memory.c` -/

open Relis.Bytes

namespace Relis.Code

def PAGE_MASK : BitVec 64 := 0xFFFFFFFFFFFFF000

/-- The test for a page of the user stack that is not there yet. -/
def stack_fault (k : Kernel) (faulting_address error_code : BitVec 64) : Bool :=
  let current := k.task k.current_task
  error_code &&& 1 == 0 && current.stack_start ≤ faulting_address && faulting_address < current.stack_end

/-- The entry behind `walk_page_table` when it is present and copy-on-write. -/
def cow_entry (s : Mm) (faulting_address : BitVec 64) : Option (Nat × BitVec 64) := do
  let pte ← walk_page_table s faulting_address
  let e := read64 s.mem pte
  guard (has e PTE_PRESENT && has e PTE_COW)
  return (pte, e)

/-- `phys_to_virt` leads to a page: the boot tables map 1 GiB there. -/
def direct_mapped (phys : BitVec 64) : Bool := phys.toNat < 0x40000000

def handle_page_fault (k : Kernel) (faulting_address error_code : BitVec 64) : Except Halt Kernel :=
  if stack_fault k faulting_address error_code then do
    let (phys, mm) ← alloc_page k.mm
    let mm ← arch_map_page mm (faulting_address &&& PAGE_MASK) phys (PTE_WRITABLE ||| PTE_USER)
    return { k with mm := mm }
  else if error_code &&& 2 ≠ 0 then
    match cow_entry k.mm faulting_address with
    | none => .error .page_fault
    | some (pte, e) => do
      let (new_phys, mm) ← alloc_page k.mm
      -- The load from an old page that is not mapped is a fault of the handler itself.
      if !direct_mapped (pte_addr e) then .error .page_fault
      else
        let mem := kmemcpy mm.mem new_phys.toNat (pte_addr e).toNat PAGE_SIZE
        let mem := write64 mem pte (new_phys ||| PTE_WRITABLE ||| PTE_USER ||| PTE_PRESENT)
        return { k with mm := { mm with mem := mem } }
  else .error .page_fault

end Relis.Code
