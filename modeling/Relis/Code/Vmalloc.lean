import Relis.Code.List
import Relis.Code.Paging
import Relis.Code.Slab

/-!
# `mm/vmalloc.c`

A `vm_struct` is named by its offset in the heap. `kfree` does nothing.
-/

open Relis.Bytes Relis.Run

namespace Relis.Code

def VMALLOC_START : BitVec 64 := 0xFFFFC90000000000
def VMALLOC_END : BitVec 64 := 0xFFFFC90040000000

/-- The nodes of the list: its head, and the one inside of the `vm_struct` at `p`. -/
inductive VmNode
  | vm_struct_list
  | list (p : Nat)
  deriving DecidableEq, Repr

structure VmLinks where
  next : Option VmNode
  prev : Option VmNode

structure VmStruct where
  addr : BitVec 64
  size : BitVec 64
  list : VmLinks

def sizeof_vm_struct : BitVec 64 := 32

structure Vm where
  mm : Mm
  heap_ptr : BitVec 32
  vmalloc_ptr : BitVec 64
  vm_struct_list : VmLinks
  vm : Nat → VmStruct

def Vm.start (mm : Mm) (heap_ptr : BitVec 32) : Vm where
  mm := mm
  heap_ptr := heap_ptr
  vmalloc_ptr := VMALLOC_START
  vm_struct_list := ⟨some .vm_struct_list, some .vm_struct_list⟩
  vm := fun _ => ⟨0, 0, ⟨none, none⟩⟩

namespace Vm

def links_at (k : Vm) : VmNode → VmLinks
  | .vm_struct_list => k.vm_struct_list
  | .list p => (k.vm p).list

def set_links (k : Vm) (n : VmNode) (l : VmLinks) : Vm :=
  match n with
  | .vm_struct_list => { k with vm_struct_list := l }
  | .list p => { k with vm := Function.update k.vm p { k.vm p with list := l } }

instance : ListHeap Vm VmNode where
  next k n := (k.links_at n).next
  prev k n := (k.links_at n).prev
  set_next k n v := k.set_links n { k.links_at n with next := v }
  set_prev k n v := k.set_links n { k.links_at n with prev := v }

end Vm

/-- `(size + PAGE_SIZE - 1) / PAGE_SIZE` as a `uint32_t` -/
def pages_needed (size : BitVec 64) : Nat := u32 ((size + 4095) / 4096).toNat

def vmalloc_page (k : Vm) : Except Halt Vm := do
  let (phys, mm) ← alloc_page k.mm
  let mm ← arch_map_page mm k.vmalloc_ptr phys PTE_WRITABLE
  return { k with mm := mm, vmalloc_ptr := k.vmalloc_ptr + 4096 }

def vmalloc (k : Vm) (size : BitVec 64) : Except Halt (BitVec 64 × Vm) := do
  if size = 0 then return (0, k)
  let virt_start := k.vmalloc_ptr
  let k ← loop 0 (pages_needed size) (fun _ k => vmalloc_page k) k
  match kmalloc k.heap_ptr sizeof_vm_struct with
  | (none, _) => return (virt_start, k)
  | (some vm, heap_ptr) =>
    let area := { k.vm vm with addr := virt_start, size := BitVec.ofNat 64 (pages_needed size) * 4096 }
    let k := { k with heap_ptr := heap_ptr, vm := Function.update k.vm vm area }
    let k ← list_add k (.list vm) .vm_struct_list
    return (virt_start, k)

def vfree_page (s : Mm) (virt : BitVec 64) : Mm :=
  match walk_page_table s virt with
  | none => s
  | some pte =>
    let e := read64 s.mem pte
    if has e PTE_PRESENT then
      let s := free_page s (pte_addr e)
      { s with mem := write64 s.mem pte 0 }
    else s

def vfree_pages (s : Mm) (ptr : BitVec 64) (pages : Nat) : Mm :=
  (List.range pages).foldl (fun s i => vfree_page s (ptr + BitVec.ofNat 64 i * 4096)) s

/-- `list_entry(n, struct vm_struct, list)` -/
def vm_entry : VmNode → Except Halt Nat
  | .list p => .ok p
  | .vm_struct_list => .error .bad_link

/-- The first entry of the list whose `addr` is `ptr`. Each takes more than one byte of
the heap, so the fuel is enough for the list. -/
def find_vm (k : Vm) (ptr : BitVec 64) : Except Halt (Option Nat) :=
  list_for_each (k.heap_ptr.toNat + 1) k .vm_struct_list fun pos => do
    let entry ← vm_entry pos
    return if (k.vm entry).addr = ptr then some entry else none

def vfree (k : Vm) (ptr : BitVec 64) : Except Halt Vm := do
  if ptr = 0 then return k
  match ← find_vm k ptr with
  | none => return k
  | some entry =>
    let pages := u32 ((k.vm entry).size / 4096).toNat
    list_del { k with mm := vfree_pages k.mm ptr pages } (.list entry)

end Relis.Code
