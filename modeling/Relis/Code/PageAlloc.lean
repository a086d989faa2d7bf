import Relis.Code.String
import Relis.Lib.Run

/-!
# `mm/page_alloc.c` and the state of the memory code

`uint32_t` counters are natural numbers with the wrap written out. `uint64_t`
values are `BitVec 64`. The statics of a C file are fields of their own, apart
from the bytes of the page frames. `Relis.Code.Image` has the same functions with
the statics in the frames.
-/

open Relis.Bytes

namespace Relis.Code

/-- Why the machine does not go on. -/
inductive Halt
  /-- The `cli; hlt` loop at the end of `alloc_page`. -/
  | out_of_pages
  /-- A list operation follows a link that is null or no node of the right kind. -/
  | bad_link
  /-- A walk over a list does not come back to its head. -/
  | endless
  /-- A store into an object that `kmalloc` did not give. -/
  | null_object
  /-- A load from an inode that is null. -/
  | null_inode
  /-- A call on a pointer that is no `task_struct`. -/
  | no_task
  /-- The `cli; hlt` loop at the end of `handle_page_fault`. -/
  | page_fault
  /-- A call that is meant for an address space other than the current one. -/
  | no_space
  /-- A copy leaves the object that it is made in. -/
  | overrun
  deriving DecidableEq, Repr

def PAGE_SIZE : Nat := 4096
def MAX_PHYS_PAGES : Nat := 65536
def BITS_PER_WORD : Nat := 64

/-- The statics. `pmm_pages_total` is 0 until `pmm_init` sets it, and `pmm_init`
cuts it at the size of the bitmap. -/
structure Pmm where
  pmm_bitmap : Nat → BitVec 64
  pmm_pages_total : Nat
  pmm_pages_free : Nat
  next_free_page : Nat
  total_le : pmm_pages_total ≤ MAX_PHYS_PAGES

def Pmm.zero : Pmm := ⟨fun _ => 0, 0, 0, 0, Nat.zero_le _⟩

/-- `mem` holds the page frames, `cr3` is the register, and `current_pgd` is the
static of `arch/mm/init.c`, null or the physical address of a table. -/
structure Mm where
  pmm : Pmm
  mem : Mem
  cr3 : BitVec 64
  current_pgd : Option (BitVec 64)

/-! ## The bitmap -/

/-- `1ULL << (i % BITS_PER_WORD)` -/
def page_bit (i : Nat) : BitVec 64 := 1#64 <<< (i % BITS_PER_WORD)

/-- `pmm_bitmap[i / BITS_PER_WORD] & bit` -/
def Pmm.page_used (p : Pmm) (i : Nat) : Bool :=
  p.pmm_bitmap (i / BITS_PER_WORD) &&& page_bit i != 0

/-- `pmm_bitmap[i / BITS_PER_WORD] |= bit` -/
def Pmm.set_bit (p : Pmm) (i : Nat) : Pmm :=
  let word := i / BITS_PER_WORD
  { p with pmm_bitmap := Function.update p.pmm_bitmap word (p.pmm_bitmap word ||| page_bit i) }

/-- `pmm_bitmap[i / BITS_PER_WORD] &= ~bit` -/
def Pmm.clear_bit (p : Pmm) (i : Nat) : Pmm :=
  let word := i / BITS_PER_WORD
  { p with pmm_bitmap := Function.update p.pmm_bitmap word (p.pmm_bitmap word &&& ~~~ page_bit i) }

/-! ## The functions -/

/-- The pages below `kernel_end`, as `pmm_init` counts them. -/
def kernel_pages (kernel_end : BitVec 64) : Nat :=
  let kernel_phys_end := kernel_end - 0xFFFFFFFF80000000#64
  u32 ((kernel_phys_end + BitVec.ofNat 64 PAGE_SIZE - 1) / BitVec.ofNat 64 PAGE_SIZE).toNat

/-- The first loop of `pmm_init`, over the pages of the kernel. -/
def mark_kernel (p : Pmm) (pages : Nat) : Pmm :=
  (List.range pages).foldl Pmm.set_bit p

def pmm_init (s : Mm) (total_kb : BitVec 32) (kernel_end : BitVec 64) : Mm :=
  let total := min (total_kb.toNat / 4) MAX_PHYS_PAGES
  let marked := mark_kernel { s.pmm with pmm_bitmap := fun _ => 0 } (kernel_pages kernel_end)
  { s with pmm :=
    { marked with
      pmm_pages_total := total
      total_le := Nat.min_le_right _ _
      pmm_pages_free := u32 (total + 4294967296 - kernel_pages kernel_end) } }

def alloc_page (s : Mm) : Except Halt (BitVec 64 × Mm) :=
  let p := s.pmm
  match (List.range' p.next_free_page (p.pmm_pages_total - p.next_free_page)).find?
      (fun i => !p.page_used i) with
  | none => .error .out_of_pages
  | some i =>
    let phys := BitVec.ofNat 64 i * BitVec.ofNat 64 PAGE_SIZE
    .ok (phys, { s with
      pmm := { p.set_bit i with
        pmm_pages_free := u32 (p.pmm_pages_free + 4294967296 - 1)
        next_free_page := u32 (i + 1) }
      mem := kmemset s.mem phys.toNat 0 PAGE_SIZE })

def free_page (s : Mm) (phys : BitVec 64) : Mm :=
  let p := s.pmm
  -- `uint32_t i` cuts the page number to 32 bits.
  let i := u32 (phys.toNat / PAGE_SIZE)
  if i ≥ p.pmm_pages_total then s
  else if p.page_used i then
    { s with pmm := { p.clear_bit i with
        pmm_pages_free := u32 (p.pmm_pages_free + 1)
        next_free_page := if i < p.next_free_page then i else p.next_free_page } }
  else s

end Relis.Code
