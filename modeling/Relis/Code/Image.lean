import Relis.Code.PageAlloc

/-!
# `mm/page_alloc.c` with its statics in the frames

The statics are bytes of the kernel image, and the image lies in page frames. Here
every load and store of a static is one of the memory that `alloc_page` clears.
-/

open Relis.Bytes

namespace Relis.Code.Image

/-- The physical addresses that the linker gives the statics. -/
structure Statics where
  pmm_bitmap : Nat
  pmm_pages_total : Nat
  pmm_pages_free : Nat
  next_free_page : Nat
  apart : [(pmm_bitmap, 8192), (pmm_pages_total, 4), (pmm_pages_free, 4), (next_free_page, 4)].Pairwise
    fun x y => x.1 + x.2 ≤ y.1 ∨ y.1 + y.2 ≤ x.1

/-- `&pmm_bitmap[i / BITS_PER_WORD]` -/
def Statics.word (a : Statics) (i : Nat) : Nat := a.pmm_bitmap + 8 * (i / BITS_PER_WORD)

variable (a : Statics) (m : Mem)

/-- `pmm_bitmap[i / BITS_PER_WORD] & bit` -/
def page_used (i : Nat) : Bool := read64 m (a.word i) &&& page_bit i != 0

/-- `pmm_bitmap[i / BITS_PER_WORD] |= bit` -/
def set_bit (i : Nat) : Mem := write64 m (a.word i) (read64 m (a.word i) ||| page_bit i)

/-- `pmm_bitmap[i / BITS_PER_WORD] &= ~bit` -/
def clear_bit (i : Nat) : Mem := write64 m (a.word i) (read64 m (a.word i) &&& ~~~ page_bit i)

def pmm_init (total_kb : BitVec 32) (kernel_end : BitVec 64) : Mem :=
  let total := total_kb / 4
  let total := if total > BitVec.ofNat 32 MAX_PHYS_PAGES then BitVec.ofNat 32 MAX_PHYS_PAGES else total
  let m := write32 m a.pmm_pages_total total
  let m := kmemset m a.pmm_bitmap 0 8192
  let m := (List.range (kernel_pages kernel_end)).foldl (set_bit a) m
  write32 m a.pmm_pages_free (read32 m a.pmm_pages_total - BitVec.ofNat 32 (kernel_pages kernel_end))

def alloc_page : Except Halt (BitVec 64 × Mem) :=
  let next_free_page := (read32 m a.next_free_page).toNat
  let pmm_pages_total := (read32 m a.pmm_pages_total).toNat
  match (List.range' next_free_page (pmm_pages_total - next_free_page)).find?
      (fun i => !page_used a m i) with
  | none => .error .out_of_pages
  | some i =>
    let m := set_bit a m i
    let m := write32 m a.pmm_pages_free (read32 m a.pmm_pages_free - 1)
    let m := write32 m a.next_free_page (BitVec.ofNat 32 (i + 1))
    let phys := BitVec.ofNat 64 i * BitVec.ofNat 64 PAGE_SIZE
    .ok (phys, kmemset m phys.toNat 0 PAGE_SIZE)

def free_page (phys : BitVec 64) : Mem :=
  let i := u32 (phys.toNat / PAGE_SIZE)
  if i ≥ (read32 m a.pmm_pages_total).toNat then m
  else if page_used a m i then
    let m := clear_bit a m i
    let m := write32 m a.pmm_pages_free (read32 m a.pmm_pages_free + 1)
    if i < (read32 m a.next_free_page).toNat then write32 m a.next_free_page (BitVec.ofNat 32 i) else m
  else m

end Relis.Code.Image
