import Mathlib.Data.BitVec
import Relis.Code.String

/-!
# `mm/slab.c`

A pointer into the heap is its offset in `kernel_heap_region`. The region is
zero at boot and no byte of it is given out twice.
-/

open Relis.Bytes

namespace Relis.Code

def kernel_heap_size : BitVec 32 := 4194304

/-- The pointer or null, and the new `heap_ptr`. The sum of the test is a
`size_t`, the new `heap_ptr` is cut to 32 bits. -/
def kmalloc (heap_ptr : BitVec 32) (size : BitVec 64) : Option Nat × BitVec 32 :=
  if heap_ptr.setWidth 64 + size > kernel_heap_size.setWidth 64 then (none, heap_ptr)
  else (some heap_ptr.toNat, (heap_ptr.setWidth 64 + ((size + 15#64) &&& ~~~15#64)).setWidth 32)

/-- `bytes` are the bytes from `kernel_heap_region` on. -/
def kcalloc (heap_ptr : BitVec 32) (bytes : Mem) (nmemb size : BitVec 64) :
    Option Nat × BitVec 32 × Mem :=
  match kmalloc heap_ptr (nmemb * size) with
  | (none, heap_ptr) => (none, heap_ptr, bytes)
  | (some ptr, heap_ptr) => (some ptr, heap_ptr, kmemset bytes ptr 0 (nmemb * size).toNat)

/-- `(void)ptr;` -/
def kfree (heap_ptr : BitVec 32) (_ptr : Option Nat) : BitVec 32 := heap_ptr

end Relis.Code
