import Relis.Code.Paging

/-!
# `mm/mprotect.c`
-/

open Relis.Bytes

namespace Relis.Code

/-- The body of the loop. -/
def mprotect_page (new_flags : BitVec 64) (s : Mm) (vaddr : BitVec 64) : Mm :=
  match walk_page_table s vaddr with
  | none => s
  | some pte =>
    let e := read64 s.mem pte
    if has e PTE_PRESENT then
      { s with mem := write64 s.mem pte ((e &&& ~~~PTE_FLAGS_MASK) ||| (new_flags &&& PTE_FLAGS_MASK) ||| PTE_PRESENT) }
    else s

/-- The loop from `vaddr` on, or nothing if it has not ended after `fuel` rounds. -/
def mprotect_from (new_flags stop : BitVec 64) : Nat → BitVec 64 → Mm → Option Mm
  | 0, _, _ => none
  | fuel + 1, vaddr, s =>
    if vaddr < stop then mprotect_from new_flags stop fuel (vaddr + BitVec.ofNat 64 PAGE_SIZE)
      (mprotect_page new_flags s vaddr)
    else some s

/-- The values of `vaddr` for which the body runs in the first `n` rounds. -/
def mprotect_visits (stop : BitVec 64) : Nat → BitVec 64 → List (BitVec 64)
  | 0, _ => []
  | n + 1, vaddr =>
    if vaddr < stop then vaddr :: mprotect_visits stop n (vaddr + BitVec.ofNat 64 PAGE_SIZE) else []

/-- `vaddr` takes at most 2^52 values. If the loop has not ended after so many rounds, it never ends. -/
def sys_mprotect (s : Mm) (addr len new_flags : BitVec 64) : Option Mm :=
  mprotect_from new_flags (addr + len) (2 ^ 52 + 1) addr s

end Relis.Code
