import Relis.Code.Sched

/-!
# `kernel/ipc.c`: the system calls

What a call stores for the user is part of its result.
-/

namespace Relis.Code

/-! ## Pipes -/

/-- The block that `sys_pipe` repeats for the two ends. -/
def pipe_end (k : Kernel) (p : Nat) (fop : FileOperations) : Except Halt (Nat × Kernel) := do
  let (f, k) ← kmalloc_object k sizeof_file
  let (inode, k) ← kmalloc_object k sizeof_inode
  return (f, { k with
    inode := Function.update k.inode inode ⟨some p, some fop⟩
    file := Function.update k.file f ⟨none, some inode, 0⟩ })

/-- The loop over the descriptors: the new `files`, `rfd` and `wfd`. -/
def pipe_fds (read_end write_end : Nat) (files : Nat → Option Nat) (rfd : Option Nat) :
    List Nat → (Nat → Option Nat) × Option Nat × Option Nat
  | [] => (files, rfd, none)
  | i :: is =>
    if files i = none then
      match rfd with
      | none => pipe_fds read_end write_end (Function.update files i (some read_end)) (some i) is
      | some rfd => (Function.update files i (some write_end), some rfd, some i)
    else pipe_fds read_end write_end files rfd is

/-- The value it returns, and what it stores in `fds`. -/
def sys_pipe (k : Kernel) : Except Halt (Int × Option (Nat × Nat) × Kernel) := do
  let (p, k) ← kmalloc_object k sizeof_relis_pipe
  let k := { k with pipe := Function.update k.pipe p RelisPipe.zero }
  let (read_end, k) ← pipe_end k p .pipe_read_fops
  let (write_end, k) ← pipe_end k p .pipe_write_fops
  let (files, rfd, wfd) := pipe_fds read_end write_end (k.task k.current_task).files none
    (List.range MAX_FDS)
  let k := k.update_task k.current_task fun t => { t with files := files }
  match rfd, wfd with
  | some rfd, some wfd => return (0, some (rfd, wfd), k)
  | _, _ => return (-1, none, k)

/-! ## Shared memory -/

def SHM_VADDR_START : BitVec 64 := 0x60000000

def sys_shmget (k : Kernel) : Except Halt (Int × Kernel) := do
  let t := k.task k.current_task
  if t.shm_count ≥ MAX_SHM_REGIONS then return (-1, k)
  let (phys, mm) ← alloc_page k.mm
  let id := t.shm_count
  let k := { k with mm := mm }
  return (id, k.update_task k.current_task fun t => { t with
    shm_count := id + 1
    shm_pages := Function.update t.shm_pages id phys })

def sys_shmat (k : Kernel) (id : Int) : Except Halt (Int × Kernel) := do
  let t := k.task k.current_task
  if id < 0 ∨ id ≥ t.shm_count then return (-1, k)
  let virt := SHM_VADDR_START + BitVec.ofNat 64 (id.toNat * PAGE_SIZE)
  let mm ← arch_map_page k.mm virt (t.shm_pages id.toNat) (PTE_WRITABLE ||| PTE_USER)
  return (virt.toInt, { k with mm := mm })

end Relis.Code
