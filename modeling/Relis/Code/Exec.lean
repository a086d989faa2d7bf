import Relis.Code.Memory
import Relis.Code.Process

/-!
# `fs/exec.c` and `fs/binfmt_elf.c`

`elf_data` is the memory from the pointer of that name on, with offsets modulo 2^64.
What `vfs_open` and `vfs_read` find at `path` is an argument. So is the string that
`kstrcpy` finds there later, in the new space.
-/

open Relis.Bytes Relis.Run

namespace Relis.Code

/-! ## `include/relis/elf.h` -/

def ELF_MAGIC : BitVec 32 := 0x464C457F
def PT_LOAD : BitVec 32 := 1

/-- The fields of `elf64_hdr_t` that are read. -/
structure Elf64Hdr where
  e_magic : BitVec 32
  e_entry : BitVec 64
  e_phoff : BitVec 64
  e_phnum : BitVec 16

def Elf64Hdr.at (elf_data : Mem) : Elf64Hdr :=
  ⟨read32 elf_data 0, read64 elf_data 24, read64 elf_data 32, read16 elf_data 56⟩

/-- The fields of `elf64_phdr_t` that are read. -/
structure Elf64Phdr where
  p_type : BitVec 32
  p_offset : BitVec 64
  p_vaddr : BitVec 64
  p_filesz : BitVec 64
  p_memsz : BitVec 64

/-- `phdr[i]` -/
def Elf64Phdr.at (elf_data : Mem) (i : Nat) : Elf64Phdr :=
  let a := ((Elf64Hdr.at elf_data).e_phoff + BitVec.ofNat 64 (56 * i)).toNat
  ⟨read32 elf_data a, read64 elf_data (a + 8), read64 elf_data (a + 16), read64 elf_data (a + 32),
    read64 elf_data (a + 40)⟩

def Elf64Phdr.pages (ph : Elf64Phdr) : BitVec 64 := (ph.p_memsz + 4096 - 1) / 4096

/-- `vaddr + j * PAGE_SIZE` -/
def Elf64Phdr.page (ph : Elf64Phdr) (j : Nat) : BitVec 64 := ph.p_vaddr + BitVec.ofNat 64 j * 4096

/-! ## The new address space -/

/-- The body of the loop over the pages of a segment. -/
def load_page (elf_data : Mem) (ph : Elf64Phdr) (j : Nat) (s : Mm) : Except Halt Mm := do
  let (phys, s) ← alloc_page s
  let s ← arch_map_page s (ph.page j) phys (PTE_WRITABLE ||| PTE_USER)
  let offset := BitVec.ofNat 64 j * 4096
  if offset < ph.p_filesz then
    let copy_len := if offset + 4096 > ph.p_filesz then ph.p_filesz - offset else 4096
    return { s with
      mem := kmemcpy_into s.mem elf_data phys.toNat (ph.p_offset + offset).toNat copy_len.toNat }
  else return s

/-- The body of the loop over the program headers. -/
def load_segment (elf_data : Mem) (i : Nat) (s : Mm) : Except Halt Mm :=
  let ph := Elf64Phdr.at elf_data i
  if ph.p_type = PT_LOAD then loop 0 ph.pages.toNat (load_page elf_data ph) s else .ok s

/-- What both functions do after the test of the magic: `new_cr3`, which is now loaded. -/
def load_image (s : Mm) (elf_data : Mem) : Except Halt (BitVec 64 × Mm) := do
  let (new_cr3, s) ← create_new_address_space s
  let s := switch_address_space s new_cr3
  let s ← arch_map_page s 0xB8000 0xB8000 (PTE_WRITABLE ||| PTE_GLOBAL)
  let s ← loop 0 (Elf64Hdr.at elf_data).e_phnum.toNat (load_segment elf_data) s
  return (new_cr3, s)

/-- `load_elf` has a loop of its own with the same steps, and loads into the current space. -/
def load_elf (s : Mm) (data : Mem) : Except Halt (BitVec 64 × Mm) := do
  let hdr := Elf64Hdr.at data
  if hdr.e_magic ≠ ELF_MAGIC then return (0, s)
  let s ← loop 0 hdr.e_phnum.toNat (load_segment data) s
  return (hdr.e_entry, s)

def user_stack : BitVec 64 := 0x40000000

def Task.set_image (t : Task) (new_cr3 : BitVec 64) : Task :=
  { t with stack_start := user_stack - 4 * 4096, stack_end := user_stack, cr3 := new_cr3 }

/-! ## `exec_user_program` -/

/-- The arguments of `drop_to_user`, or nothing when the magic is wrong. -/
def exec_user_program (k : Kernel) (elf_data : Mem) :
    Except Halt (Option (BitVec 64 × BitVec 64) × Kernel) := do
  let hdr := Elf64Hdr.at elf_data
  if hdr.e_magic ≠ ELF_MAGIC then return (none, k)
  let (new_cr3, mm) ← load_image k.mm elf_data
  let k := { k with mm := mm }
  let k := k.update_task k.current_task fun t => t.set_image new_cr3
  return (some (user_stack - 16, hdr.e_entry), k)

/-! ## `sys_execve` -/

def TaskState.bits : TaskState → BitVec 32
  | .TASK_RUNNING => 0
  | .TASK_INTERRUPTIBLE => 1
  | .TASK_ZOMBIE => 2
  | .other v => v

def TaskState.of_bits (v : BitVec 32) : TaskState :=
  if v = 0 then .TASK_RUNNING else if v = 1 then .TASK_INTERRUPTIBLE else if v = 2 then .TASK_ZOMBIE
  else .other v

/-- The `task_struct` as bytes, from `state` up to `stack_end`. `name` lies at 16. -/
def Task.bytes (t : Task) : Mem :=
  let m := write32 (fun _ => 0) 48 t.state.bits
  let m := write32 m 52 t.flags
  let m := write32 m 56 t.policy
  let m := write32 m 60 t.prio
  let m := write64 m 64 t.cr3
  let m := write64 m 72 t.stack_start
  write64 m 80 t.stack_end

def Task.of_bytes (t : Task) (m : Mem) : Task :=
  { t with
    state := .of_bits (read32 m 48)
    flags := read32 m 52
    policy := read32 m 56
    prio := read32 m 60
    cr3 := read64 m 64
    stack_start := read64 m 72
    stack_end := read64 m 80 }

/-- `kstrcpy(t->name, src)`, which knows no end of `name`. The fields behind `stack_end` have
no bytes here, so a string must not reach them. -/
def Task.set_name (t : Task) (src : CString) : Except Halt Task :=
  if 16 + src.bytes.length < 88 then .ok (t.of_bytes (kstrcpy t.bytes 16 src.bytes)) else .error .overrun

/-- What `vfs_open(path)` finds, and `vfs_read` after it. -/
inductive PathFile
  | missing
  | unreadable
  | readable (elf_data : Mem)

def sys_execve (k : Kernel) (regs : Registers) (file : PathFile) (path : CString) :
    Except Halt (Int × Registers × Kernel) :=
  match file with
  | .missing => .ok (-1, regs, k)
  | .unreadable => do
    let (_, k) ← kmalloc_object k sizeof_file
    return (-1, regs, { k with heap_ptr := (kmalloc k.heap_ptr 4096).2 })
  | .readable elf_data => do
    let (_, k) ← kmalloc_object k sizeof_file
    let (_, k) ← kmalloc_object k 4096
    let hdr := Elf64Hdr.at elf_data
    if hdr.e_magic ≠ ELF_MAGIC then return (-1, regs, k)
    let (new_cr3, mm) ← load_image k.mm elf_data
    let k := { k with mm := mm }
    let t ← ((k.task k.current_task).set_image new_cr3).set_name path
    let k := k.update_task k.current_task fun _ => t
    return (0, { regs with
      rip := hdr.e_entry, rsp := user_stack - 16, cs := 0x23, ss := 0x1B, rflags := 0x202 }, k)

end Relis.Code
