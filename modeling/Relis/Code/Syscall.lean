import Relis.Code.Ipc
import Relis.Code.Process

/-!
# `kernel/entry/syscall.c`

The file methods, `vfs_open` and `sys_execve` are arguments of the dispatcher: they
may do to the kernel what they like. `kfree` does nothing.
-/

namespace Relis.Code

def SYS_EXIT : BitVec 64 := 0
def SYS_WRITE : BitVec 64 := 1
def SYS_READ : BitVec 64 := 2
def SYS_OPEN : BitVec 64 := 3
def SYS_CLOSE : BitVec 64 := 4
def SYS_PIPE : BitVec 64 := 22
def SYS_SHMGET : BitVec 64 := 29
def SYS_SHMAT : BitVec 64 := 30
def SYS_FORK : BitVec 64 := 57
def SYS_EXECVE : BitVec 64 := 59
def SYS_KILL : BitVec 64 := 62
def SYS_SIGACTION : BitVec 64 := 134

/-- `f->f_inode->i_fop->read` is not null. -/
def FileOperations.has_read : FileOperations → Bool
  | .stdin_fops | .pipe_read_fops | .relisfs_fops | .cpuinfo_fops => true
  | .stdout_fops | .pipe_write_fops => false

/-- `f->f_inode->i_fop->write` is not null. -/
def FileOperations.has_write : FileOperations → Bool
  | .stdout_fops | .pipe_write_fops | .relisfs_fops => true
  | .stdin_fops | .pipe_read_fops | .cpuinfo_fops => false

structure Outside where
  /-- The kernel when `schedule()` comes back to `p`, after it has switched to another task. -/
  resume (p : Nat) (k : Kernel) : Kernel
  read (fop : FileOperations) (k : Kernel) (f : Nat) (buf count : BitVec 64) :
    Except Halt (BitVec 64 × Kernel)
  write (fop : FileOperations) (k : Kernel) (f : Nat) (buf count : BitVec 64) :
    Except Halt (BitVec 64 × Kernel)
  vfs_open (k : Kernel) (path : BitVec 64) : Except Halt (Option Nat × Kernel)
  sys_execve (k : Kernel) (regs : Registers) (path : BitVec 64) : Except Halt (Int × Registers × Kernel)

/-- How control leaves the `switch`: at a `return`, or at its end. -/
inductive Flow
  | returned
  | at_end
  deriving DecidableEq, Repr

/-- `regs->rax = r; return;` -/
def answer (regs : Registers) (r : Int) (k : Kernel) : Except Halt (Flow × Registers × Kernel) :=
  .ok (.returned, { regs with rax := BitVec.ofInt 64 r }, k)

/-- `(int)v` -/
def to_int (v : BitVec 64) : Int := (v.setWidth 32).toInt

/-- `current->files[fd]`, null also for an `fd` outside of the table. -/
def fd_file (t : Task) (fd : Int) : Option Nat :=
  if fd < 0 ∨ fd ≥ MAX_FDS then none else t.files fd.toNat

/-- The cases of `SYS_WRITE` and `SYS_READ`, for one of the two methods. -/
def file_case (has_method : FileOperations → Bool)
    (method : FileOperations → Kernel → Nat → BitVec 64 → BitVec 64 →
      Except Halt (BitVec 64 × Kernel)) (k : Kernel) (regs : Registers) :
    Except Halt (Flow × Registers × Kernel) :=
  match fd_file (k.task k.current_task) (to_int regs.rdi) with
  | none => answer regs (-1) k
  | some f =>
    match (k.file f).f_inode with
    | none => .error .null_inode
    | some inode =>
      match (k.inode inode).i_fop with
      | none => answer regs (-1) k
      | some fop =>
        if has_method fop then do
          let (n, k) ← method fop k f regs.rsi regs.rdx
          return (.returned, { regs with rax := n }, k)
        else answer regs (-1) k

def alloc_fd (k : Kernel) (t f : Nat) : Int × Kernel :=
  match (List.range MAX_FDS).find? fun i => ((k.task t).files i).isNone with
  | none => (-1, k)
  | some i => (i, k.update_task t fun t => { t with files := Function.update t.files i (some f) })

def open_case (o : Outside) (k : Kernel) (regs : Registers) :
    Except Halt (Flow × Registers × Kernel) := do
  let current := k.current_task
  match ← o.vfs_open k regs.rdi with
  | (none, k) => answer regs (-1) k
  | (some f, k) =>
    let (fd, k) := alloc_fd k current f
    answer regs fd k

def close_case (k : Kernel) (regs : Registers) : Except Halt (Flow × Registers × Kernel) :=
  let fd := to_int regs.rdi
  match fd_file (k.task k.current_task) fd with
  | none => answer regs (-1) k
  | some _ =>
    answer regs 0 (k.update_task k.current_task fun t => { t with
      files := Function.update t.files fd.toNat none })

def exit_case (o : Outside) (k : Kernel) (regs : Registers) :
    Except Halt (Flow × Registers × Kernel) := do
  let k' ← schedule (set_zombie k)
  -- `schedule` returns here at once, or when the task is selected again
  return (.returned, regs, if k'.current_task = k.current_task then k' else o.resume k.current_task k')

def syscall_switch (o : Outside) (k : Kernel) (regs : Registers) :
    Except Halt (Flow × Registers × Kernel) :=
  if regs.rax = SYS_WRITE then file_case FileOperations.has_write o.write k regs
  else if regs.rax = SYS_READ then file_case FileOperations.has_read o.read k regs
  else if regs.rax = SYS_OPEN then open_case o k regs
  else if regs.rax = SYS_CLOSE then close_case k regs
  else if regs.rax = SYS_FORK then do
    let (r, k) ← sys_fork k regs
    answer regs r k
  else if regs.rax = SYS_EXECVE then do
    let (r, regs, k) ← o.sys_execve k regs regs.rdi
    answer regs r k
  else if regs.rax = SYS_EXIT then exit_case o k regs
  else if regs.rax = SYS_KILL then do
    let (r, k) ← sys_kill k (regs.rdi.setWidth 32).toNat (to_int regs.rsi)
    answer regs r k
  else if regs.rax = SYS_SIGACTION then
    let (r, k) := sys_sigaction k (to_int regs.rdi) regs.rsi
    answer regs r k
  else if regs.rax = SYS_PIPE then do
    let (r, _, k) ← sys_pipe k
    answer regs r k
  else if regs.rax = SYS_SHMGET then do
    let (r, k) ← sys_shmget k
    answer regs r k
  else if regs.rax = SYS_SHMAT then do
    let (r, k) ← sys_shmat k (to_int regs.rdi)
    answer regs r k
  else answer regs (-1) k

/-- A call of `syscall_dispatch` that has come to its end. `effect` is the state when the
`switch` is left, and `delivered` says whether `deliver_signals` has run after that. There
are no registers when the task has been switched out by it. -/
structure Dispatched where
  effect : Registers × Kernel
  delivered : Bool
  regs : Option Registers
  kernel : Kernel

def syscall_dispatch (o : Outside) (k : Kernel) (regs : Registers) : Except Halt Dispatched := do
  let (flow, regs, k) ← syscall_switch o k regs
  match flow with
  | .returned => return ⟨(regs, k), false, some regs, k⟩
  | .at_end =>
    let (regs', k') ← deliver_signals k regs
    return ⟨(regs, k), true, regs', k'⟩

end Relis.Code
