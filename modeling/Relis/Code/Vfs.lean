import Relis.Code.Relisfs
import Relis.Code.Syscall

/-!
# `fs/vfs.c`, `fs/proc/proc.c` and the mounts of `start_kernel`

The dentries are objects of the heap. Nothing changes them after the mounts, so they
are kept apart from the kernel. The messages are left out.
-/

namespace Relis.Code

/-- `d_children` are the first `d_child_count` children. No code reads `d_parent`. -/
structure Dentry where
  d_name : List (BitVec 8)
  d_inode : Option Nat
  d_children : List Nat

structure Vfs where
  root_dentry : Option Nat
  dentry : Nat → Dentry

def ascii (s : String) : List (BitVec 8) := s.toList.map fun c => BitVec.ofNat 8 c.toNat

/-! ## The mounts -/

/-- The objects of `relisfs_mount`, once it has read the disk. -/
def relisfs_root (v : Vfs) (k : Kernel) : Except Halt (Nat × Vfs × Kernel) := do
  let (root, k) ← kmalloc_object k sizeof_dentry
  let (d_inode, k) ← kmalloc_object k sizeof_inode
  let (disk_inode, k) ← kmalloc_object k (BitVec.ofNat 64 sizeof_relisfs_inode)
  return (root, { v with dentry := Function.update v.dentry root ⟨ascii "/", some d_inode, []⟩ },
    { k with inode := Function.update k.inode d_inode ⟨some disk_inode, some .relisfs_fops⟩ })

/-- `vfs_kern_mount(&relisfs_fs_type)`, for a disk that can be read or not. -/
def vfs_kern_mount (disk : Bool) (v : Vfs) (k : Kernel) : Except Halt (Vfs × Kernel) :=
  if disk then do
    let (root, v, k) ← relisfs_root v k
    return ({ v with root_dentry := some root }, k)
  else .ok ({ v with root_dentry := none }, k)

def proc_mount (v : Vfs) (k : Kernel) : Except Halt (Nat × Vfs × Kernel) := do
  let (root, k) ← kmalloc_object k sizeof_dentry
  let (cpuinfo, k) ← kmalloc_object k sizeof_dentry
  let (d_inode, k) ← kmalloc_object k sizeof_inode
  let dentry := Function.update v.dentry cpuinfo ⟨ascii "cpuinfo", some d_inode, []⟩
  let dentry := Function.update dentry root ⟨ascii "proc", none, [cpuinfo]⟩
  return (root, { v with dentry := dentry },
    { k with inode := Function.update k.inode d_inode ⟨none, some .cpuinfo_fops⟩ })

/-- The mounts of `start_kernel`, and the root of `proc`. -/
def mount_all (disk : Bool) (k : Kernel) : Except Halt (Nat × Vfs × Kernel) := do
  let (v, k) ← vfs_kern_mount disk ⟨none, fun _ => ⟨[], none, []⟩⟩ k
  let (proc_root, v, k) ← proc_mount v k
  match v.root_dentry with
  | none => return (proc_root, v, k)
  | some root =>
    let d := v.dentry root
    let d := { d with d_children := d.d_children ++ [proc_root] }
    return (proc_root, { v with dentry := Function.update v.dentry root d }, k)

/-! ## `vfs.c` -/

/-- The size of `name` in `vfs_open`. -/
def NAME_SIZE : Nat := 64

/-- The step to the child with a name, or to the dentry itself for no name. -/
def vfs_child (v : Vfs) (current_d : Nat) (name : List (BitVec 8)) : Option Nat :=
  if name = [] then some current_d
  else (v.dentry current_d).d_children.find? fun d => (v.dentry d).d_name = name

/-- The loop of `vfs_open`, with the first bytes of `name`. The loop does not look at the size of
`name`. -/
def vfs_walk (v : Vfs) (current_d : Nat) (name : List (BitVec 8)) :
    List (BitVec 8) → Except Halt (Option Nat)
  | [] => if name.length < NAME_SIZE then .ok (vfs_child v current_d name) else .error .overrun
  | c :: path =>
    if name.length < NAME_SIZE then
      if c = 0x2F then
        match vfs_child v current_d name with
        | none => .ok none
        | some d => vfs_walk v d [] path
      else vfs_walk v current_d (name ++ [c]) path
    else .error .overrun

/-- The indices at which the loop of `vfs_open` and the code after it write to `name`, one after the
other. Nothing stops them at the end of `name`. -/
def vfs_walk_writes (v : Vfs) (current_d : Nat) (name : List (BitVec 8)) : List (BitVec 8) → List Nat
  | [] => [name.length]
  | c :: path =>
    name.length ::
      if c = 0x2F then
        match vfs_child v current_d name with
        | none => []
        | some d => vfs_walk_writes v d [] path
      else vfs_walk_writes v current_d (name ++ [c]) path

def vfs_open_writes (v : Vfs) (path : CString) : List Nat :=
  match v.root_dentry, path.bytes with
  | some root, c :: rest => if c = 0x2F then vfs_walk_writes v root [] rest else []
  | _, _ => []

def vfs_lookup (v : Vfs) (path : CString) : Except Halt (Option Nat) :=
  match v.root_dentry, path.bytes with
  | some root, c :: rest => if c = 0x2F then vfs_walk v root [] rest else .ok none
  | _, _ => .ok none

def vfs_open (v : Vfs) (k : Kernel) (path : CString) : Except Halt (Option Nat × Kernel) := do
  match ← vfs_lookup v path with
  | none => return (none, k)
  | some d =>
    let (f, k) ← kmalloc_object k sizeof_file
    return (some f, { k with file := Function.update k.file f ⟨some d, (v.dentry d).d_inode, 0⟩ })

/-- `vfs_read` and `vfs_write`, for one of the two methods. -/
def vfs_method (has_method : FileOperations → Bool)
    (method : FileOperations → Kernel → Nat → BitVec 64 → BitVec 64 →
      Except Halt (BitVec 64 × Kernel)) (k : Kernel) (f : Option Nat) (buf count : BitVec 64) :
    Except Halt (BitVec 64 × Kernel) :=
  match f with
  | none => .ok (-1, k)
  | some f =>
    match (k.file f).f_inode with
    | none => .ok (-1, k)
    | some inode =>
      match (k.inode inode).i_fop with
      | none => .ok (-1, k)
      | some fop => if has_method fop then method fop k f buf count else .ok (-1, k)

def vfs_read (o : Outside) (k : Kernel) (f : Option Nat) (buf count : BitVec 64) :
    Except Halt (BitVec 64 × Kernel) :=
  vfs_method FileOperations.has_read o.read k f buf count

def vfs_write (o : Outside) (k : Kernel) (f : Option Nat) (buf count : BitVec 64) :
    Except Halt (BitVec 64 × Kernel) :=
  vfs_method FileOperations.has_write o.write k f buf count

/-! ## The system calls on descriptors -/

/-- `path` is the string that the call finds at its pointer. -/
inductive FileCall
  | open (path : CString)
  | close (fd : BitVec 64)
  | pipe

/-- The call through `syscall_dispatch`, with what the other registers hold. -/
def FileCall.dispatch (o : Outside) (v : Vfs) (regs : Registers) (k : Kernel) :
    FileCall → Except Halt Dispatched
  | .open path =>
    syscall_dispatch { o with vfs_open := fun k _ => vfs_open v k path } k { regs with rax := SYS_OPEN }
  | .close fd => syscall_dispatch o k { regs with rax := SYS_CLOSE, rdi := fd }
  | .pipe => syscall_dispatch o k { regs with rax := SYS_PIPE }

end Relis.Code
