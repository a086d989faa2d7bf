import Relis.Code.List
import Relis.Code.Paging
import Relis.Code.Pipe
import Relis.Code.Slab

/-!
# `struct task_struct` and the state of the kernel

Heap objects are named by their offset in the heap. The `name` of a task is left
out, only `printk` reads it. `kernel_stack` holds the words that C code stores
there.
-/

open Relis.Bytes

namespace Relis.Code

/-! ## `include/relis/sched.h` -/

def KERNEL_STACK_SIZE : Nat := 16384
def MAX_FDS : Nat := 32
def MAX_SIGNALS : Nat := 32
def MAX_SHM_REGIONS : Nat := 4

def RELIS_SIGHUP : Nat := 1
def RELIS_SIGINT : Nat := 2
def RELIS_SIGKILL : Nat := 9
def RELIS_SIGCHLD : Nat := 17

def SCHED_NORMAL : BitVec 32 := 0
def SCHED_FIFO : BitVec 32 := 1
def SCHED_RR : BitVec 32 := 2

def DEFAULT_PRIO : BitVec 32 := 120
def TIF_NEED_RESCHED : BitVec 32 := 1

/-- No code stores a value other than the three. A string that is too long for `name` may. -/
inductive TaskState
  | TASK_RUNNING
  | TASK_INTERRUPTIBLE
  | TASK_ZOMBIE
  | other (v : BitVec 32)
  deriving DecidableEq, Repr

inductive SchedClass
  | rt_sched_class
  | fair_sched_class
  | idle_sched_class
  deriving DecidableEq, Repr

/-- The nodes of the scheduler's lists: the three heads, and the nodes inside of
the task at `p`. -/
inductive ListNode
  | cfs_queue
  | rt_queue
  | global_tasks
  | se_run_node (p : Nat)
  | rt_run_node (p : Nat)
  | tasks (p : Nat)
  deriving DecidableEq, Repr

inductive Label
  | thread_trampoline
  | isr_common_return
  deriving DecidableEq, Repr

/-- Eight bytes of kernel memory: a number, or the address of a node or of code. -/
inductive Word
  | int (v : BitVec 64)
  | node (n : ListNode)
  | code (l : Label)
  deriving DecidableEq, Repr

def Word.link : Word → Option ListNode
  | .node n => some n
  | _ => none

def Word.of_link : Option ListNode → Word
  | some n => .node n
  | none => .int 0

/-- `&p->kernel_stack[i]`, or the `stack_top` of the boot code. -/
inductive StackPtr
  | null
  | stack_top
  | kernel_stack (p i : Nat)
  deriving DecidableEq, Repr

structure ListHead where
  next : Word
  prev : Word

/-- The words of the union of `sched_entity` and `sched_rt_entity`. The list node
of `rt` lies over `sum_exec_runtime` and `vruntime` of `se`. -/
def SE_WEIGHT : Nat := 3
def SE_RUN_NODE : Nat := 4
def RT_PRIO : Nat := 0
def RT_RUN_NODE : Nat := 1

structure Task where
  rsp : StackPtr
  pid : Nat
  ppid : Nat
  state : TaskState
  flags : BitVec 32
  policy : BitVec 32
  prio : BitVec 32
  cr3 : BitVec 64
  stack_start : BitVec 64
  stack_end : BitVec 64
  entity : Nat → Word
  sched_class : SchedClass
  tasks : ListHead
  kernel_stack : Nat → Word
  kernel_stack_top : StackPtr
  files : Nat → Option Nat
  pending_signals : BitVec 64
  signal_handlers : Nat → BitVec 64
  shm_pages : Nat → BitVec 64
  shm_count : Nat
  fn : BitVec 64
  arg : BitVec 64

def sizeof_task_struct : BitVec 64 := 17128
def sizeof_file : BitVec 64 := 24
def sizeof_inode : BitVec 64 := 32

/-- `kmemset(p, 0, sizeof(struct task_struct))`. Whoever clears a task sets its
class before anyone reads it. -/
def Task.zero : Task where
  rsp := .null
  pid := 0
  ppid := 0
  state := .TASK_RUNNING
  flags := 0
  policy := 0
  prio := 0
  cr3 := 0
  stack_start := 0
  stack_end := 0
  entity := fun _ => .int 0
  sched_class := .idle_sched_class
  tasks := ⟨.int 0, .int 0⟩
  kernel_stack := fun _ => .int 0
  kernel_stack_top := .null
  files := fun _ => none
  pending_signals := 0
  signal_handlers := fun _ => 0
  shm_pages := fun _ => 0
  shm_count := 0
  fn := 0
  arg := 0

/-! ## `include/relis/irq.h` and `include/relis/fs.h` -/

structure Registers where
  r15 : BitVec 64
  r14 : BitVec 64
  r13 : BitVec 64
  r12 : BitVec 64
  r11 : BitVec 64
  r10 : BitVec 64
  r9 : BitVec 64
  r8 : BitVec 64
  rbp : BitVec 64
  rdi : BitVec 64
  rsi : BitVec 64
  rdx : BitVec 64
  rcx : BitVec 64
  rbx : BitVec 64
  rax : BitVec 64
  int_no : BitVec 64
  err_code : BitVec 64
  rip : BitVec 64
  cs : BitVec 64
  rflags : BitVec 64
  rsp : BitVec 64
  ss : BitVec 64
  deriving DecidableEq, Repr

/-- The 22 words in the order of their addresses. -/
def Registers.words (r : Registers) : List (BitVec 64) :=
  [r.r15, r.r14, r.r13, r.r12, r.r11, r.r10, r.r9, r.r8, r.rbp, r.rdi, r.rsi, r.rdx, r.rcx, r.rbx,
    r.rax, r.int_no, r.err_code, r.rip, r.cs, r.rflags, r.rsp, r.ss]

inductive FileOperations
  | stdin_fops
  | stdout_fops
  | pipe_read_fops
  | pipe_write_fops
  | relisfs_fops
  | cpuinfo_fops
  deriving DecidableEq, Repr

structure Inode where
  i_private : Option Nat
  i_fop : Option FileOperations

/-- `f_dentry` is only stored by `vfs_open`, the heap is zero before. -/
structure File where
  f_dentry : Option Nat
  f_inode : Option Nat
  f_pos : Nat

/-! ## The kernel -/

/-- What a run of the scheduler has done. No code reads it. -/
inductive Event
  /-- `p` is a new task of class `c`. -/
  | arrive (c : SchedClass) (p : Nat)
  /-- `p->state = TASK_ZOMBIE` -/
  | zombie (p : Nat)
  /-- `__schedule` has `p` for its `next`. -/
  | select (p : Nat)
  deriving DecidableEq, Repr

/-- `task_structs` are the offsets at which the heap holds a `task_struct`, and
`history` is the record of the run. `current_task` is null only before `sched_init`. -/
structure Kernel where
  mm : Mm
  heap_ptr : BitVec 32
  task : Nat → Task
  task_structs : List Nat
  file : Nat → File
  inode : Nat → Inode
  pipe : Nat → RelisPipe
  cfs_queue : ListHead
  rt_queue : ListHead
  nr_running : BitVec 64
  clock : BitVec 64
  global_tasks : ListHead
  current_task : Nat
  next_pid : Nat
  tss_rsp0 : StackPtr
  history : List Event

namespace Kernel

/-- `*p = f(*p)` -/
def update_task (k : Kernel) (p : Nat) (f : Task → Task) : Kernel :=
  { k with task := Function.update k.task p (f (k.task p)) }

/-- The first store into a `task_struct` that `kmalloc` gave. -/
def new_task (k : Kernel) (p : Nat) (t : Task) : Kernel :=
  { k with task := Function.update k.task p t, task_structs := p :: k.task_structs }

def log (k : Kernel) (e : Event) : Kernel := { k with history := k.history ++ [e] }

def node_at (k : Kernel) : ListNode → ListHead
  | .cfs_queue => k.cfs_queue
  | .rt_queue => k.rt_queue
  | .global_tasks => k.global_tasks
  | .se_run_node p => ⟨(k.task p).entity SE_RUN_NODE, (k.task p).entity (SE_RUN_NODE + 1)⟩
  | .rt_run_node p => ⟨(k.task p).entity RT_RUN_NODE, (k.task p).entity (RT_RUN_NODE + 1)⟩
  | .tasks p => (k.task p).tasks

def set_entity (k : Kernel) (p i : Nat) (w : Word) : Kernel :=
  k.update_task p fun t => { t with entity := Function.update t.entity i w }

def store_next (k : Kernel) (n : ListNode) (w : Word) : Kernel :=
  match n with
  | .cfs_queue => { k with cfs_queue.next := w }
  | .rt_queue => { k with rt_queue.next := w }
  | .global_tasks => { k with global_tasks.next := w }
  | .se_run_node p => k.set_entity p SE_RUN_NODE w
  | .rt_run_node p => k.set_entity p RT_RUN_NODE w
  | .tasks p => k.update_task p fun t => { t with tasks.next := w }

def store_prev (k : Kernel) (n : ListNode) (w : Word) : Kernel :=
  match n with
  | .cfs_queue => { k with cfs_queue.prev := w }
  | .rt_queue => { k with rt_queue.prev := w }
  | .global_tasks => { k with global_tasks.prev := w }
  | .se_run_node p => k.set_entity p (SE_RUN_NODE + 1) w
  | .rt_run_node p => k.set_entity p (RT_RUN_NODE + 1) w
  | .tasks p => k.update_task p fun t => { t with tasks.prev := w }

instance : ListHeap Kernel ListNode where
  next k n := (k.node_at n).next.link
  prev k n := (k.node_at n).prev.link
  set_next k n v := k.store_next n (Word.of_link v)
  set_prev k n v := k.store_prev n (Word.of_link v)

end Kernel

end Relis.Code
