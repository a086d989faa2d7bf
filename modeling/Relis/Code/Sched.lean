import Relis.Code.Task

/-!
# `kernel/sched/` and `task_setup_stdio`

`switch_to` is left out: after a switch the machine goes on in the context of
`current_task`. So are the locks, each function runs to its end before the next.
-/

open Relis.Bytes

set_option linter.style.nameCheck false

namespace Relis.Code

/-! ## `fair.c` -/

def enqueue_task_fair (k : Kernel) (p : Nat) : Except Halt Kernel := do
  let k ← list_add_tail k (.se_run_node p) .cfs_queue
  return { k with nr_running := k.nr_running + 1 }

/-- `list_entry(n, struct task_struct, se.run_node)` -/
def se_entry : ListNode → Except Halt Nat
  | .se_run_node p => .ok p
  | _ => .error .bad_link

def pick_next_task_fair (k : Kernel) : Except Halt (Option Nat × Kernel) := do
  if list_empty k .cfs_queue then return (none, k)
  let next ← deref (next k .cfs_queue)
  let k ← list_del k next
  let k ← list_add_tail k next .cfs_queue
  return (some (← se_entry next), k)

/-! ## `rt.c` -/

def enqueue_task_rt (k : Kernel) (p : Nat) : Except Halt Kernel := do
  let k ← list_add k (.rt_run_node p) .rt_queue
  return { k with nr_running := k.nr_running + 1 }

/-- `list_entry(n, struct task_struct, rt.run_node)` -/
def rt_entry : ListNode → Except Halt Nat
  | .rt_run_node p => .ok p
  | _ => .error .bad_link

def pick_next_task_rt (k : Kernel) : Except Halt (Option Nat) := do
  if list_empty k .rt_queue then return none
  let next ← deref (next k .rt_queue)
  return some (← rt_entry next)

/-! ## `idle.c` -/

def pick_next_task_idle (k : Kernel) : Nat := k.current_task

def SchedClass.enqueue_task : SchedClass → Option (Kernel → Nat → Except Halt Kernel)
  | .rt_sched_class => some enqueue_task_rt
  | .fair_sched_class => some enqueue_task_fair
  | .idle_sched_class => none

/-- `if (p->sched_class->enqueue_task) p->sched_class->enqueue_task(p);` -/
def enqueue_task (k : Kernel) (p : Nat) : Except Halt Kernel :=
  match (k.task p).sched_class.enqueue_task with
  | some enqueue => enqueue k p
  | none => .ok k

/-! ## `core.c` -/

/-- The statics before `sched_init`. -/
def Kernel.boot (mm : Mm) (heap_ptr : BitVec 32) : Kernel where
  mm := mm
  heap_ptr := heap_ptr
  task := fun _ => Task.zero
  task_structs := []
  file := fun _ => ⟨none, none, 0⟩
  inode := fun _ => ⟨none, none⟩
  pipe := fun _ => RelisPipe.zero
  cfs_queue := ⟨.int 0, .int 0⟩
  rt_queue := ⟨.int 0, .int 0⟩
  nr_running := 0
  clock := 0
  global_tasks := ⟨.int 0, .int 0⟩
  current_task := 0
  next_pid := 1
  tss_rsp0 := .null
  history := []

def sched_init (k : Kernel) : Except Halt Kernel := do
  let k := INIT_LIST_HEAD k .cfs_queue
  let k := INIT_LIST_HEAD k .rt_queue
  let k := INIT_LIST_HEAD k .global_tasks
  let k := { k with nr_running := 0, clock := 0 }
  match kmalloc k.heap_ptr sizeof_task_struct with
  | (none, _) => throw .null_object
  | (some current_task, heap_ptr) =>
    let k := { k with heap_ptr := heap_ptr, current_task := current_task }
    let k := k.new_task current_task { Task.zero with
      pid := 0
      state := .TASK_RUNNING
      sched_class := .idle_sched_class
      kernel_stack_top := .stack_top
      cr3 := k.mm.cr3 }
    list_add k (.tasks current_task) .global_tasks

/-- A `kmalloc` whose result is stored to without a test. -/
def kmalloc_object (k : Kernel) (size : BitVec 64) : Except Halt (Nat × Kernel) :=
  match kmalloc k.heap_ptr size with
  | (none, _) => .error .null_object
  | (some p, heap_ptr) => .ok (p, { k with heap_ptr := heap_ptr })

/-- The block that `task_setup_stdio` repeats for each of its three files. -/
def setup_file (k : Kernel) (t fd : Nat) (fop : FileOperations) : Except Halt Kernel := do
  let (f, k) ← kmalloc_object k sizeof_file
  let (inode, k) ← kmalloc_object k sizeof_inode
  let k := { k with
    inode := Function.update k.inode inode ⟨none, some fop⟩
    file := Function.update k.file f ⟨none, some inode, 0⟩ }
  return k.update_task t fun t => { t with files := Function.update t.files fd (some f) }

def task_setup_stdio (k : Kernel) (t : Nat) : Except Halt Kernel := do
  let k ← setup_file k t 0 .stdin_fops
  let k ← setup_file k t 1 .stdout_fops
  setup_file k t 2 .stdout_fops

/-- `*--stack = w`, with `stack` as the index of the word it points to. -/
def push (s : (Nat → Word) × Nat) (w : Word) : (Nat → Word) × Nat :=
  (Function.update s.1 (s.2 - 1) w, s.2 - 1)

/-- The `task_struct` as `kernel_thread` fills it before `task_setup_stdio`. -/
def new_thread (p pid : Nat) (cr3 fn arg : BitVec 64) (policy : BitVec 32) : Task :=
  let t := { Task.zero with
    pid := pid
    state := .TASK_RUNNING
    policy := policy
    fn := fn
    arg := arg
    cr3 := cr3 }
  let t := if policy = SCHED_FIFO ∨ policy = SCHED_RR then
      { t with
        prio := 50
        entity := Function.update t.entity RT_PRIO (.int 50)
        sched_class := .rt_sched_class }
    else
      { t with
        prio := DEFAULT_PRIO
        entity := Function.update t.entity SE_WEIGHT (.int 1024)
        sched_class := .fair_sched_class }
  let top := KERNEL_STACK_SIZE / 8
  let words := [.code .thread_trampoline, .int 0, .int 0, .int 0, .int 0, .int 0, .int 0]
  let (kernel_stack, stack) := words.foldl push (t.kernel_stack, top)
  { t with
    kernel_stack_top := .kernel_stack p top
    kernel_stack := kernel_stack
    rsp := .kernel_stack p stack }

def kernel_thread (k : Kernel) (fn arg : BitVec 64) (policy : BitVec 32) :
    Except Halt (Int × Kernel) := do
  match kmalloc k.heap_ptr sizeof_task_struct with
  | (none, _) => return (-1, k)
  | (some p, heap_ptr) =>
    let pid := k.next_pid
    let k := { k with heap_ptr := heap_ptr, next_pid := u32 (k.next_pid + 1) }
    let k := k.new_task p (new_thread p pid k.mm.cr3 fn arg policy)
    let k ← task_setup_stdio k p
    let k ← enqueue_task k p
    let k ← list_add k (.tasks p) .global_tasks
    return ((k.task p).pid, k.log (.arrive (k.task p).sched_class p))

def wake_up_process (k : Kernel) (p : Option Nat) : Except Halt Kernel :=
  match p with
  | none => .ok k
  | some p =>
    if (k.task p).state = .TASK_INTERRUPTIBLE then
      enqueue_task (k.update_task p fun t => { t with state := .TASK_RUNNING }) p
    else .ok k

/-- The task that `__schedule` goes on with, from the first class that has one. -/
def pick_next_task (k : Kernel) : Except Halt (Nat × Kernel) := do
  match ← pick_next_task_rt k with
  | some next => return (next, k)
  | none =>
    match ← pick_next_task_fair k with
    | (some next, k) => return (next, k)
    | (none, k) => return (pick_next_task_idle k, k)

def __schedule (k : Kernel) : Except Halt Kernel := do
  let prev := k.current_task
  let (next, k) ← pick_next_task k
  let k := k.log (.select next)
  if next = prev then
    return k.update_task k.current_task fun t => { t with flags := t.flags &&& ~~~TIF_NEED_RESCHED }
  let k := { k with current_task := next, tss_rsp0 := (k.task next).kernel_stack_top }
  if (k.task next).cr3 ≠ k.mm.cr3 then
    return { k with mm := switch_address_space k.mm (k.task next).cr3 }
  else return k

def schedule (k : Kernel) : Except Halt Kernel := __schedule k

/-- `current_task->state = TASK_ZOMBIE;` -/
def set_zombie (k : Kernel) : Kernel :=
  (k.update_task k.current_task fun t => { t with state := .TASK_ZOMBIE }).log (.zombie k.current_task)

/-- The end of `thread_trampoline`, once the function of the thread has returned.
Each further turn of its loop is one more `schedule`. -/
def thread_trampoline_end (k : Kernel) : Except Halt Kernel := schedule (set_zombie k)

end Relis.Code
