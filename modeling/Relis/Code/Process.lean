import Relis.Code.Sched

/-! # `kernel/fork.c` and `kernel/signal.c` -/

open Relis.Bytes

namespace Relis.Code

/-- `1ULL << sig` -/
def sig_bit (sig : Nat) : BitVec 64 := 1#64 <<< sig

/-! ## `fork.c` -/

/-- The kernel stack of the child: the frame of the caller with `rax = 0` at the
top, and below it what `switch_to` pops. Also the new `rsp`, as an index. -/
def fork_stack (stack : Nat → Word) (regs : Registers) : (Nat → Word) × Nat :=
  let child_regs := KERNEL_STACK_SIZE / 8 - regs.words.length
  let frame := fun i =>
    if child_regs ≤ i then
      match ({ regs with rax := 0 } : Registers).words[i - child_regs]? with
      | some v => .int v
      | none => stack i
    else stack i
  [.code .isr_common_return, .int 0, .int 0, .int 0, .int 0, .int 0, .int 0].foldl push
    (frame, child_regs)

/-- The `task_struct` of the child before it goes into lists. The copy brings the
links of the parent's three nodes with it. -/
def fork_task (parent : Task) (child pid : Nat) (cr3 : BitVec 64) (regs : Registers) : Task :=
  let (kernel_stack, stack) := fork_stack parent.kernel_stack regs
  { parent with
    pid := pid
    ppid := parent.pid
    state := .TASK_RUNNING
    pending_signals := 0
    cr3 := cr3
    kernel_stack_top := .kernel_stack child (KERNEL_STACK_SIZE / 8)
    kernel_stack := kernel_stack
    rsp := .kernel_stack child stack }

def sys_fork (k : Kernel) (regs : Registers) : Except Halt (Int × Kernel) := do
  let parent := k.current_task
  match kmalloc k.heap_ptr sizeof_task_struct with
  | (none, _) => return (-1, k)
  | (some child, heap_ptr) =>
    let pid := k.next_pid
    let (cr3, mm) ← clone_address_space k.mm
    let k := { k with heap_ptr := heap_ptr, next_pid := u32 (k.next_pid + 1), mm := mm }
    let k := k.new_task child (fork_task (k.task parent) child pid cr3 regs)
    let k := INIT_LIST_HEAD k (.se_run_node child)
    let k ← enqueue_task k child
    let k ← list_add k (.tasks child) .global_tasks
    let k := k.update_task parent fun t => { t with
      pending_signals := t.pending_signals ||| sig_bit RELIS_SIGCHLD }
    return ((k.task child).pid, k.log (.arrive (k.task child).sched_class child))

/-! ## `signal.c` -/

/-- `list_entry(n, struct task_struct, tasks)` -/
def tasks_entry : ListNode → Except Halt Nat
  | .tasks p => .ok p
  | _ => .error .bad_link

/-- The loop of `sys_kill`. Each task takes more than one byte of the heap, so the
fuel is enough for a list of tasks. -/
def find_task (k : Kernel) (pid : Nat) : Except Halt (Option Nat) :=
  list_for_each (k.heap_ptr.toNat + 1) k .global_tasks fun pos => do
    let t ← tasks_entry pos
    return if (k.task t).pid = pid then some t else none

def sys_kill (k : Kernel) (pid : Nat) (sig : Int) : Except Halt (Int × Kernel) := do
  if sig < 1 ∨ sig ≥ MAX_SIGNALS then return (-1, k)
  match ← find_task k pid with
  | none => return (-1, k)
  | some target =>
    let k := k.update_task target fun t => { t with
      pending_signals := t.pending_signals ||| sig_bit sig.toNat }
    if (k.task target).state = .TASK_INTERRUPTIBLE then
      return (0, ← wake_up_process k (some target))
    else return (0, k)

def sys_sigaction (k : Kernel) (sig : Int) (handler : BitVec 64) : Int × Kernel :=
  if sig < 1 ∨ sig ≥ MAX_SIGNALS then (-1, k)
  else (0, k.update_task k.current_task fun t => { t with
    signal_handlers := Function.update t.signal_handlers sig.toNat handler })

/-- `if (fatal) { current_task->state = TASK_ZOMBIE; schedule(); }`. The flag says
whether the task goes on, because nothing was done or `schedule` came back to it at once. -/
def exit_if (fatal : Bool) (k : Kernel) : Except Halt (Bool × Kernel) :=
  if fatal then do
    let k' ← schedule (set_zombie k)
    return (k'.current_task = k.current_task, k')
  else .ok (true, k)

/-- The loop of `deliver_signals` over the signals of the list. It gives no registers
when the task has been switched out in the middle of it. -/
def deliver_from (k : Kernel) (regs : Registers) : List Nat → Except Halt (Option Registers × Kernel)
  | [] => .ok (some regs, k)
  | sig :: sigs =>
    if (k.task k.current_task).pending_signals &&& sig_bit sig = 0 then deliver_from k regs sigs
    else do
      let k := k.update_task k.current_task fun t => { t with
        pending_signals := t.pending_signals &&& ~~~sig_bit sig }
      let (here, k) ← exit_if (sig = RELIS_SIGKILL) k
      if !here then return (none, k)
      let handler := (k.task k.current_task).signal_handlers sig
      if handler = 0 then
        let (here, k) ← exit_if (sig = RELIS_SIGINT ∨ sig = RELIS_SIGHUP) k
        if !here then return (none, k)
        deliver_from k regs sigs
      else return (some { regs with rip := handler }, k)

def deliver_signals (k : Kernel) (regs : Registers) : Except Halt (Option Registers × Kernel) :=
  if (k.task k.current_task).pending_signals = 0 then .ok (some regs, k)
  else deliver_from k regs (List.range' 1 (MAX_SIGNALS - 1))

end Relis.Code
