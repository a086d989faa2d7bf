import Relis.Code.Keyboard
import Relis.Code.NicRing
import Relis.Code.Printk
import Relis.Code.Tick
import Relis.Lib.Nest

/-!
# `kernel/irq/manage.c`, with the handlers and the code that takes a lock

Each function is cut where it takes or releases a lock; what it does in between is one step, or one step
for each character and each register. `k` is what comes after the call. Threads are switched in
`schedule` only, with no lock held, so what they call is one sequence of calls.
-/

open Relis.Nest

namespace Relis.Code

inductive Lock
  | console_lock
  | heap_lock
  | sched_lock
  | kb_lock
  deriving DecidableEq, Repr

inductive Handler
  | timer_callback
  | kb_irq
  | nic_irq_handler
  deriving DecidableEq, Repr

def IDT_ENTRIES : Nat := 256

/-- `kb_data` is the byte in the port of the keyboard and `icr` the register of the NIC. -/
structure Machine where
  kernel : Kernel
  console : Console
  kb : Keyboard
  kb_data : BitVec 8
  nic : Nic
  icr : BitVec 32
  jiffies : BitVec 64
  irq_handlers : Nat → Option Handler

abbrev Routine : Type := Prog Lock Machine

namespace Irq

/-! ## Steps -/

def write (f : Machine → Machine) (k : Routine) : Routine := .step f fun _ => k

def read (k : Machine → Routine) : Routine := .step id k

/-- The machine stops where a function does. -/
def kernel_step (f : Kernel → Except Halt Kernel) (k : Routine) : Routine :=
  .step (fun m => match f m.kernel with
    | .ok kernel => { m with kernel := kernel }
    | .error _ => m)
  fun m => match f m.kernel with
    | .ok _ => k
    | .error _ => .halt

/-! ## `printk.c` -/

def print_chars : List (BitVec 8) → Routine → Routine
  | [], k => k
  | c :: text, k => write (fun m => { m with console := print_char m.console c }) (print_chars text k)

def set_color (fg : BitVec 8) (k : Routine) : Routine :=
  write (fun m => { m with console := { m.console with
    vga := terminal_setcolor m.console.vga fg VGA_COLOR_BLACK } }) k

/-- `text` is what the format and its arguments give. -/
def printk (text : List (BitVec 8)) (k : Routine) : Routine :=
  .lock .console_lock <| set_color VGA_COLOR_LIGHT_GREEN <| print_chars relis_tag <| set_color
    VGA_COLOR_WHITE <| print_chars text <| print_chars [10] <| .unlock .console_lock k

/-! ## `slab.c` -/

def kmalloc (size : BitVec 64) (k : Option Nat → Routine) : Routine :=
  .lock .heap_lock <| read fun m =>
    match Code.kmalloc m.kernel.heap_ptr size with
    | (none, _) => .unlock .heap_lock (k none)
    | (some ptr, heap_ptr) =>
      write (fun m => { m with kernel := { m.kernel with heap_ptr := heap_ptr } }) <|
        .unlock .heap_lock (k (some ptr))

/-! ## `core.c` -/

/-- A `kmalloc` whose result is stored to without a test. -/
def kmalloc_object (size : BitVec 64) (k : Nat → Routine) : Routine :=
  kmalloc size fun ptr => match ptr with
    | none => .halt
    | some ptr => k ptr

def setup_file (t fd : Nat) (fop : FileOperations) (k : Routine) : Routine :=
  kmalloc_object sizeof_file fun f => kmalloc_object sizeof_inode fun inode =>
    kernel_step (fun k => .ok ({ k with
      inode := Function.update k.inode inode ⟨none, some fop⟩
      file := Function.update k.file f ⟨none, some inode, 0⟩ }.update_task t fun t =>
        { t with files := Function.update t.files fd (some f) })) k

def task_setup_stdio (t : Nat) (k : Routine) : Routine :=
  setup_file t 0 .stdin_fops <| setup_file t 1 .stdout_fops <| setup_file t 2 .stdout_fops k

def kernel_thread (fn arg : BitVec 64) (policy : BitVec 32) (k : Routine) : Routine :=
  .lock .sched_lock <| kmalloc sizeof_task_struct fun p => match p with
    | none => .unlock .sched_lock k
    | some p =>
      kernel_step (fun k => .ok ({ k with next_pid := Bytes.u32 (k.next_pid + 1) }.new_task p
        (new_thread p k.next_pid k.mm.cr3 fn arg policy))) <|
      task_setup_stdio p <|
      kernel_step (fun k => enqueue_task k p) <|
      kernel_step (fun k => list_add k (.tasks p) .global_tasks) <|
      .unlock .sched_lock k

def wake_up_process (p : Option Nat) (k : Routine) : Routine :=
  .lock .sched_lock <| kernel_step (fun k => Code.wake_up_process k p) <| .unlock .sched_lock k

/-- The lock is released before the switch. -/
def schedule (k : Routine) : Routine :=
  .lock .sched_lock <| kernel_step Code.__schedule <| .unlock .sched_lock k

/-! ## `manage.c` -/

def request_irq (irq : Nat) (h : Handler) (k : Routine) : Routine :=
  write (fun m => if irq < IDT_ENTRIES then
    { m with irq_handlers := Function.update m.irq_handlers irq (some h) } else m) k

/-! ## `keyboard.c` -/

def literal (s : List Char) : List (BitVec 8) := s.map fun c => BitVec.ofNat 8 c.toNat

/-- `Keyboard initialized (Scancode Set 1, Buffer=%d)` -/
def keyboard_text : List (BitVec 8) :=
  literal ['K', 'e', 'y', 'b', 'o', 'a', 'r', 'd', ' ', 'i', 'n', 'i', 't', 'i', 'a', 'l', 'i', 'z',
    'e', 'd', ' ',
    '(', 'S', 'c', 'a', 'n', 'c', 'o', 'd', 'e', ' ', 'S', 'e', 't', ' ', '1', ',', ' ', 'B', 'u', 'f', 'f', 'e', 'r',
    '=', '2', '5', '6', ')']

def keyboard_init (k : Routine) : Routine :=
  .lock .kb_lock <| write (fun m => { m with kb := Code.keyboard_init m.kb }) <| .unlock .kb_lock <|
    request_irq 33 .kb_irq <| printk keyboard_text k

def keyboard_poll (k : Routine) : Routine :=
  .lock .kb_lock <| read fun m =>
    if m.kb.rp ≠ m.kb.wp then
      read fun m => write (fun m' => { m' with kb := { m'.kb with
        rp := (m'.kb.rp + 1) % KB_BUF_SIZE, returned := m'.kb.returned ++ [m.kb.buf m.kb.rp.toNat] } }) <|
        .unlock .kb_lock k
    else .unlock .kb_lock k

/-! ## The handlers -/

def timer_callback : Routine :=
  write (fun m => { m with jiffies := m.jiffies + 1 }) <|
    write (fun m => { m with kernel := scheduler_tick m.kernel }) .done

def kb_irq : Routine := write (fun m => { m with kb := Code.kb_irq m.kb m.kb_data }) .done

/-- `NIC: Packet received! Length: %d bytes` -/
def packet_text (len : BitVec 16) : List (BitVec 8) :=
  literal ['N', 'I', 'C', ':', ' ', 'P', 'a', 'c', 'k', 'e', 't', ' ', 'r', 'e', 'c', 'e', 'i', 'v',
    'e', 'd', '!', ' ', 'L', 'e', 'n', 'g', 't', 'h', ':', ' '] ++
  (if len = 0 then [48] else (int_digits 16 (len.setWidth 32) []).getD []) ++
  literal [' ', 'b', 'y', 't', 'e', 's']

def nic_rx_poll (k : Routine) : Routine :=
  read fun m =>
    let next := next_tail m.nic
    read fun m =>
      if m.nic.done next.toNat then
        read fun m => printk (packet_text (m.nic.rx_descs next.toNat).length) <|
          write (fun m => { m with nic := rx_clear m.nic next }) <|
          write (fun m => { m with nic := rx_release m.nic next }) k
      else k

/-- The register is cleared when it is read. -/
def nic_irq_handler : Routine :=
  .step (fun m => { m with icr := 0 }) fun m => if m.icr ≠ 0 then nic_rx_poll .done else .done

def handler : Handler → Routine
  | .timer_callback => timer_callback
  | .kb_irq => kb_irq
  | .nic_irq_handler => nic_irq_handler

/-- The entry is looked up when the interrupt is taken; the register of the local APIC is left out. -/
def dispatch_irq (irq : Nat) (m : Machine) : Routine :=
  if irq < IDT_ENTRIES then
    match m.irq_handlers irq with
    | some h => handler h
    | none => .done
  else .done

/-! ## The system -/

/-- What threads and the boot code call. `other` is code that takes none of the locks. -/
inductive Call
  | printk (text : List (BitVec 8))
  | kmalloc (size : BitVec 64)
  | kernel_thread (fn arg : BitVec 64) (policy : BitVec 32)
  | wake_up_process (p : Option Nat)
  | schedule
  | keyboard_init
  | keyboard_poll
  | request_irq (irq : Nat) (h : Handler)
  | sti
  | cli
  | other (f : Machine → Machine)

def call : Call → Routine
  | .printk text => printk text .done
  | .kmalloc size => kmalloc size fun _ => .done
  | .kernel_thread fn arg policy => kernel_thread fn arg policy .done
  | .wake_up_process p => wake_up_process p .done
  | .schedule => schedule .done
  | .keyboard_init => keyboard_init .done
  | .keyboard_poll => keyboard_poll .done
  | .request_irq irq h => request_irq irq h .done
  | .sti => .flag true .done
  | .cli => .flag false .done
  | .other f => write f .done

/-- A packet comes in, with a cause in the register, or a key is pressed or released. -/
inductive Device
  | receive (p : Packet) (cause : BitVec 32)
  | key (sc : BitVec 8)

def device : Device → Machine → Machine
  | .receive p cause, m => { m with nic := nic_receive m.nic p, icr := m.icr ||| cause }
  | .key sc, m => { m with kb_data := sc }

def system : System Lock Machine Call Nat Device := ⟨call, dispatch_irq, device⟩

end Irq

end Relis.Code
