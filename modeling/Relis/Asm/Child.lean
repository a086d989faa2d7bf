import Relis.Asm.Frame
import Relis.Asm.Switch
import Relis.Process.Child
import Relis.Process.Frame

/-!
# The first switch to a new task

`sys_fork` and `kernel_thread` write the stack of a new task by hand, as if the task had
called `switch_to` before. A child also has the frame of an interrupt above it.
-/

open Relis.Bytes Relis.Stack Relis.Code Relis.Process Relis.Run Relis.Sched Relation

namespace Relis.Asm

/-! ## Pushes of C code -/

section
variable {ws : List Word} {stack : Nat → Word} {top i : Nat}

theorem foldl_push_snd (h : ws.length ≤ top) : (ws.foldl push (stack, top)).2 = top - ws.length := by
  induction ws generalizing stack top with
  | nil => rfl
  | cons w ws ih =>
    rw [List.length_cons] at h ⊢
    rw [List.foldl_cons, push, ih (by omega)]
    omega

theorem foldl_push_of_outside (h : ws.length ≤ top) (hi : i < top - ws.length ∨ top ≤ i) :
    (ws.foldl push (stack, top)).1 i = stack i := by
  induction ws generalizing stack top with
  | nil => rfl
  | cons w ws ih =>
    rw [List.length_cons] at h hi
    rw [List.foldl_cons, push, ih (by omega) (by omega)]
    exact Function.update_of_ne (by omega) _ _

theorem foldl_push_inside (h : ws.length ≤ top) {w : Word} (hi : ws[i]? = some w) :
    (ws.foldl push (stack, top)).1 (top - (i + 1)) = w := by
  induction ws generalizing stack top i with
  | nil => cases hi
  | cons v ws ih =>
    rw [List.length_cons] at h
    rw [List.foldl_cons, push]
    cases i with
    | zero =>
      cases hi
      rw [foldl_push_of_outside (by omega) (.inr (by omega))]
      exact Function.update_self _ _ _
    | succ i =>
      rw [show top - (i + 1 + 1) = top - 1 - (i + 1) by omega]
      exact ih (by omega) hi

end

/-! ## The new stacks -/

def stackWords : Nat := KERNEL_STACK_SIZE / 8

def startWords (l : Label) : List Word := [.code l, .int 0, .int 0, .int 0, .int 0, .int 0, .int 0]

structure Starts (t : Task) (p top : Nat) (l : Label) : Prop where
  rsp : t.rsp = .kernel_stack p (top - 7)
  words : ∀ i w, (startWords l)[i]? = some w → t.kernel_stack (top - (i + 1)) = w

theorem new_thread_starts (p pid : Nat) (cr3 fn arg : BitVec 64) (policy : BitVec 32) :
    Starts (new_thread p pid cr3 fn arg policy) p stackWords .thread_trampoline ∧
      (new_thread p pid cr3 fn arg policy).kernel_stack_top = .kernel_stack p stackWords ∧
      ∀ i, i < stackWords - 7 ∨ stackWords ≤ i →
        (new_thread p pid cr3 fn arg policy).kernel_stack i = .int 0 := by
  have hstack : (new_thread p pid cr3 fn arg policy).kernel_stack =
      ((startWords .thread_trampoline).foldl push (fun _ => .int 0, stackWords)).1 := by
    unfold new_thread
    split <;> rfl
  have hlen : (startWords .thread_trampoline).length ≤ stackWords := by decide
  refine ⟨⟨?_, fun i w hw => ?_⟩, ?_, fun i hi => ?_⟩
  · unfold new_thread
    split <;> rfl
  · rw [hstack]
    exact foldl_push_inside hlen hw
  · unfold new_thread
    split <;> rfl
  · rw [hstack]
    exact foldl_push_of_outside hlen hi

def childRegs : Nat := stackWords - 22

theorem fork_stack_eq (stack : Nat → Word) (regs : Registers) :
    ∃ frame, fork_stack stack regs = (startWords .isr_common_return).foldl push (frame, childRegs) ∧
      (∀ i v, ({ regs with rax := 0 } : Registers).words[i]? = some v → frame (childRegs + i) = .int v) ∧
      ∀ i, i < childRegs ∨ stackWords ≤ i → frame i = stack i := by
  have htop : KERNEL_STACK_SIZE / 8 - regs.words.length = childRegs := rfl
  have hend : childRegs + 22 = stackWords := by decide
  unfold fork_stack
  simp only [htop]
  refine ⟨_, rfl, fun i v hv => ?_, fun i hi => ?_⟩
  · rw [if_pos (Nat.le_add_right _ _), Nat.add_sub_cancel_left, hv]
  · split_ifs with hge
    · have hlen : ({ regs with rax := 0 } : Registers).words.length = 22 := rfl
      rw [List.getElem?_eq_none (by omega)]
    · rfl

theorem fork_task_starts (parent : Task) (p pid : Nat) (cr3 : BitVec 64) (regs : Registers) :
    let t := fork_task parent p pid cr3 regs
    Starts t p childRegs .isr_common_return ∧
      (∀ i v, ({ regs with rax := 0 } : Registers).words[i]? = some v →
        t.kernel_stack (childRegs + i) = .int v) ∧
      ∀ i, i < childRegs - 7 ∨ stackWords ≤ i → t.kernel_stack i = parent.kernel_stack i := by
  have hlen : (startWords .isr_common_return).length = 7 := rfl
  have hle : 7 ≤ childRegs := by decide
  have hend : childRegs + 22 = stackWords := by decide
  have hstack : (fork_task parent p pid cr3 regs).kernel_stack =
      (fork_stack parent.kernel_stack regs).1 := rfl
  have hrsp : (fork_task parent p pid cr3 regs).rsp =
      .kernel_stack p (fork_stack parent.kernel_stack regs).2 := rfl
  obtain ⟨frame, heq, hregs, hrest⟩ := fork_stack_eq parent.kernel_stack regs
  rw [heq] at hstack hrsp
  refine ⟨⟨?_, fun i w hw => ?_⟩, fun i v hv => ?_, fun i hi => ?_⟩
  · rw [hrsp, foldl_push_snd (by omega), hlen]
  · rw [hstack]
    exact foldl_push_inside (by omega) hw
  · rw [hstack, foldl_push_of_outside (by omega) (.inr (by omega)), hregs i v hv]
  · rw [hstack, foldl_push_of_outside (by omega) (by omega), hrest i (by omega)]

/-! ## Addresses -/

structure Linker where
  heap : BitVec 64
  label : Label → BitVec 64
  node : ListNode → BitVec 64
  stack_top : BitVec 64
  fits : heap.toNat + 2 ^ 23 ≤ 2 ^ 64

def Linker.task (L : Linker) (p : Nat) : BitVec 64 := L.heap + BitVec.ofNat 64 p

/-- `&p->kernel_stack[i]` -/
def Linker.stack (L : Linker) (p i : Nat) : BitVec 64 := L.task p + BitVec.ofNat 64 (160 + 8 * i)

def Linker.ptr (L : Linker) : StackPtr → BitVec 64
  | .null => 0
  | .stack_top => L.stack_top
  | .kernel_stack p i => L.stack p i

def Linker.word (L : Linker) : Word → BitVec 64
  | .int v => v
  | .node n => L.node n
  | .code l => L.label l

/-- What `switch_to` and the return from an interrupt find of a task: `rsp` and the kernel stack. -/
structure InMemory (L : Linker) (m : Mem) (p : Nat) (t : Task) : Prop where
  rsp : read64 m (L.task p).toNat = L.ptr t.rsp
  kernel_stack : ∀ i < stackWords, read64 m (L.stack p i).toNat = L.word (t.kernel_stack i)

variable {L : Linker} {m : Mem} {c : Cpu} {p prev top i j : Nat} {t : Task} {l : Label}
  {return_address : BitVec 64}

theorem stack_add (L : Linker) (p i j : Nat) :
    L.stack p i + BitVec.ofNat 64 (8 * j) = L.stack p (i + j) := by
  unfold Linker.stack
  rw [show 160 + 8 * (i + j) = 160 + 8 * i + 8 * j by omega, BitVec.ofNat_add _ (8 * j), add_assoc]

theorem stack_sub (L : Linker) (p : Nat) (h : j ≤ i) :
    L.stack p i - BitVec.ofNat 64 (8 * j) = L.stack p (i - j) := by
  rw [sub_eq_iff_eq_add, stack_add, Nat.sub_add_cancel h]

theorem task_toNat (hp : p + sizeof_task_struct.toNat ≤ 2 ^ 23) :
    (L.task p).toNat = L.heap.toNat + p := by
  have hsize : sizeof_task_struct.toNat = 17128 := rfl
  have hfits := L.fits
  unfold Linker.task
  rw [BitVec.toNat_add, BitVec.toNat_ofNat]
  omega

theorem stack_toNat (hp : p + sizeof_task_struct.toNat ≤ 2 ^ 23) (hi : i ≤ stackWords) :
    (L.stack p i).toNat = L.heap.toNat + p + 160 + 8 * i := by
  have hsize : sizeof_task_struct.toNat = 17128 := rfl
  have hwords : stackWords = 2048 := rfl
  have hfits := L.fits
  unfold Linker.stack
  rw [BitVec.toNat_add, task_toNat hp, BitVec.toNat_ofNat]
  omega

def Outside (L : Linker) (p a : Nat) : Prop :=
  a + 8 ≤ (L.task p).toNat ∨ (L.task p).toNat + sizeof_task_struct.toNat ≤ a

theorem InMemory.saved (h : InMemory L c.mem p t) (hp : p + sizeof_task_struct.toNat ≤ 2 ^ 23)
    (hstack : ∀ i < 7, Outside L p (word (c.reg .rsp) (i + 1)))
    (hprev : Outside L p (L.task prev).toNat) :
    InMemory L (savedMem c (L.task prev) return_address) p t := by
  have hsize : sizeof_task_struct.toNat = 17128 := rfl
  have hwords : stackWords = 2048 := rfl
  have hread : ∀ a, (L.task p).toNat ≤ a → a + 8 ≤ (L.task p).toNat + 17128 →
      read64 (savedMem c (L.task prev) return_address) a = read64 c.mem a := by
    intro a hlo hhi
    unfold Outside at hstack hprev
    unfold savedMem frameMem
    rw [read64_write64_ne _ _ (by omega), read64_pushed_of_apart]
    intro k hk
    have := hstack k hk
    change Apart a (word (c.reg .rsp) (k + 1))
    unfold Apart
    omega
  refine ⟨?_, fun i hi => ?_⟩
  · rw [hread _ (Nat.le_refl _) (by omega), h.rsp]
  · have hlo := stack_toNat (L := L) hp (Nat.le_of_lt hi)
    have hbase := task_toNat (L := L) hp
    rw [hread _ (by omega) (by omega), h.kernel_stack i hi]

theorem Starts.frame (h : Starts t p top l) (hmem : InMemory L m p t) (hlo : 7 ≤ top)
    (hhi : top ≤ stackWords) : Frame m (L.task p) (fresh (L.label l) (L.stack p top)) := by
  refine ⟨?_, fun i v hv => ?_⟩
  · rw [hmem.rsp, h.rsp]
    exact (stack_sub L p hlo).symm
  · obtain ⟨hi, -⟩ := List.getElem?_eq_some_iff.mp hv
    have hi' : i < 7 := hi
    obtain ⟨w, hw, hword⟩ : ∃ w, (startWords l)[i]? = some w ∧ L.word w = v := by
      have hmap : (fresh (L.label l) (L.stack p top)).words = (startWords l).map L.word := rfl
      rw [hmap, List.getElem?_map] at hv
      exact Option.map_eq_some_iff.mp hv
    change read64 m (word (L.stack p top) (i + 1)) = v
    rw [word, stack_sub L p (by omega), hmem.kernel_stack _ (by omega), h.words i w hw, hword]

/-! ## Accesses -/

theorem accesses_append (code code' : List Instr) (c : Cpu) :
    accesses (code ++ code') c = accesses code c ++ accesses code' (exec code c) := by
  induction code generalizing c with
  | nil => rfl
  | cons i code ih => rw [List.cons_append, accesses, ih, accesses, List.append_assoc, exec_cons]

theorem accesses_pops (rs : List Reg) (hrs : Reg.rsp ∉ rs) (hc : c.reg .rsp = L.stack p i) :
    ∀ a ∈ accesses (rs.map .pop) c, ∃ j < rs.length, a = L.stack p (i + j) := by
  induction rs generalizing c i with
  | nil => simp [accesses]
  | cons r rs ih =>
    rw [List.mem_cons, not_or] at hrs
    have hrsp : ((Instr.pop r).exec c).reg .rsp = L.stack p (i + 1) := by
      rw [Instr.exec, set_reg_of_ne hrs.1, Cpu.drop, set_reg_self, hc, ← stack_add]
      rfl
    intro a ha
    rw [List.map_cons, accesses, List.mem_append] at ha
    rcases ha with ha | ha
    · refine ⟨0, by simp, ?_⟩
      simpa [Instr.accesses, hc] using ha
    · obtain ⟨j, hj, rfl⟩ := ih hrs.2 hrsp a ha
      exact ⟨j + 1, by simpa using hj, by rw [Nat.add_assoc, Nat.add_comm 1]⟩

def InStack (L : Linker) (p : Nat) (a : BitVec 64) : Prop := ∃ i < stackWords, a = L.stack p i

theorem accesses_switch (hc : c.reg .rsp = L.stack p (top - 7)) (hlo : 7 ≤ top)
    (hhi : top ≤ stackWords) : ∀ a ∈ accesses (switchPops.map .pop ++ [.ret]) c, InStack L p a := by
  intro a ha
  rw [accesses_append, List.mem_append] at ha
  rcases ha with ha | ha
  · obtain ⟨j, hj, rfl⟩ := accesses_pops switchPops (by decide) hc a ha
    have hlen : switchPops.length = 6 := rfl
    exact ⟨top - 7 + j, by omega, rfl⟩
  · have hpop := popped_regs switchPops (by decide) (by decide) c
    have hrsp : (exec (switchPops.map .pop) c).reg .rsp = L.stack p (top - 7 + 6) := by
      rw [hpop.rsp, hc, ← stack_add]
      rfl
    refine ⟨top - 7 + 6, by omega, ?_⟩
    simpa [accesses, Instr.accesses, hrsp] using ha

theorem accesses_return (hc : c.reg .rsp = L.stack p childRegs) :
    ∀ a ∈ accesses isr_common_return c, InStack L p a := by
  have hend : childRegs + 22 = stackWords := by decide
  have hlen : framePops.length = 15 := rfl
  intro a ha
  rw [show isr_common_return = framePops.map .pop ++ [.add .rsp 16, .iretq] from rfl, accesses_append,
    List.mem_append] at ha
  rcases ha with ha | ha
  · obtain ⟨j, hj, rfl⟩ := accesses_pops framePops (by decide) hc a ha
    exact ⟨childRegs + j, by omega, rfl⟩
  · have hpop := popped_regs framePops (by decide) (by decide) c
    have hrsp : ((Instr.add .rsp 16).exec (exec (framePops.map .pop) c)).reg .rsp =
        L.stack p (childRegs + 17) := by
      rw [Instr.exec, set_reg_self, hpop.rsp, hc, ← stack_add, add_assoc]
      rfl
    simp only [accesses, Instr.accesses, hrsp, stack_add, List.append_nil, List.nil_append, List.mem_map,
      List.mem_range] at ha
    obtain ⟨j, hj, rfl⟩ := ha
    exact ⟨childRegs + 17 + j, by omega, rfl⟩

/-! ## Up to the first switch -/

variable {k k' : Kernel} {a : Queues}

structure SameStack (t t' : Task) : Prop where
  rsp : t'.rsp = t.rsp
  kernel_stack : t'.kernel_stack = t.kernel_stack
  kernel_stack_top : t'.kernel_stack_top = t.kernel_stack_top

theorem sameStack_of_settled {t' : Task} (h : settled t' = settled t) : SameStack t t' :=
  ⟨(congrArg Task.rsp h :), (congrArg Task.kernel_stack h :), (congrArg Task.kernel_stack_top h :)⟩

structure Alone (k : Kernel) (p : Nat) : Prop where
  sound : ∃ a, Sound k a
  known : p ∈ k.task_structs
  apart : ∀ q ∈ k.task_structs, q ≠ p → q + sizeof_task_struct.toNat ≤ p ∨
    p + sizeof_task_struct.toNat ≤ q

def Waits (p : Nat) (k k' : Kernel) : Prop := k.current_task ≠ p ∧ Goes k k'

theorem Alone.waits (h : Alone k p) (hwaits : Waits p k k') :
    Alone k' p ∧ SameStack (k.task p) (k'.task p) := by
  obtain ⟨⟨a, hsound⟩, hknown, hapart⟩ := h
  obtain ⟨hcurrent, hgoes⟩ := hwaits
  obtain ⟨a', hsound', hsub⟩ := hgoes.sound hsound
  cases hgoes with
  | work hworks =>
    have hstructs : k'.task_structs = k.task_structs := hworks.alike.task_structs
    refine ⟨⟨⟨a', hsound'⟩, hsub hknown, by rwa [hstructs]⟩, ?_⟩
    rw [hworks.others p (Ne.symm hcurrent)]
    exact ⟨rfl, rfl, rfl⟩
  | call op hstep =>
    obtain ⟨bits, -, hsettled⟩ := step_sent hsound hstep hknown fun heq => absurd heq.symm hcurrent
    have hsame : SameStack (raised bits (k.task p)) (k'.task p) := sameStack_of_settled hsettled
    refine ⟨⟨⟨a', hsound'⟩, hsub hknown, fun q hq hne => ?_⟩, hsame.rsp, hsame.kernel_stack,
      hsame.kernel_stack_top⟩
    rcases step_made hsound hstep with hstructs | ⟨hstructs, -⟩
    · rw [hstructs] at hq
      exact hapart q hq hne
    rw [hstructs, List.mem_cons] at hq
    rcases hq with rfl | hq
    · have hheap := hsound.facts.heap p (hsound.facts.task_structs ▸ hknown)
      have hsize : sizeof_task_struct.toNat = 17128 := rfl
      omega
    · exact hapart q hq hne

theorem waits_sameStack (hwaits : ReflTransGen (Waits p) k k') (h : Alone k p) :
    Alone k' p ∧ SameStack (k.task p) (k'.task p) := by
  induction hwaits with
  | refl => exact ⟨h, rfl, rfl, rfl⟩
  | tail _ hstep ih =>
    obtain ⟨halone, hsame⟩ := ih
    obtain ⟨hnext, hlast⟩ := halone.waits hstep
    exact ⟨hnext, hlast.rsp.trans hsame.rsp, hlast.kernel_stack.trans hsame.kernel_stack,
      hlast.kernel_stack_top.trans hsame.kernel_stack_top⟩

/-- The machine in the state `c` calls `switch_to` with `prev`, the task that runs, and with the
task at `p`, which has been there since `k` and has not run. Its memory holds the stack of that
task, and `prev` has a stack elsewhere. -/
def FirstSwitch (L : Linker) (k : Kernel) (p : Nat) (c : Cpu) (prev : Nat) : Prop :=
  ∃ k', ReflTransGen (Waits p) k k' ∧ k'.current_task = prev ∧ prev ≠ p ∧
    InMemory L c.mem p (k'.task p) ∧ ∀ i < 7, Outside L p (word (c.reg .rsp) (i + 1))

def onNewStack (c : Cpu) (prev next return_address : BitVec 64) : Cpu :=
  exec (.call return_address :: switch_to.take 8) ((c.set .rdi prev).set .rsi next)

theorem call_switch_to_halves (c : Cpu) (prev next return_address : BitVec 64) :
    call_switch_to c prev next return_address =
      exec (switch_to.drop 8) (onNewStack c prev next return_address) := by
  rw [call_switch_to, onNewStack, ← exec_append, List.cons_append, List.take_append_drop]

theorem onNewStack_eq (c : Cpu) (prev next return_address : BitVec 64) :
    onNewStack c prev next return_address =
    (Instr.load .rsp .rsi).exec ((Instr.store .rdi .rsp).exec
      (exec (switchPushes.map .push) (((c.set .rdi prev).set .rsi next).push return_address))) := by
  rw [onNewStack, exec_cons, exec_call, show switch_to.take 8 = switchPushes.map .push ++
    [.store .rdi .rsp, .load .rsp .rsi] from rfl, exec_append, exec_cons, exec_cons, exec_nil]

theorem FirstSwitch.enters (h : FirstSwitch L k p c prev) (halone : Alone k p) (hstarts : Starts (k.task p) p top l)
    (hlo : 7 ≤ top) (hhi : top ≤ stackWords) (return_address : BitVec 64) :
    let c1 := call_switch_to c (L.task prev) (L.task p) return_address
    context c1 c1.rip = fresh (L.label l) (L.stack p top) ∧ InMemory L c1.mem p (k.task p) ∧
      ∀ x ∈ accesses (switch_to.drop 8) (onNewStack c (L.task prev) (L.task p) return_address),
        InStack L p x := by
  obtain ⟨k', hwaits, hcurrent, hne, hmem, hstack⟩ := h
  obtain ⟨⟨⟨a, hsound⟩, hknown, hapart⟩, hsame⟩ := waits_sameStack hwaits halone
  have hsize : sizeof_task_struct.toNat = 17128 := rfl
  have hbound := hsound.facts.bound
  have hplace : ∀ q ∈ k'.task_structs, q + sizeof_task_struct.toNat ≤ 2 ^ 23 := by
    intro q hq
    have := hsound.facts.heap q (hsound.facts.task_structs ▸ hq)
    omega
  have hprev : prev ∈ k'.task_structs := by
    rw [← hcurrent, hsound.facts.task_structs]
    exact hsound.current_mem
  have houtside : Outside L p (L.task prev).toNat := by
    unfold Outside
    rw [task_toNat (hplace p hknown), task_toNat (hplace prev hprev)]
    have := hapart prev hprev hne
    omega
  have hmem' : InMemory L c.mem p (k.task p) :=
    ⟨by rw [hmem.rsp, hsame.rsp], fun i hi => by rw [hmem.kernel_stack i hi, hsame.kernel_stack]⟩
  have hsaved : InMemory L (savedMem c (L.task prev) return_address) p (k.task p) :=
    hmem'.saved (hplace p hknown) hstack houtside
  have hframe := hstarts.frame hsaved hlo hhi
  obtain ⟨hcontext, hsame'⟩ := switch_to_spec hframe
  refine ⟨hcontext, hsame' ▸ hsaved, ?_⟩
  obtain ⟨-, hrsp⟩ := switch_save c (L.task prev) (L.task p) return_address
  refine accesses_switch ?_ hlo hhi
  rw [onNewStack_eq]
  refine hrsp.trans ?_
  rw [hsaved.rsp, hstarts.rsp]
  rfl

/-! ## Both kinds of tasks -/

theorem new_alone {op : Op} (h : Sound k a) (hstep : step k op = .ok k')
    (hstructs : k'.task_structs = k.heap_ptr.toNat :: k.task_structs) :
    Alone k' k.heap_ptr.toNat := by
  obtain ⟨a', hsound', -⟩ := step_sound h hstep
  refine ⟨⟨a', hsound'⟩, by rw [hstructs]; exact List.mem_cons_self, fun q hq hne => ?_⟩
  rw [hstructs, List.mem_cons] at hq
  have hheap := h.facts.heap q (h.facts.task_structs ▸ hq.resolve_left hne)
  have hsize : sizeof_task_struct.toNat = 17128 := rfl
  omega

theorem Starts.of_same {t' : Task} (h : Starts t p top l) (hsame : SameStack t t') :
    Starts t' p top l :=
  ⟨hsame.rsp.trans h.rsp, fun i w hw => by rw [hsame.kernel_stack]; exact h.words i w hw⟩

theorem sameStack_of_core {t' : Task} (h : taskCore t' = taskCore t) : SameStack t t' :=
  sameStack_of_settled (settled_of_core h)

theorem return_loads {regs : Registers} (hmem : InMemory L c.mem p t)
    (hc : c.reg .rsp = L.stack p childRegs)
    (hregs : ∀ i v, regs.words[i]? = some v → t.kernel_stack (childRegs + i) = .int v) :
    registers (exec isr_common_return c) regs.int_no regs.err_code = loaded regs := by
  have hend : childRegs + 22 = stackWords := by decide
  have hread : Registers.read c.mem (c.reg .rsp) = regs := by
    apply read_of_words
    intro i v hv
    obtain ⟨hi, -⟩ := List.getElem?_eq_some_iff.mp hv
    have hi' : i < 22 := hi
    rw [hc, stack_add, hmem.kernel_stack _ (by omega), hregs i v hv]
    rfl
  have hleave := leave_spec (show idt 128 = some _ from rfl) c
  rwa [hread] at hleave

/-- At the first switch to it, a child goes by `isr_common_return` to the context of its parent,
with 0 in `rax`, and a thread goes to `thread_trampoline` with an empty stack. -/
theorem new_tasks_start {mm : Mm} {heap_ptr : BitVec 32} {k0 : Kernel}
    (hinit : sched_init (Kernel.boot mm heap_ptr) = .ok k0) (hbefore : ReflTransGen Goes k0 k) (L : Linker) :
    (∀ (u : Cpu) (ret : Int) (k1 : Kernel), sys_fork k (registers u 128 0) = .ok (ret, k1) → ret ≠ -1 →
      (∀ i, i < childRegs - 7 ∨ stackWords ≤ i →
        (k1.task k.heap_ptr.toNat).kernel_stack i = (k.task k.current_task).kernel_stack i) ∧
      ∀ c prev return_address, FirstSwitch L k1 k.heap_ptr.toNat c prev →
        let c1 := call_switch_to c (L.task prev) (L.task k.heap_ptr.toNat) return_address
        c1.rip = L.label .isr_common_return ∧
        registers (exec isr_common_return c1) 128 0 = { registers u 128 0 with rax := 0 } ∧
        ∀ x ∈ accesses (switch_to.drop 8) (onNewStack c (L.task prev) (L.task k.heap_ptr.toNat) return_address) ++
          accesses isr_common_return c1, InStack L k.heap_ptr.toNat x) ∧
    ∀ (fn arg : BitVec 64) (policy : BitVec 32) (ret : Int) (k1 : Kernel),
      kernel_thread k fn arg policy = .ok (ret, k1) → ret ≠ -1 →
      (∀ i, i < stackWords - 7 ∨ stackWords ≤ i → (k1.task k.heap_ptr.toNat).kernel_stack i = .int 0) ∧
      ∀ c prev return_address, FirstSwitch L k1 k.heap_ptr.toNat c prev →
        let c1 := call_switch_to c (L.task prev) (L.task k.heap_ptr.toNat) return_address
        c1.rip = L.label .thread_trampoline ∧
        c1.reg .rsp = L.ptr (k1.task k.heap_ptr.toNat).kernel_stack_top ∧
        (∀ r ∈ [Reg.rbx, .rbp, .r12, .r13, .r14, .r15], c1.reg r = 0) ∧
        ∀ x ∈ accesses (switch_to.drop 8)
          (onNewStack c (L.task prev) (L.task k.heap_ptr.toNat) return_address),
          InStack L k.heap_ptr.toNat x := by
  obtain ⟨a, hsound⟩ := goes_sound hbefore (sched_init_sound hinit).1
  constructor
  · intro u ret k1 hfork hret
    rcases sys_fork_tasks hfork (current_ne_heap hsound) with ⟨hfail, -⟩ | ⟨cr3, htasks⟩
    · exact absurd hfail hret
    have htask := htasks.task k.heap_ptr.toNat
    rw [Function.update_self] at htask
    have hsame := sameStack_of_core htask
    obtain ⟨hstarts, hregs, hrest⟩ := fork_task_starts (k.task k.current_task) k.heap_ptr.toNat
      k.next_pid cr3
      (registers u 128 0)
    have hstep : step k (.sys_fork (registers u 128 0)) = .ok k1 := by
      rw [step]
      exact map_snd_ok.mpr ⟨ret, hfork⟩
    have halone := new_alone hsound hstep htasks.task_structs
    refine ⟨fun i hi => by rw [hsame.kernel_stack, hrest i hi], fun c prev return_address hfirst => ?_⟩
    obtain ⟨hcontext, hmem, haccess⟩ :=
      hfirst.enters halone (hstarts.of_same hsame) (by decide) (by decide) return_address
    generalize call_switch_to c (L.task prev) (L.task k.heap_ptr.toNat) return_address =
      c1 at hcontext hmem ⊢
    generalize onNewStack c (L.task prev) (L.task k.heap_ptr.toNat) return_address = c2 at haccess ⊢
    have hrsp : c1.reg .rsp = L.stack k.heap_ptr.toNat childRegs := (congrArg Context.rsp hcontext :)
    refine ⟨(congrArg Context.rip hcontext :), ?_, fun x hx => ?_⟩
    · have hload := return_loads hmem hrsp fun i v hv => by rw [hsame.kernel_stack, hregs i v hv]
      refine hload.trans ?_
      unfold loaded
      simp only [registers, setWidth_selector]
    · rcases List.mem_append.mp hx with hx | hx
      · exact haccess x hx
      · exact accesses_return hrsp x hx
  · intro fn arg policy ret k1 hthread hret
    rcases kernel_thread_tasks hthread with ⟨hfail, -⟩ | ⟨files, htasks⟩
    · exact absurd hfail hret
    have htask := htasks.task k.heap_ptr.toNat
    rw [Function.update_self] at htask
    have hsame := sameStack_of_core htask
    obtain ⟨hstarts, htop, hrest⟩ := new_thread_starts k.heap_ptr.toNat k.next_pid k.mm.cr3 fn arg policy
    have hstarts1 : Starts (k1.task k.heap_ptr.toNat) k.heap_ptr.toNat stackWords .thread_trampoline :=
      ⟨hsame.rsp.trans hstarts.rsp, fun i w hw => by rw [hsame.kernel_stack]; exact hstarts.words i w hw⟩
    have hstep : step k (.kernel_thread fn arg policy) = .ok k1 := by
      rw [step]
      exact map_snd_ok.mpr ⟨ret, hthread⟩
    have halone := new_alone hsound hstep htasks.task_structs
    refine ⟨fun i hi => by rw [hsame.kernel_stack]; exact hrest i hi,
      fun c prev return_address hfirst => ?_⟩
    obtain ⟨hcontext, -, haccess⟩ := hfirst.enters halone hstarts1 (by decide)
      (Nat.le_refl _) return_address
    generalize call_switch_to c (L.task prev) (L.task k.heap_ptr.toNat) return_address = c1 at hcontext ⊢
    refine ⟨(congrArg Context.rip hcontext :), ?_, ?_, haccess⟩
    · rw [hsame.kernel_stack_top]
      exact (congrArg Context.rsp hcontext :).trans (congrArg L.ptr htop).symm
    · simp only [List.forall_mem_cons, List.not_mem_nil, false_implies, implies_true, and_true]
      exact ⟨(congrArg Context.rbx hcontext :), (congrArg Context.rbp hcontext :),
        (congrArg Context.r12 hcontext :), (congrArg Context.r13 hcontext :),
        (congrArg Context.r14 hcontext :), (congrArg Context.r15 hcontext :)⟩

/-! ## A small example -/

def holding (L : Linker) (p : Nat) (t : Task) : Mem := fun x =>
  let i := (x - (L.task p).toNat) / 8
  (if i = 0 then L.ptr t.rsp else L.word (t.kernel_stack (i - 20))).extractLsb'
    (8 * ((x - (L.task p).toNat) % 8)) 8

theorem read64_holding (L : Linker) (p : Nat) (t : Task) (i : Nat) :
    read64 (holding L p t) ((L.task p).toNat + 8 * i) =
    if i = 0 then L.ptr t.rsp else L.word (t.kernel_stack (i - 20)) := by
  have hbyte : ∀ j < 8, holding L p t ((L.task p).toNat + 8 * i + j) =
      (if i = 0 then L.ptr t.rsp else L.word (t.kernel_stack (i - 20))).extractLsb' (8 * j) 8 := by
    intro j hj
    have hsub : (L.task p).toNat + 8 * i + j - (L.task p).toNat = 8 * i + j := by omega
    unfold holding
    rw [hsub, show (8 * i + j) / 8 = i by omega, show (8 * i + j) % 8 = j by omega]
  have hfirst := hbyte 0 (by omega)
  rw [Nat.add_zero] at hfirst
  unfold read64
  rw [hfirst, hbyte 1 (by omega), hbyte 2 (by omega), hbyte 3 (by omega), hbyte 4 (by omega),
    hbyte 5 (by omega), hbyte 6 (by omega), hbyte 7 (by omega)]
  exact append_extract _

theorem inMemory_holding (hp : p + sizeof_task_struct.toNat ≤ 2 ^ 23) :
    InMemory L (holding L p t) p t := by
  refine ⟨?_, fun i hi => ?_⟩
  · exact read64_holding L p t 0
  · rw [stack_toNat hp (Nat.le_of_lt hi), ← task_toNat hp, Nat.add_assoc,
      show 160 + 8 * i = 8 * (20 + i) by omega,
      read64_holding, if_neg (by omega), Nat.add_sub_cancel_left]

def smallLinker : Linker where
  heap := 0xFFFFFFFF80200000
  label
    | .thread_trampoline => 0xFFFFFFFF80101000
    | .isr_common_return => 0xFFFFFFFF80102000
  node _ := 0
  stack_top := 0xFFFFFFFF80110000
  fits := by decide

/-- The first process forks, and the child goes to where its parent was. -/
theorem new_tasks_start_small : ∃ (k0 k k1 : Kernel) (ret : Int) (c : Cpu),
    sched_init (Kernel.boot bootMm 0) = .ok k0 ∧ ReflTransGen Goes k0 k ∧
    sys_fork k (registers idleCpu 128 0) = .ok (ret, k1) ∧ ret ≠ -1 ∧
    let c1 := call_switch_to c (smallLinker.task k1.current_task) (smallLinker.task k.heap_ptr.toNat) 0x80
    c1.rip = 0xFFFFFFFF80102000 ∧
      registers (exec isr_common_return c1) 128 0 = { registers idleCpu 128 0 with rax := 0 } := by
  obtain ⟨k0, mm, w, hinit, -, hstep, hready, hpool, -⟩ := small_process
  obtain ⟨ret, k1, hfork, hret⟩ := hready.fork (hpool.le (by decide)) (registers idleCpu 128 0)
  obtain ⟨⟨entry, k⟩, hexec, hw⟩ := bind_ok.mp hstep
  cases hw
  have hgoes : ReflTransGen Goes k0 k := by
    have hfirst := works_of_mm (sched_init_sound hinit).1 mm
    rcases exec_user_program_works (works_sound (sched_init_sound hinit).1 hfirst) hexec
      with rfl | hworks
    · exact .single (.work hfirst)
    · exact .head (.work hfirst) (.single (.work hworks))
  obtain ⟨a, hsound⟩ := hready.sound
  have hroom : k.heap_ptr.toNat + 17128 ≤ 4194304 := hready.heap
  have hsize : sizeof_task_struct.toNat = 17128 := rfl
  have hp : k.heap_ptr.toNat + sizeof_task_struct.toNat ≤ 2 ^ 23 := by omega
  have hcurrent : k1.current_task ≠ k.heap_ptr.toNat := by
    rcases sys_fork_tasks hfork (current_ne_heap hsound) with ⟨hfail, -⟩ | ⟨cr3, htasks⟩
    · exact absurd hfail hret
    · rw [htasks.current_task]
      exact current_ne_heap hsound
  obtain ⟨c, hc⟩ : ∃ c : Cpu, c = { idleCpu with
    mem := holding smallLinker k.heap_ptr.toNat (k1.task k.heap_ptr.toNat) } := ⟨_, rfl⟩
  have hfirst : FirstSwitch smallLinker k1 k.heap_ptr.toNat c k1.current_task := by
    refine ⟨k1, .refl, rfl, hcurrent, ?_, fun i hi => ?_⟩
    · rw [hc]
      exact inMemory_holding hp
    · have hrsp : c.reg .rsp = 0x1F00 := by
        rw [hc]
        rfl
      have hlow : (0x1F00 : BitVec 64).toNat = 7936 := rfl
      have hheap : smallLinker.heap.toNat = 0xFFFFFFFF80200000 := rfl
      left
      rw [hrsp, word_of_le (by omega), task_toNat hp]
      omega
  obtain ⟨hrip, hregs, -⟩ :=
    ((new_tasks_start hinit hgoes smallLinker).1 idleCpu ret k1 hfork hret).2 c _ 0x80 hfirst
  exact ⟨k0, k, k1, ret, c, hinit, hgoes, hfork, hret, hrip, hregs⟩

end Relis.Asm
