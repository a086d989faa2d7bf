import Relis.Code.Syscall
import Relis.Sched.Run

/-!
# System calls and signals

Every case of the dispatcher ends in a `return`, so the call of `deliver_signals`
behind the `switch` is never reached.
-/

open Relis.Code Relis.Run Relis.Sched

namespace Relis.Syscall

/-! ## What a return should find -/

/-- `SIGKILL` ends its task whatever the handlers are, the two others without one. -/
def Terminates (sig : Nat) : Prop := sig = RELIS_SIGKILL ∨ sig = RELIS_SIGINT ∨ sig = RELIS_SIGHUP

def Pending (t : Task) (sig : Nat) : Prop := t.pending_signals &&& sig_bit sig ≠ 0

instance (t : Task) (sig : Nat) : Decidable (Pending t sig) := inferInstanceAs (Decidable (_ ≠ _))

structure Deliverable (k : Kernel) (p sig : Nat) : Prop where
  range : 1 ≤ sig ∧ sig < MAX_SIGNALS
  pending : Pending (k.task p) sig
  action : (k.task p).signal_handlers sig ≠ 0 ∨ Terminates sig

def Terminated (k : Kernel) (p : Nat) : Prop := (k.task p).state = .TASK_ZOMBIE

/-- The return goes to the handler of a signal that was pending in `k`, or the task is over. -/
def Served (k : Kernel) (p : Nat) (regs' : Registers) (k' : Kernel) : Prop :=
  (∃ sig, Pending (k.task p) sig ∧ (k.task p).signal_handlers sig ≠ 0 ∧
    regs'.rip = (k.task p).signal_handlers sig ∧ ¬ Pending (k'.task p) sig) ∨ Terminated k' p

/-- A return of the dispatcher comes after a delivery to the task, later than the effect of
the call, and what was to be delivered at that point has been. -/
def Delivered (d : Dispatched) : Prop :=
  ∀ regs', d.regs = some regs' → d.delivered = true ∧
    ((∃ sig, Deliverable d.effect.2 d.effect.2.current_task sig) →
      Served d.effect.2 d.effect.2.current_task regs' d.kernel)

/-! ## The cases -/

def Returns (c : Except Halt (Flow × Registers × Kernel)) : Prop :=
  ∀ flow regs k, c = .ok (flow, regs, k) → flow = .returned

theorem returns_answer (regs : Registers) (r : Int) (k : Kernel) : Returns (answer regs r k) := by
  rintro flow regs' k' h
  cases h
  rfl

theorem returns_bind {α : Type} {x : Except Halt α} {f : α → Except Halt (Flow × Registers × Kernel)}
    (h : ∀ a, Returns (f a)) : Returns (x >>= f) := by
  intro flow regs k hok
  obtain ⟨a, -, ha⟩ := bind_ok.mp hok
  exact h a flow regs k ha

theorem returns_file_case (has_method : FileOperations → Bool)
    (method : FileOperations → Kernel → Nat → BitVec 64 → BitVec 64 →
      Except Halt (BitVec 64 × Kernel)) (k : Kernel) (regs : Registers) :
    Returns (file_case has_method method k regs) := by
  unfold file_case
  split
  · exact returns_answer _ _ _
  split
  · intro flow regs' k' h
    cases h
  split
  · exact returns_answer _ _ _
  split
  · apply returns_bind
    rintro ⟨n, k'⟩ flow regs' k'' h
    cases h
    rfl
  · exact returns_answer _ _ _

theorem returns_open_case (o : Outside) (k : Kernel) (regs : Registers) :
    Returns (open_case o k regs) := by
  unfold open_case
  apply returns_bind
  rintro ⟨f, k'⟩
  cases f with
  | none => exact returns_answer _ _ _
  | some f => exact returns_answer _ _ _

theorem returns_close_case (k : Kernel) (regs : Registers) : Returns (close_case k regs) := by
  unfold close_case
  dsimp only
  split
  · exact returns_answer _ _ _
  · exact returns_answer _ _ _

theorem returns_exit_case (o : Outside) (k : Kernel) (regs : Registers) :
    Returns (exit_case o k regs) := by
  unfold exit_case
  apply returns_bind
  intro k' flow regs' k'' h
  cases h
  rfl

theorem returns_ite {p : Prop} [Decidable p] {c1 c2 : Except Halt (Flow × Registers × Kernel)}
    (h1 : Returns c1) (h2 : Returns c2) : Returns (if p then c1 else c2) := by
  by_cases h : p
  · rwa [if_pos h]
  · rwa [if_neg h]

theorem syscall_switch_returns (o : Outside) (k : Kernel) (regs : Registers) :
    Returns (syscall_switch o k regs) := by
  unfold syscall_switch
  refine returns_ite (returns_file_case _ _ k regs) ?_
  refine returns_ite (returns_file_case _ _ k regs) ?_
  refine returns_ite (returns_open_case o k regs) ?_
  refine returns_ite (returns_close_case k regs) ?_
  refine returns_ite (returns_bind fun _ => returns_answer _ _ _) ?_
  refine returns_ite (returns_bind fun _ => returns_answer _ _ _) ?_
  refine returns_ite (returns_exit_case o k regs) ?_
  refine returns_ite (returns_bind fun _ => returns_answer _ _ _) ?_
  refine returns_ite (returns_answer _ _ _) ?_
  refine returns_ite (returns_bind fun _ => returns_answer _ _ _) ?_
  refine returns_ite (returns_bind fun _ => returns_answer _ _ _) ?_
  exact returns_ite (returns_bind fun _ => returns_answer _ _ _) (returns_answer _ _ _)

theorem syscall_dispatch_eq (o : Outside) (k : Kernel) (regs : Registers) :
    syscall_dispatch o k regs =
    (syscall_switch o k regs).map fun r => ⟨(r.2.1, r.2.2), false, some r.2.1, r.2.2⟩ := by
  unfold syscall_dispatch
  cases hswitch : syscall_switch o k regs with
  | error e => rfl
  | ok r =>
    obtain ⟨flow, regs', k'⟩ := r
    obtain rfl := syscall_switch_returns o k regs flow regs' k' hswitch
    rfl

theorem syscall_dispatch_spec {o : Outside} {k : Kernel} {regs : Registers} {d : Dispatched}
    (h : syscall_dispatch o k regs = .ok d) :
    d.delivered = false ∧ d.regs = some d.effect.1 ∧ d.kernel = d.effect.2 := by
  rw [syscall_dispatch_eq] at h
  cases hswitch : syscall_switch o k regs with
  | error e =>
    rw [hswitch] at h
    cases h
  | ok r =>
    rw [hswitch] at h
    cases h
    exact ⟨rfl, rfl, rfl⟩

theorem served_self_iff {k : Kernel} {p : Nat} {regs' : Registers} :
    Served k p regs' k ↔ Terminated k p := by
  constructor
  · rintro (⟨sig, hpending, -, -, hcleared⟩ | hover)
    · exact absurd hpending hcleared
    · exact hover
  · exact .inr

/-- No return of the dispatcher has delivered signals. One that was to be delivered is still
pending then, and counts as served only where the task is over. -/
theorem signals_never_delivered {o : Outside} {k : Kernel} {regs : Registers} {d : Dispatched}
    (h : syscall_dispatch o k regs = .ok d) :
    d.regs = some d.effect.1 ∧ ¬ Delivered d ∧
      ∀ sig, Deliverable d.effect.2 d.effect.2.current_task sig →
        Deliverable d.kernel d.effect.2.current_task sig ∧
        (Served d.effect.2 d.effect.2.current_task d.effect.1 d.kernel ↔
          Terminated d.kernel d.effect.2.current_task) := by
  obtain ⟨hnot, hregs, hkernel⟩ := syscall_dispatch_spec h
  refine ⟨hregs, ?_, fun sig hsig => ?_⟩
  · intro hdelivered
    rw [(hdelivered _ hregs).1] at hnot
    cases hnot
  · rw [hkernel]
    exact ⟨hsig, served_self_iff⟩

def refusing : Outside where
  resume _ k := k
  read _ k _ _ _ := .ok (-1, k)
  write _ k _ _ _ := .ok (-1, k)
  vfs_open k _ := .ok (none, k)
  sys_execve k regs _ := .ok (-1, regs, k)

def callRegs (rax rdi rsi : BitVec 64) : Registers :=
  { r15 := 0, r14 := 0, r13 := 0, r12 := 0, r11 := 0, r10 := 0, r9 := 0, r8 := 0, rbp := 0, rdi := rdi, rsi := rsi
    rdx := 0, rcx := 0, rbx := 0, rax := rax, int_no := 128, err_code := 0, rip := 0x400000, cs := 0x23
    rflags := 0x202, rsp := 0x3FFFFFF0, ss := 0x1B }

theorem signals_never_delivered_small :
    ∃ d, syscall_dispatch refusing (Kernel.boot bareMm 0) (callRegs SYS_SIGACTION 2 0x500000) =
      .ok d ∧ ¬ Delivered d := by
  have hok : (syscall_dispatch refusing (Kernel.boot bareMm 0)
      (callRegs SYS_SIGACTION 2 0x500000)).toOption.any fun _ => true := by
    decide +kernel
  obtain ⟨d, hd, -⟩ := exists_of_any hok
  exact ⟨d, hd, (signals_never_delivered hd).2.1⟩

/-- The first thread installs a handler for `SIGINT` and sends the signal to itself. It
goes back to where it was, with the signal still pending. -/
theorem signal_left_pending :
    ∃ k0 k d1 d2, sched_init (Kernel.boot bareMm 0) = .ok k0 ∧
      run step k0 [.kernel_thread 0 0 SCHED_NORMAL, .schedule] = .ok k ∧
      syscall_dispatch refusing k (callRegs SYS_SIGACTION 2 0x500000) = .ok d1 ∧
      syscall_dispatch refusing d1.kernel (callRegs SYS_KILL 1 2) = .ok d2 ∧
      d2.delivered = false ∧ d2.regs.map Registers.rip = some 0x400000 ∧
      Deliverable d2.effect.2 d2.effect.2.current_task RELIS_SIGINT ∧
      ∀ regs', ¬ Served d2.effect.2 d2.effect.2.current_task regs' d2.kernel := by
  have hok : (sched_init (Kernel.boot bareMm 0) >>= fun k0 =>
      run step k0 [.kernel_thread 0 0 SCHED_NORMAL, .schedule] >>= fun k =>
      syscall_dispatch refusing k (callRegs SYS_SIGACTION 2 0x500000) >>= fun d1 =>
      syscall_dispatch refusing d1.kernel (callRegs SYS_KILL 1 2)).toOption.any fun d2 =>
        let t := d2.effect.2.task d2.effect.2.current_task
        d2.regs.map Registers.rip == some 0x400000 && t.pending_signals == sig_bit RELIS_SIGINT &&
          t.signal_handlers RELIS_SIGINT == 0x500000 && t.state == .TASK_RUNNING := by
    decide +kernel
  obtain ⟨d2, hd2, htest⟩ := exists_of_any hok
  obtain ⟨k0, hk0, hd2⟩ := bind_ok.mp hd2
  obtain ⟨k, hk, hd2⟩ := bind_ok.mp hd2
  obtain ⟨d1, hd1, hd2⟩ := bind_ok.mp hd2
  simp only [Bool.and_eq_true, beq_iff_eq] at htest
  obtain ⟨⟨⟨hrip, hpending⟩, hhandler⟩, hstate⟩ := htest
  obtain ⟨hnot, -, hkernel⟩ := syscall_dispatch_spec hd2
  refine ⟨k0, k, d1, d2, hk0, hk, hd1, hd2, hnot, hrip, ⟨by decide, ?_, .inl ?_⟩, ?_⟩
  · unfold Pending
    rw [hpending]
    decide
  · rw [hhandler]
    decide
  · intro regs'
    rw [hkernel, served_self_iff, Terminated, hstate]
    exact TaskState.noConfusion

end Relis.Syscall
