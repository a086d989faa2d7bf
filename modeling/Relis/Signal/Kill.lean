import Mathlib.Logic.Relation
import Relis.Sched.Zombie
import Relis.Signal.Deliver

/-!
# `SIGKILL` and the return of `schedule`

`schedule` comes back to a task that was to exit, since it is still in its queue. The task
looks for a handler of the signal, and goes back to user code.
-/

open Relis.Code Relis.Process Relis.Run Relis.Sched Relation
open Relis.Syscall (Pending)

namespace Relis.Signal

variable {k k' : Kernel} {a : Queues} {p sig : Nat} {regs : Registers}

/-! ## The loop as single steps -/

/-- Where a task is in `deliver_signals`: at the test of a signal, at the choice of an action behind
the code for `SIGKILL`, or back in user code. -/
inductive Place
  | test (sig : Nat)
  | action (sig : Nat)
  | returned (regs : Registers)

/-- What the task does next. After a call of `schedule` it may not be the one that runs. -/
def advance (regs : Registers) (k : Kernel) : Place → Except Halt (Place × Kernel)
  | .test sig =>
    if sig < MAX_SIGNALS then
      if (k.task k.current_task).pending_signals &&& sig_bit sig = 0 then .ok (.test (sig + 1), k)
      else do
        let k := k.update_task k.current_task fun t => { t with
          pending_signals := t.pending_signals &&& ~~~sig_bit sig }
        let (_, k) ← exit_if (sig = RELIS_SIGKILL) k
        return (.action sig, k)
    else .ok (.returned regs, k)
  | .action sig =>
    let handler := (k.task k.current_task).signal_handlers sig
    if handler = 0 then do
      let (_, k) ← exit_if (sig = RELIS_SIGINT ∨ sig = RELIS_SIGHUP) k
      return (.test (sig + 1), k)
    else .ok (.returned { regs with rip := handler }, k)
  | .returned regs => .ok (.returned regs, k)

/-- The task at `p` goes on when it runs. Else another task makes a call. -/
inductive Moves (p : Nat) (regs : Registers) : Place × Kernel → Place × Kernel → Prop
  | own {pl pl' : Place} {k k' : Kernel} (hcurrent : k.current_task = p)
    (h : advance regs k pl = .ok (pl', k')) :
    Moves p regs (pl, k) (pl', k')
  | other {pl : Place} {k k' : Kernel} (op : Op) (hcurrent : k.current_task ≠ p)
    (h : step k op = .ok k') :
    Moves p regs (pl, k) (pl, k')

theorem exit_if_here {fatal here : Bool} (h : exit_if fatal k = .ok (here, k')) :
    here = true ↔ k'.current_task = k.current_task := by
  unfold exit_if at h
  split_ifs at h
  · obtain ⟨k1, -, h1⟩ := bind_ok.mp h
    cases h1
    exact decide_eq_true_iff
  · cases h
    exact iff_of_true rfl rfl

/-- The steps are those of the loop, as far as it gets without a switch. -/
theorem deliver_from_moves {n : Nat} {r : Option Registers} (hn : sig + n = MAX_SIGNALS)
    (hcurrent : k.current_task = p) (hk : deliver_from k regs (List.range' sig n) = .ok (r, k')) :
    ∃ pl, ReflTransGen (Moves p regs) (.test sig, k) (pl, k') ∧
      (∀ regs', r = some regs' → pl = .returned regs') ∧ (r = none → k'.current_task ≠ p) := by
  induction n generalizing k sig with
  | zero =>
    cases hk
    refine ⟨.returned regs, .single (.own hcurrent ?_), fun regs' h => by cases h; rfl,
      fun h => absurd h (by simp)⟩
    rw [advance, if_neg (by omega)]
  | succ n ih =>
    rw [List.range'_succ] at hk
    have hlt : sig < MAX_SIGNALS := by omega
    -- the steps of the task that runs, up to the one at which it may no longer run
    have htest : ∀ {here k1}, (k.task k.current_task).pending_signals &&& sig_bit sig ≠ 0 →
        exit_if (sig = RELIS_SIGKILL) (k.update_task k.current_task (lowered (sig_bit sig))) =
          .ok (here, k1) → Moves p regs (.test sig, k) (.action sig, k1) := by
      intro here k1 hbit hexit
      refine .own hcurrent ?_
      rw [advance, if_pos hlt, if_neg hbit]
      exact bind_ok.mpr ⟨(here, k1), hexit, rfl⟩
    have haction : ∀ {here k1 k2}, k1.current_task = p →
      (k1.task k1.current_task).signal_handlers sig = 0 →
        exit_if (sig = RELIS_SIGINT ∨ sig = RELIS_SIGHUP) k1 = .ok (here, k2) →
        Moves p regs (.action sig, k1) (.test (sig + 1), k2) := by
      intro here k1 k2 hcurrent1 hhandler hexit
      refine .own hcurrent1 ?_
      rw [advance]
      exact (if_pos hhandler).trans (bind_ok.mpr ⟨(here, k2), hexit, rfl⟩)
    cases deliver_from_cons hk with
    | skipped hbit hrest =>
      obtain ⟨pl, hmoves, hr⟩ := ih (by omega) hcurrent hrest
      refine ⟨pl, .head (.own hcurrent ?_) hmoves, hr⟩
      rw [advance, if_pos hlt, if_pos hbit]
    | killed hbit hexit =>
      refine ⟨_, .single (htest hbit hexit), fun _ h => absurd h (by simp), fun _ hback => ?_⟩
      exact Bool.false_ne_true ((exit_if_here hexit).mpr (hback.trans hcurrent.symm))
    | exited hbit hexit hhandler hexit1 =>
      have hcurrent1 := ((exit_if_here hexit).mp rfl).trans hcurrent
      refine ⟨_, .head (htest hbit hexit) (.single (haction hcurrent1 hhandler hexit1)),
        fun _ h => absurd h (by simp), fun _ hback => ?_⟩
      exact Bool.false_ne_true ((exit_if_here hexit1).mpr (hback.trans hcurrent1.symm))
    | dropped hbit hexit hhandler hexit1 hrest =>
      have hcurrent1 := ((exit_if_here hexit).mp rfl).trans hcurrent
      obtain ⟨pl, hmoves, hr⟩ := ih (by omega) (((exit_if_here hexit1).mp rfl).trans hcurrent1) hrest
      exact ⟨pl, .head (htest hbit hexit) (.head (haction hcurrent1 hhandler hexit1) hmoves), hr⟩
    | handled hbit hexit hhandler =>
      have hcurrent1 := ((exit_if_here hexit).mp rfl).trans hcurrent
      refine ⟨_, .head (htest hbit hexit) (.single (.own hcurrent1 ?_)), fun regs' h => by cases h; rfl,
        fun h => absurd h (by simp)⟩
      rw [advance]
      exact if_neg hhandler

/-! ## The queues behind it -/

theorem advance_sound {pl pl' : Place} (h : Sound k a) (hk : advance regs k pl = .ok (pl', k')) :
    ∃ a', Sound k' a' := by
  cases pl with
  | test sig =>
    rw [advance] at hk
    split_ifs at hk
    · cases hk
      exact ⟨a, h⟩
    · obtain ⟨⟨here, k1⟩, hexit, hk1⟩ := bind_ok.mp hk
      cases hk1
      have hclear : Sound (k.update_task k.current_task fun t => { t with
        pending_signals := t.pending_signals &&& ~~~sig_bit sig }) a := h.update rfl rfl rfl rfl id
      obtain ⟨here', k2, es, a', hexit', hmoved, -⟩ := exit_if_spec hclear (sig = RELIS_SIGKILL)
      cases hexit'.symm.trans hexit
      exact ⟨a', hmoved.sound⟩
    · cases hk
      exact ⟨a, h⟩
  | action sig =>
    rw [advance] at hk
    dsimp only at hk
    split_ifs at hk
    · obtain ⟨⟨here, k1⟩, hexit, hk1⟩ := bind_ok.mp hk
      cases hk1
      obtain ⟨here', k2, es, a', hexit', hmoved, -⟩ :=
        exit_if_spec h (sig = RELIS_SIGINT ∨ sig = RELIS_SIGHUP)
      cases hexit'.symm.trans hexit
      exact ⟨a', hmoved.sound⟩
    · cases hk
      exact ⟨a, h⟩
  | returned regs' =>
    cases hk
    exact ⟨a, h⟩

theorem moves_sound {x y : Place × Kernel} (hmoves : ReflTransGen (Moves p regs) x y)
    (h : ∃ a, Sound x.2 a) : ∃ a, Sound y.2 a := by
  induction hmoves with
  | refl => exact h
  | tail _ hmove ih =>
    obtain ⟨a, hsound⟩ := ih
    cases hmove with
    | own _ hk => exact advance_sound hsound hk
    | other op _ hk =>
      obtain ⟨a', hsound', -⟩ := step_sound hsound hk
      exact ⟨a', hsound'⟩

/-! ## A safe exit is the end -/

/-- The task waits in the middle of the call, and something stands in front of it for good. -/
structure Gone (p : Nat) (pl : Place) (x : Place × Kernel) : Prop where
  place : x.1 = pl
  queues : ∃ a, Sound x.2 a ∧ Buried a p ∧ a.current ≠ p

theorem buried_current {es : List Event} {a' : Queues} (hsteps : Steps a es a') (h : Buried a p)
    (hcurrent : a.current ≠ p) : a'.current ≠ p := by
  induction hsteps with
  | nil => exact hcurrent
  | cons hstep _ ih =>
    refine ih (h.step hstep) ?_
    cases hstep with
    | arrive c hp => rwa [arrive_current]
    | zombie => exact hcurrent
    | select => exact h.not_selected

theorem Gone.moves {pl : Place} {x y : Place × Kernel} (h : Gone p pl x)
    (hmove : Moves p regs x y) : Gone p pl y := by
  obtain ⟨hplace, a, hsound, hburied, hcurrent⟩ := h
  cases hmove with
  | own hp _ => exact absurd (hsound.facts.current_task.symm.trans hp) hcurrent
  | other op hp hk =>
    refine ⟨hplace, ?_⟩
    rcases step_spec hsound op with ⟨e, herr, -⟩ | ⟨k1, es, a', hok, hmoved⟩
    · cases herr.symm.trans hk
    · cases hok.symm.trans hk
      exact ⟨a', hmoved.sound, hburied.steps hmoved.steps, buried_current hmoved.steps hburied hcurrent⟩

theorem advance_sigkill (regs : Registers) (h : Sound k a)
    (hpending : Pending (k.task k.current_task) RELIS_SIGKILL) :
    ∃ k', advance regs k (.test RELIS_SIGKILL) = .ok (.action RELIS_SIGKILL, k') ∧
      Sound k' a.select := by
  have hclear : Sound (k.update_task k.current_task fun t => { t with
    pending_signals := t.pending_signals &&& ~~~sig_bit RELIS_SIGKILL }) a := h.update rfl
      rfl rfl rfl id
  obtain ⟨k', hexit, hmoved⟩ := exit_spec hclear
  refine ⟨k', ?_, hmoved.sound⟩
  rw [advance, if_pos (by decide), if_neg hpending]
  exact bind_ok.mpr ⟨(_, k'), bind_ok.mpr ⟨k', hexit, rfl⟩, rfl⟩

/-! ## An exit that is not safe comes back -/

theorem moves_until {n : Nat} (regs : Registers) (pl : Place) (h : Sound k a)
    (hn : (Queues.select^[n] a).current = p) :
    ∃ k' a', ReflTransGen (Moves p regs) (pl, k) (pl, k') ∧ Sound k' a' ∧ k'.current_task = p := by
  induction n generalizing k a with
  | zero => exact ⟨k, a, .refl, h, h.facts.current_task.trans hn⟩
  | succ n ih =>
    by_cases hcurrent : k.current_task = p
    · exact ⟨k, a, .refl, h, hcurrent⟩
    · obtain ⟨k1, hk1, hmoved⟩ := Moved.of_schedule h
      obtain ⟨k', a', hmoves, hsound, hback⟩ :=
        ih hmoved.sound (by rwa [Function.iterate_succ_apply] at hn)
      exact ⟨k', a', .head (.other .schedule hcurrent hk1) hmoves, hsound, hback⟩

theorem returns_from_test {n : Nat} (hn : sig + n = MAX_SIGNALS) (hsig : RELIS_SIGKILL < sig)
    (hcurrent : k.current_task = p) :
    ∃ regs' k', ReflTransGen (Moves p regs) (.test sig, k) (.returned regs', k') := by
  have hquiet : ∀ s, RELIS_SIGKILL < s → s ≠ RELIS_SIGKILL ∧
      ¬ (s = RELIS_SIGINT ∨ s = RELIS_SIGHUP) := by
    unfold RELIS_SIGKILL RELIS_SIGINT RELIS_SIGHUP
    omega
  induction n generalizing k sig with
  | zero =>
    refine ⟨regs, k, .single (.own hcurrent ?_)⟩
    rw [advance, if_neg (by omega)]
  | succ n ih =>
    have hlt : sig < MAX_SIGNALS := by omega
    obtain ⟨hkill, hdefault⟩ := hquiet sig hsig
    by_cases hbit : (k.task k.current_task).pending_signals &&& sig_bit sig = 0
    · obtain ⟨regs', k', hmoves⟩ := ih (show sig + 1 + n = MAX_SIGNALS by omega) (by omega) hcurrent
      refine ⟨regs', k', .head (.own hcurrent ?_) hmoves⟩
      rw [advance, if_pos hlt, if_pos hbit]
    obtain ⟨k1, hk1⟩ : ∃ k1, k1 = k.update_task k.current_task fun t => { t with
      pending_signals := t.pending_signals &&& ~~~sig_bit sig } := ⟨_, rfl⟩
    have hcurrent1 : k1.current_task = p := by
      rw [hk1]
      exact hcurrent
    have hfirst : Moves p regs (.test sig, k) (.action sig, k1) := by
      refine .own hcurrent ?_
      rw [advance, if_pos hlt, if_neg hbit, ← hk1, decide_eq_false hkill]
      rfl
    by_cases hhandler : (k1.task k1.current_task).signal_handlers sig = 0
    · obtain ⟨regs', k', hmoves⟩ := ih (show sig + 1 + n = MAX_SIGNALS by omega) (by omega) hcurrent1
      refine ⟨regs', k', .head hfirst (.head (.own hcurrent1 ?_) hmoves)⟩
      rw [advance, decide_eq_false hdefault]
      exact if_pos hhandler
    · refine ⟨{ regs with rip := (k1.task k1.current_task).signal_handlers sig }, k1,
        .head hfirst (.single (.own hcurrent1 ?_))⟩
      rw [advance]
      exact if_neg hhandler

/-- A task that has come to a pending `SIGKILL` gets back to user code exactly when its exit is
not safe. -/
theorem sigkill_is_final_iff {mm : Mm} {heap_ptr : BitVec 32} {k0 k1 : Kernel} {ops : List Op}
    (hinit : sched_init (Kernel.boot mm heap_ptr) = .ok k0) (hrun : run step k0 ops = .ok k1)
    (hloop : ReflTransGen (Moves p regs) (.test 1, k1) (.test RELIS_SIGKILL, k))
    (hcurrent : k.current_task = p) (hpending : Pending (k.task p) RELIS_SIGKILL) :
    (∀ regs' k', ¬ ReflTransGen (Moves p regs) (.test RELIS_SIGKILL, k) (.returned regs', k')) ↔
      SafeExit k := by
  obtain ⟨a, hsound⟩ := moves_sound hloop (reachable_sound hinit hrun)
  dsimp only at hsound
  subst hcurrent
  have hqueue := hsound.facts.current_task
  rw [safeExit_iff hsound]
  obtain ⟨k2, hkill, hsound2⟩ := advance_sigkill regs hsound hpending
  constructor
  · intro hnever
    by_contra hcareless
    obtain ⟨n, hn⟩ := select_returns hsound.facts.current_mem hcareless
    obtain ⟨k3, a3, hmoves, -, hback⟩ := moves_until regs (.action RELIS_SIGKILL) hsound2
      (hn.trans hqueue.symm)
    have hto3 := ReflTransGen.head (.own rfl hkill) hmoves
    -- The task runs again, behind the call of `schedule`.
    by_cases hhandler : (k3.task k3.current_task).signal_handlers RELIS_SIGKILL = 0
    · obtain ⟨regs', k', hrest⟩ := returns_from_test (show 10 + 22 = MAX_SIGNALS from rfl)
        (by decide) hback
      refine hnever regs' k' ((hto3.tail (.own hback ?_)).trans hrest)
      rw [advance, decide_eq_false (by decide)]
      exact if_pos hhandler
    · refine hnever { regs with rip := (k3.task k3.current_task).signal_handlers RELIS_SIGKILL } k3
        (hto3.tail (.own hback ?_))
      rw [advance]
      exact if_neg hhandler
  · intro hburied regs' k' hmoves
    have hgone : ∀ y, ReflTransGen (Moves k.current_task regs) (.action RELIS_SIGKILL, k2) y →
        Gone k.current_task (.action RELIS_SIGKILL) y := by
      intro y hy
      induction hy with
      | refl =>
        exact ⟨rfl, _, hsound2, hqueue ▸ hburied.step (.select a), hqueue ▸ hburied.not_selected⟩
      | tail _ hmove ih => exact ih.moves hmove
    rcases hmoves.cases_head with heq | ⟨y, hmove, hrest⟩
    · cases heq
    · cases hmove with
      | own _ hk =>
        cases hkill.symm.trans hk
        cases (hgone _ hrest).place
      | other op hne _ => exact hne rfl

theorem moves_skip {n : Nat} (regs : Registers) (hn : sig + n ≤ MAX_SIGNALS)
    (hcurrent : k.current_task = p) (hnone : ∀ i, sig ≤ i → i < sig + n → ¬ Pending (k.task p) i) :
    ReflTransGen (Moves p regs) (.test sig, k) (.test (sig + n), k) := by
  induction n generalizing sig with
  | zero => exact .refl
  | succ n ih =>
    have hfirst := hnone sig (Nat.le_refl _) (by omega)
    rw [Pending, not_not, ← hcurrent] at hfirst
    have hrest := ih (show sig + 1 + n ≤ MAX_SIGNALS by omega) fun i hlo hhi =>
      hnone i (by omega) (by omega)
    rw [show sig + (n + 1) = sig + 1 + n by omega]
    refine .head (.own hcurrent ?_) hrest
    rw [advance, if_pos (by omega), if_pos hfirst]

/-- A fair thread gets the signal after a real-time thread has come. It is not seen again. -/
theorem sigkill_final_small : ∃ k0 k, sched_init (Kernel.boot bareMm 0) = .ok k0 ∧
    run step k0 [.kernel_thread 0 0 SCHED_NORMAL, .schedule, .sys_sigaction 9 0x500000,
      .kernel_thread 0 0 SCHED_FIFO,
      .sys_kill 1 9] = .ok k ∧ k.current_task = 17136 ∧ Pending (k.task 17136) RELIS_SIGKILL ∧
    ∀ regs regs' k', ¬ ReflTransGen (Moves 17136 regs) (.test RELIS_SIGKILL, k)
      (.returned regs', k') := by
  have hok :
      (sched_init (Kernel.boot bareMm 0) >>= fun k0 =>
        run step k0 [.kernel_thread 0 0 SCHED_NORMAL, .schedule, .sys_sigaction 9 0x500000,
          .kernel_thread 0 0 SCHED_FIFO, .sys_kill 1 9]).toOption.any fun k =>
        k.current_task == 17136 && (k.task 17136).pending_signals == sig_bit 9 &&
          decide (SafeExit k) := by
    decide +kernel
  obtain ⟨k, hk, htest⟩ := exists_of_any hok
  obtain ⟨k0, hinit, hrun⟩ := bind_ok.mp hk
  simp only [Bool.and_eq_true, beq_iff_eq, decide_eq_true_eq] at htest
  obtain ⟨⟨hcurrent, hbits⟩, hsafe⟩ := htest
  have hpending : Pending (k.task 17136) RELIS_SIGKILL := by
    rw [Pending, hbits]
    decide
  refine ⟨k0, k, hinit, hrun, hcurrent, hpending, fun regs => ?_⟩
  have hskip : ReflTransGen (Moves 17136 regs) (.test 1, k) (.test RELIS_SIGKILL, k) := by
    refine moves_skip regs (show 1 + 8 ≤ MAX_SIGNALS by decide) hcurrent fun i hlo hhi hi => ?_
    rw [pending_iff, hbits] at hi
    have := eq_of_getLsbD_sig_bit hi
    omega
  exact (sigkill_is_final_iff hinit hrun hskip hcurrent hpending).mpr hsafe

/-- The only thread has a handler for `SIGKILL` and gets the signal. The zombie goes to its
handler. -/
theorem sigkill_handler_runs : ∃ k0 k k', sched_init (Kernel.boot bareMm 0) = .ok k0 ∧
    run step k0 [.kernel_thread 0 0 SCHED_NORMAL, .schedule, .sys_sigaction 9 0x500000, .sys_kill 1 9] = .ok k ∧
    deliver_signals k (Syscall.callRegs 0 0 0) = .ok (some { Syscall.callRegs 0 0 0 with rip := 0x500000 }, k') ∧
    k'.current_task = 17136 ∧ (k'.task 17136).state = .TASK_ZOMBIE := by
  have hok :
      (sched_init (Kernel.boot bareMm 0) >>= fun k0 =>
        run step k0 [.kernel_thread 0 0 SCHED_NORMAL, .schedule,
          .sys_sigaction 9 0x500000, .sys_kill 1 9] >>= fun k =>
        deliver_signals k (Syscall.callRegs 0 0 0)).toOption.any fun x =>
        x.1 == some { Syscall.callRegs 0 0 0 with rip := 0x500000 } && x.2.current_task == 17136 &&
          (x.2.task 17136).state == .TASK_ZOMBIE := by
    decide +kernel
  obtain ⟨⟨r, k'⟩, hk', htest⟩ := exists_of_any hok
  obtain ⟨k0, hinit, hk'⟩ := bind_ok.mp hk'
  obtain ⟨k, hrun, hdeliver⟩ := bind_ok.mp hk'
  simp only [Bool.and_eq_true, beq_iff_eq] at htest
  obtain ⟨⟨rfl, hcurrent⟩, hstate⟩ := htest
  exact ⟨k0, k, k', hinit, hrun, hdeliver, hcurrent, hstate⟩

end Relis.Signal
