import Relis.Process.Frame
import Relis.Syscall

/-!
# Delivery of signals

A call drops the pending signals without a handler, from the lowest one on, and stops at the
first one with a handler.
-/

open Relis.Code Relis.Process Relis.Run Relis.Sched
open Relis.Syscall (Pending)

namespace Relis.Signal

variable {k k' : Kernel} {a : Queues} {t : Task} {p sig i : Nat} {regs : Registers} {bits : BitVec 64}

/-! ## Pending signals -/

/-- The lowest pending signal that has a handler. -/
structure Lowest (t : Task) (sig : Nat) : Prop where
  pending : Pending t sig
  handler : t.signal_handlers sig ≠ 0
  below : ∀ r < sig, Pending t r → t.signal_handlers r = 0

instance (t : Task) (sig : Nat) : Decidable (Lowest t sig) :=
  decidable_of_iff (Pending t sig ∧ t.signal_handlers sig ≠ 0 ∧ ∀ r < sig, Pending t r →
    t.signal_handlers r = 0)
    ⟨fun ⟨h1, h2, h3⟩ => ⟨h1, h2, h3⟩, fun h => ⟨h.pending, h.handler, h.below⟩⟩

def Fatal (t : Task) (sig : Nat) : Prop :=
  sig = RELIS_SIGKILL ∨ (sig = RELIS_SIGINT ∨ sig = RELIS_SIGHUP) ∧ t.signal_handlers sig = 0

def Calm (t : Task) : Prop := ∀ sig, Pending t sig → ¬ Fatal t sig

theorem and_sig_bit (bits : BitVec 64) (sig : Nat) :
    bits &&& sig_bit sig = 0 ↔ bits.getLsbD sig = false := by
  change bits &&& BitVec.twoPow 64 sig = 0 ↔ _
  rw [BitVec.and_twoPow]
  split_ifs with h
  · rw [h]
    refine iff_of_false (fun hzero => ?_) (by simp)
    have hbit := congrArg (BitVec.getLsbD · sig) hzero
    simp [BitVec.lt_of_getLsbD h] at hbit
  · simpa using h

theorem pending_iff : Pending t sig ↔ t.pending_signals.getLsbD sig = true := by
  rw [Pending, Ne, and_sig_bit, Bool.not_eq_false]

def above (sig : Nat) (bits : BitVec 64) : BitVec 64 := bits &&& BitVec.allOnes 64 <<< (sig + 1)

theorem getLsbD_above (sig i : Nat) (bits : BitVec 64) :
    (above sig bits).getLsbD i = (bits.getLsbD i && decide (sig < i)) := by
  unfold above
  by_cases hi : i < 64
  · rw [BitVec.getLsbD_and, BitVec.getLsbD_shiftLeft, BitVec.getLsbD_allOnes]
    by_cases hsig : sig < i
    · simp [hi, hsig]
      omega
    · simp [hsig, show i < sig + 1 by omega]
  · simp [BitVec.getLsbD_of_ge bits i (by omega)]

theorem getLsbD_clear (sig i : Nat) (bits : BitVec 64) :
    (bits &&& ~~~sig_bit sig).getLsbD i = (bits.getLsbD i && decide (i ≠ sig)) := by
  change (bits &&& ~~~BitVec.twoPow 64 sig).getLsbD i = _
  rw [BitVec.getLsbD_and, BitVec.getLsbD_not, BitVec.getLsbD_twoPow]
  by_cases hi : i < 64
  · by_cases heq : i = sig
    · simp [← heq, hi]
    · simp [heq, hi, Ne.symm heq]
  · simp [BitVec.getLsbD_of_ge bits i (by omega)]

theorem above_eq_clear (h : ∀ i, bits.getLsbD i = true → sig ≤ i) :
    above sig bits = bits &&& ~~~sig_bit sig := by
  refine BitVec.eq_of_getLsbD_eq fun i _ => ?_
  rw [getLsbD_above, getLsbD_clear]
  cases hi : bits.getLsbD i with
  | false => simp
  | true =>
    have := h i hi
    simp only [Bool.true_and, decide_eq_decide]
    omega

theorem above_clear (h : i < sig) : above sig (bits &&& ~~~sig_bit i) = above sig bits := by
  refine BitVec.eq_of_getLsbD_eq fun j _ => ?_
  rw [getLsbD_above, getLsbD_above, getLsbD_clear]
  by_cases hj : sig < j
  · simp [hj, show j ≠ i by omega]
  · simp [hj]

theorem exists_lowest (hpending : Pending t sig) (hhandler : t.signal_handlers sig ≠ 0) :
    ∃ r ≤ sig, Lowest t r := by
  induction sig using Nat.strong_induction_on with
  | _ sig ih =>
    by_cases hfirst : ∃ r < sig, Pending t r ∧ t.signal_handlers r ≠ 0
    · obtain ⟨r, hr, hp, hh⟩ := hfirst
      obtain ⟨s, hs, hlowest⟩ := ih r hr hp hh
      exact ⟨s, by omega, hlowest⟩
    · refine ⟨sig, Nat.le_refl _, hpending, hhandler, fun r hr hp => ?_⟩
      by_contra hh
      exact hfirst ⟨r, hr, hp, hh⟩

theorem Lowest.le (h : Lowest t sig) (hpending : Pending t i) (hhandler : t.signal_handlers i ≠ 0) :
    sig ≤ i := by
  by_contra hlt
  exact hhandler (h.below i (by omega) hpending)

/-! ## The loop -/

def setPending (bits : BitVec 64) (t : Task) : Task := { t with pending_signals := bits }

theorem update_setPending (k : Kernel) (p : Nat) (bits bits' : BitVec 64) :
    (k.update_task p (setPending bits)).update_task p (setPending bits') =
      k.update_task p (setPending bits') := by
  simp [Kernel.update_task, setPending]

theorem update_setPending_self (k : Kernel) (p : Nat) :
    k.update_task p (setPending (k.task p).pending_signals) = k := by
  simp [Kernel.update_task, setPending]

theorem eq_zero_of_pending (h : ∀ i, ¬ Pending t i) : t.pending_signals = 0 := by
  refine BitVec.eq_of_getLsbD_eq fun i _ => ?_
  have hi := h i
  rw [pending_iff, Bool.not_eq_true] at hi
  simpa using hi

/-- The registers and the pending signals that a call leaves, for a task that was `t` before it. -/
def Delivered (t : Task) (regs regs' : Registers) (bits : BitVec 64) : Prop :=
  (∀ sig, Lowest t sig → regs' = { regs with rip := t.signal_handlers sig } ∧
    bits = above sig t.pending_signals) ∧
  ((∀ sig, ¬ Lowest t sig) → regs' = regs ∧ bits = 0)

theorem pending_clear :
    Pending (setPending (t.pending_signals &&& ~~~sig_bit sig) t) i ↔ Pending t i ∧ i ≠ sig := by
  rw [pending_iff, pending_iff]
  change (t.pending_signals &&& ~~~sig_bit sig).getLsbD i = true ↔ _
  rw [getLsbD_clear, Bool.and_eq_true, decide_eq_true_eq]

theorem lowest_clear (hhandler : t.signal_handlers sig = 0) :
    Lowest (setPending (t.pending_signals &&& ~~~sig_bit sig) t) i ↔ Lowest t i := by
  constructor
  · intro hi
    refine ⟨(pending_clear.mp hi.pending).1, hi.handler, fun r hr hp => ?_⟩
    by_cases hsig : r = sig
    · rw [hsig, hhandler]
    · exact hi.below r hr (pending_clear.mpr ⟨hp, hsig⟩)
  · intro hi
    refine ⟨pending_clear.mpr ⟨hi.pending, ?_⟩, hi.handler,
      fun r hr hp => hi.below r hr (pending_clear.mp hp).1⟩
    rintro rfl
    exact hi.handler hhandler

theorem Delivered.of_clear {regs' : Registers} (hhandler : t.signal_handlers sig = 0)
    (hlow : ∀ i, Pending t i → sig ≤ i)
    (h : Delivered (setPending (t.pending_signals &&& ~~~sig_bit sig) t) regs regs' bits) :
    Delivered t regs regs' bits := by
  unfold Delivered at h
  simp only [lowest_clear hhandler] at h
  refine ⟨fun i hi => ?_, h.2⟩
  have hlt : sig < i := by
    have hle := hlow i hi.pending
    have hne : i ≠ sig := by
      rintro rfl
      exact hi.handler hhandler
    omega
  obtain ⟨hregs, hbits⟩ := h.1 i hi
  exact ⟨hregs, hbits.trans (above_clear hlt)⟩

theorem exit_if_false (k : Kernel) : exit_if false k = .ok (true, k) := rfl

def cleared (k : Kernel) (sig : Nat) : Kernel :=
  k.update_task k.current_task (setPending ((k.task k.current_task).pending_signals &&& ~~~sig_bit sig))

theorem task_cleared (k : Kernel) (sig : Nat) :
    (cleared k sig).task (cleared k sig).current_task =
      setPending ((k.task k.current_task).pending_signals &&& ~~~sig_bit sig)
        (k.task k.current_task) := by
  change (cleared k sig).task k.current_task = _
  rw [cleared, task_update, if_pos rfl]

theorem update_cleared (k : Kernel) (sig : Nat) (bits : BitVec 64) :
    (cleared k sig).update_task (cleared k sig).current_task (setPending bits) =
      k.update_task k.current_task (setPending bits) := update_setPending ..

theorem deliver_from_pending {sigs : List Nat} (hbit : Pending (k.task k.current_task) sig)
    (hfatal : ¬ Fatal (k.task k.current_task) sig) :
    deliver_from k regs (sig :: sigs) =
      if (k.task k.current_task).signal_handlers sig = 0 then deliver_from (cleared k sig) regs sigs
      else .ok (some { regs with rip := (k.task k.current_task).signal_handlers sig },
        cleared k sig) := by
  rw [Fatal, not_or] at hfatal
  have hclear : (k.update_task k.current_task fun t => { t with
      pending_signals := t.pending_signals &&& ~~~sig_bit sig }) = cleared k sig := rfl
  have hhandlers : ((cleared k sig).task (cleared k sig).current_task).signal_handlers =
      (k.task k.current_task).signal_handlers := by
    rw [task_cleared]
    rfl
  rw [deliver_from, if_neg hbit]
  dsimp only
  rw [hclear, decide_eq_false hfatal.1, exit_if_false]
  simp only [bind, Except.bind, Bool.not_true, Bool.false_eq_true, if_false, hhandlers]
  split_ifs with hhandler
  · have hdefault : ¬ (sig = RELIS_SIGINT ∨ sig = RELIS_SIGHUP) := fun hsig => hfatal.2 ⟨hsig, hhandler⟩
    rw [decide_eq_false hdefault, exit_if_false]
    simp only [Bool.not_true, Bool.false_eq_true, if_false]
  · rfl

theorem deliver_from_calm (lo n : Nat) (hcalm : Calm (k.task k.current_task))
    (hrange : ∀ i, Pending (k.task k.current_task) i → lo ≤ i ∧ i < lo + n) :
    ∃ regs' bits, deliver_from k regs (List.range' lo n) =
        .ok (some regs', k.update_task k.current_task (setPending bits)) ∧
      Delivered (k.task k.current_task) regs regs' bits := by
  induction n generalizing k lo with
  | zero =>
    have hnone : ∀ i, ¬ Pending (k.task k.current_task) i := by
      intro i hi
      have := hrange i hi
      omega
    refine ⟨regs, 0, ?_, fun sig hsig => absurd hsig.pending (hnone sig), fun _ => ⟨rfl, rfl⟩⟩
    rw [← eq_zero_of_pending hnone, update_setPending_self]
    rfl
  | succ n ih =>
    rw [List.range'_succ]
    by_cases hbit : Pending (k.task k.current_task) lo
    · rw [deliver_from_pending hbit (hcalm lo hbit)]
      split_ifs with hhandler
      · have hcalm1 : Calm ((cleared k lo).task (cleared k lo).current_task) := by
          intro i hi
          rw [task_cleared, pending_clear] at hi
          rw [task_cleared]
          exact hcalm i hi.1
        obtain ⟨regs', bits, hrest, hdelivered⟩ := ih (lo + 1) hcalm1 fun i hi => by
          rw [task_cleared, pending_clear] at hi
          have := hrange i hi.1
          omega
        rw [task_cleared] at hdelivered
        refine ⟨regs', bits, ?_, hdelivered.of_clear hhandler fun i hi => (hrange i hi).1⟩
        rw [hrest, update_cleared]
      · refine ⟨_, _, rfl, fun sig hsig => ?_, fun hnone => ?_⟩
        · obtain rfl : sig = lo := Nat.le_antisymm (hsig.le hbit hhandler) (hrange sig hsig.pending).1
          exact ⟨rfl, (above_eq_clear fun i hi => (hrange i (pending_iff.mpr hi)).1).symm⟩
        · obtain ⟨r, -, hr⟩ := exists_lowest hbit hhandler
          exact absurd hr (hnone r)
    · rw [deliver_from, if_pos (not_not.mp hbit)]
      refine ih (lo + 1) hcalm fun i hi => ?_
      have hne : i ≠ lo := by
        rintro rfl
        exact hbit hi
      have := hrange i hi
      omega

theorem deliver_signals_calm (hcalm : Calm (k.task k.current_task))
    (hrange : InRange (k.task k.current_task).pending_signals) (regs : Registers) :
    ∃ regs' bits, deliver_signals k regs = .ok
      (some regs', k.update_task k.current_task (setPending bits)) ∧
      Delivered (k.task k.current_task) regs regs' bits := by
  unfold deliver_signals
  split_ifs with hzero
  · refine ⟨regs, 0, ?_, fun sig hsig => ?_, fun _ => ⟨rfl, rfl⟩⟩
    · rw [← hzero, update_setPending_self]
    · exact absurd (by rw [hzero]; simp) hsig.pending
  · refine deliver_from_calm 1 (MAX_SIGNALS - 1) hcalm fun i hi => ?_
    have := hrange i (pending_iff.mp hi)
    unfold MAX_SIGNALS at this ⊢
    omega

/-! ## Only signals that there are -/

theorem settled_pending {t t' : Task} (h : settled t' = settled t) :
    t'.pending_signals = t.pending_signals :=
  (congrArg Task.pending_signals h :)

theorem settled_handlers {t t' : Task} (h : settled t' = settled t) :
    t'.signal_handlers = t.signal_handlers :=
  (congrArg Task.signal_handlers h :)

theorem sent_pending {q : Nat} (h : Sent k k' q) (hpending : Pending (k.task q) sig) :
    Pending (k'.task q) sig := by
  obtain ⟨bits, -, hsettled⟩ := h
  rw [pending_iff] at hpending ⊢
  rw [settled_pending hsettled]
  change ((k.task q).pending_signals ||| bits).getLsbD sig = true
  rw [BitVec.getLsbD_or, hpending, Bool.true_or]

theorem sent_inRange {q : Nat} (h : Sent k k' q) (hrange : InRange (k.task q).pending_signals) :
    InRange (k'.task q).pending_signals := by
  obtain ⟨bits, hbits, hsettled⟩ := h
  intro i hi
  rw [settled_pending hsettled] at hi
  change ((k.task q).pending_signals ||| bits).getLsbD i = true at hi
  rw [BitVec.getLsbD_or, Bool.or_eq_true] at hi
  exact hi.elim (hrange i) (hbits i)

theorem new_thread_pending (p pid : Nat) (cr3 fn arg : BitVec 64) (policy : BitVec 32) :
    (new_thread p pid cr3 fn arg policy).pending_signals = 0 := by
  unfold new_thread
  split <;> rfl

theorem step_new {op : Op} {q : Nat} (h : Sound k a) (hstep : step k op = .ok k')
    (hq : q ∈ k'.task_structs) (hnew : q ∉ k.task_structs) : (k'.task q).pending_signals = 0 := by
  rcases step_made h hstep with hsame | ⟨hstructs, hmade⟩
  · rw [hsame] at hq
    exact absurd hq hnew
  rw [hstructs, List.mem_cons] at hq
  obtain rfl := hq.resolve_right hnew
  rcases hmade with ⟨fn, arg, policy, files, htask⟩ | ⟨cr3, regs, htask⟩
  · rw [settled_pending htask]
    exact new_thread_pending k.heap_ptr.toNat k.next_pid k.mm.cr3 fn arg policy
  · rw [settled_pending htask]
    rfl

theorem sys_sigaction_pending (k : Kernel) (sig : Int) (handler : BitVec 64) (q : Nat) :
    ((sys_sigaction k sig handler).2.task q).pending_signals = (k.task q).pending_signals := by
  obtain ⟨handlers, htask⟩ := sys_sigaction_task k sig handler q
  rw [htask]

def Ranged (k : Kernel) : Prop :=
  (∃ a, Sound k a) ∧ ∀ q ∈ k.task_structs, InRange (k.task q).pending_signals

theorem step_ranged {op : Op} (h : Ranged k) (hstep : step k op = .ok k') : Ranged k' := by
  obtain ⟨⟨a, hsound⟩, hrange⟩ := h
  obtain ⟨a', hsound', -⟩ := step_sound hsound hstep
  refine ⟨⟨a', hsound'⟩, fun q hq => ?_⟩
  by_cases hold : q ∈ k.task_structs
  · have hq' := hrange q hold
    rcases step_task_cases hsound hstep hold with hsent | ⟨-, ⟨sig, handler, -, rfl⟩ | ⟨regs, r, -, hk⟩⟩
    · exact sent_inRange hsent hq'
    · rwa [sys_sigaction_pending]
    · obtain ⟨bits, hsettled, -⟩ := (deliver_signals_settled hk).tasks q
      intro i hi
      rw [settled_pending hsettled] at hi
      change ((k.task q).pending_signals &&& ~~~bits).getLsbD i = true at hi
      rw [BitVec.getLsbD_and, Bool.and_eq_true] at hi
      exact hq' i hi.1
  · rw [step_new hsound hstep hq hold]
    exact inRange_zero

theorem start_ranged {mm : Mm} {heap_ptr : BitVec 32}
    (hinit : sched_init (Kernel.boot mm heap_ptr) = .ok k) : Ranged k := by
  refine ⟨⟨_, (sched_init_sound hinit).1⟩, ?_⟩
  obtain ⟨k1, heap_ptr', -, hcore, -, hlist⟩ := sched_init_ok hinit
  have hadd := list_add_core hlist
  intro q hq
  have hpending : (k.task q).pending_signals = 0 := by
    rw [settled_pending (settled_of_core (core_task hadd q)), task_new]
    split_ifs
    · rfl
    · exact settled_pending (settled_of_core (core_task hcore q))
  rw [hpending]
  exact inRange_zero

/-! ## Runs -/

abbrev Taken := Kernel × Op × Kernel

def Calls (p : Nat) (x : Taken) : Prop :=
  (∃ regs, x.2.1 = .deliver_signals regs) ∧ x.1.current_task = p

instance (p : Nat) (x : Taken) : Decidable (Calls p x) :=
  match h : x.2.1 with
  | .deliver_signals regs => decidable_of_iff (x.1.current_task = p)
    ⟨fun hp => ⟨⟨regs, h⟩, hp⟩, fun hp => hp.2⟩
  | .kernel_thread .. | .sys_fork _ | .sys_kill .. | .wake_up_process
    _ | .sys_exit | .schedule | .thread_return
  | .sys_sigaction .. => isFalse fun hp => by
    obtain ⟨⟨regs, hop⟩, -⟩ := hp
    cases h.symm.trans hop

def Delivers (p sig : Nat) (x : Taken) : Prop := Calls p x ∧ Lowest (x.1.task p) sig

def Raises (p sig : Nat) (x : Taken) : Prop := ¬ Pending (x.1.task p) sig ∧ Pending (x.2.2.task p) sig

instance (p sig : Nat) (x : Taken) : Decidable (Delivers p sig x) :=
  inferInstanceAs (Decidable (_ ∧ _))

instance (p sig : Nat) (x : Taken) : Decidable (Raises p sig x) := inferInstanceAs (Decidable (_ ∧ _))

def owed (t : Task) (sig : Nat) : Nat := if Pending t sig then 1 else 0

def Placed (p : Nat) (k : Kernel) : Prop := Ranged k ∧ p ∈ k.task_structs

theorem step_placed {op : Op} (h : Placed p k) (hstep : step k op = .ok k') : Placed p k' := by
  obtain ⟨hranged, hp⟩ := h
  obtain ⟨⟨a, hsound⟩, -⟩ := id hranged
  obtain ⟨-, -, hsub⟩ := step_sound hsound hstep
  exact ⟨step_ranged hranged hstep, hsub hp⟩

theorem run_placed {mm : Mm} {heap_ptr : BitVec 32} {k0 : Kernel} {ops : List Op}
    (hinit : sched_init (Kernel.boot mm heap_ptr) = .ok k0) (hrun : run step k0 ops = .ok k)
    (hp : p ∈ k.task_structs) : Placed p k :=
  ⟨run_inv Ranged (fun _ _ _ _ => step_ranged) (start_ranged hinit) hrun, hp⟩

theorem call_pending {x : Taken} (h : Placed p x.1) (hstep : step x.1 x.2.1 = .ok x.2.2)
    (hcall : Calls p x) (hcalm : Calm (x.1.task p))
    (hhandler : (x.1.task p).signal_handlers sig ≠ 0) :
    Pending (x.2.2.task p) sig ↔ Pending (x.1.task p) sig ∧ ¬ Lowest (x.1.task p) sig := by
  obtain ⟨k, op, k'⟩ := x
  obtain ⟨⟨regs, hop⟩, hcurrent⟩ := hcall
  dsimp only at h hstep hop hcurrent hcalm hhandler ⊢
  subst hop hcurrent
  obtain ⟨regs', bits, hcalls, hdelivered⟩ := deliver_signals_calm hcalm (h.1.2 _ h.2) regs
  obtain ⟨r, hk⟩ := map_snd_ok.mp hstep
  cases hcalls.symm.trans hk
  rw [task_update, if_pos rfl, pending_iff]
  change bits.getLsbD sig = true ↔ _
  by_cases hnext : ∃ r, Lowest (k.task k.current_task) r
  · obtain ⟨r, hr⟩ := hnext
    rw [(hdelivered.1 r hr).2, getLsbD_above, Bool.and_eq_true, decide_eq_true_eq, ← pending_iff]
    refine and_congr_right fun hpending => ⟨fun hlt hsig => ?_, fun hnot => ?_⟩
    · have := hsig.le hr.pending hr.handler
      omega
    · have hle := hr.le hpending hhandler
      have hne : r ≠ sig := by
        rintro rfl
        exact hnot hr
      omega
  · rw [(hdelivered.2 fun r hr => hnext ⟨r, hr⟩).2]
    refine iff_of_false (by simp) ?_
    rintro ⟨hpending, -⟩
    obtain ⟨r, -, hr⟩ := exists_lowest hpending hhandler
    exact hnext ⟨r, hr⟩

theorem other_pending {x : Taken} (h : Placed p x.1) (hstep : step x.1 x.2.1 = .ok x.2.2)
    (hcall : ¬ Calls p x) (hpending : Pending (x.1.task p) sig) : Pending (x.2.2.task p) sig := by
  obtain ⟨k, op, k'⟩ := x
  dsimp only at h hstep hpending ⊢
  obtain ⟨⟨⟨a, hsound⟩, -⟩, hp⟩ := h
  rcases step_task_cases hsound hstep hp with
    hsent | ⟨hcurrent, ⟨s, handler, -, rfl⟩ | ⟨regs, r, rfl, -⟩⟩
  · exact sent_pending hsent hpending
  · rwa [Pending, sys_sigaction_pending]
  · exact absurd ⟨⟨regs, rfl⟩, hcurrent.symm⟩ hcall

theorem step_owed {x : Taken} (h : Placed p x.1) (hstep : step x.1 x.2.1 = .ok x.2.2)
    (hcalm : Calls p x → Calm (x.1.task p)) (hhandler : (x.1.task p).signal_handlers sig ≠ 0) :
    (if Raises p sig x then 1 else 0) + owed (x.1.task p) sig =
      (if Delivers p sig x then 1 else 0) + owed (x.2.2.task p) sig := by
  unfold Raises Delivers owed
  by_cases hcall : Calls p x
  · have hafter := call_pending h hstep hcall (hcalm hcall) hhandler
    by_cases hpending : Pending (x.1.task p) sig
    · by_cases hlowest : Lowest (x.1.task p) sig
      · simp [hafter, hpending, hlowest, hcall]
      · simp [hafter, hpending, hlowest]
    · have hlowest : ¬ Lowest (x.1.task p) sig := fun hl => hpending hl.pending
      simp [hafter, hpending, hlowest]
  · have hafter : Pending (x.1.task p) sig → Pending (x.2.2.task p) sig := other_pending h hstep hcall
    by_cases hpending : Pending (x.1.task p) sig
    · simp [hafter hpending, hpending, hcall]
    · simp [hpending, hcall]

theorem run_owed {ops : List Op} (h : Placed p k) (hrun : run step k ops = .ok k')
    (hhandler : ∀ x ∈ trace step k ops, (x.1.task p).signal_handlers sig ≠ 0)
    (hcalm : ∀ x ∈ trace step k ops, Calls p x → Calm (x.1.task p)) :
    (trace step k ops).countP (fun x => Raises p sig x) + owed (k.task p) sig =
      (trace step k ops).countP (fun x => Delivers p sig x) + owed (k'.task p) sig := by
  induction ops generalizing k with
  | nil =>
    cases hrun
    simp [trace]
  | cons op ops ih =>
    obtain ⟨k1, hstep, hrun1⟩ := bind_ok.mp hrun
    rw [trace_cons hstep, List.forall_mem_cons] at hhandler hcalm
    have hfirst := step_owed (x := (k, op, k1)) h hstep hcalm.1 hhandler.1
    have hrest := ih (step_placed h hstep) hrun1 hhandler.2 hcalm.2
    rw [trace_cons hstep, List.countP_cons, List.countP_cons]
    simp only [decide_eq_true_eq]
    dsimp only at hfirst
    omega

/-- While no fatal signal is pending, a call goes to the handler of the lowest pending signal
that has one. Such a signal is delivered once for each time that it has become pending. -/
theorem signals_delivered_once {mm : Mm} {heap_ptr : BitVec 32} {k0 : Kernel} {before ops : List Op}
    {handlers : Nat → BitVec 64} (hinit : sched_init (Kernel.boot mm heap_ptr) = .ok k0)
    (hbefore : run step k0 before = .ok k) (hp : p ∈ k.task_structs)
    (hrun : run step k ops = .ok k')
    (htable : ∀ x ∈ trace step k ops, (x.1.task p).signal_handlers = handlers)
    (hcalm : ∀ x ∈ trace step k ops, Calls p x → Calm (x.1.task p)) :
    (∀ k1 regs k2, (k1, .deliver_signals regs, k2) ∈ trace step k ops →
      k1.current_task = p → ∃ regs' bits,
      deliver_signals k1 regs =
        .ok (some regs', k1.update_task p fun t => { t with pending_signals := bits }) ∧
      (∀ sig, Lowest (k1.task p) sig →
        regs' = { regs with rip := handlers sig } ∧ bits = above sig (k1.task p).pending_signals) ∧
      ((∀ sig, ¬ Lowest (k1.task p) sig) → regs' = regs ∧ bits = 0)) ∧
    ∀ sig, handlers sig ≠ 0 →
      (∀ x ∈ trace step k ops, Pending (x.1.task p) sig → ¬ Pending (x.2.2.task p) sig →
        Delivers p sig x) ∧
      (trace step k ops).countP (fun x => Raises p sig x) + owed (k.task p) sig =
        (trace step k ops).countP (fun x => Delivers p sig x) + owed (k'.task p) sig := by
  have hstart := run_placed hinit hbefore hp
  have htrace : ∀ x ∈ trace step k ops, Placed p x.1 ∧ step x.1 x.2.1 = .ok x.2.2 :=
    trace_inv (Placed p) (fun _ _ _ => step_placed) hstart
  refine ⟨?_, fun sig hsig => ⟨?_, ?_⟩⟩
  · intro k1 regs k2 hx hcurrent
    obtain ⟨hplaced, -⟩ := htrace _ hx
    subst hcurrent
    obtain ⟨regs', bits, hcall, hdelivered⟩ :=
      deliver_signals_calm (hcalm _ hx ⟨⟨regs, rfl⟩, rfl⟩) (hplaced.1.2 _ hplaced.2) regs
    refine ⟨regs', bits, hcall, fun sig hsig => ?_, hdelivered.2⟩
    rw [← htable _ hx]
    exact hdelivered.1 sig hsig
  · intro x hx hpending hgone
    obtain ⟨hplaced, hstep⟩ := htrace x hx
    by_cases hcall : Calls p x
    · have hafter := call_pending hplaced hstep hcall (hcalm x hx hcall) (by rwa [htable x hx])
      refine ⟨hcall, ?_⟩
      by_contra hnot
      exact hgone (hafter.mpr ⟨hpending, hnot⟩)
    · exact absurd (other_pending hplaced hstep hcall hpending) hgone
  · exact run_owed hstart hrun (fun x hx => by rwa [htable x hx]) hcalm

theorem step_handlers {op : Op} (h : Placed p k) (hstep : step k op = .ok k')
    (hop : ∀ s handler, op ≠ .sys_sigaction s handler) :
    (k'.task p).signal_handlers = (k.task p).signal_handlers := by
  obtain ⟨⟨⟨a, hsound⟩, -⟩, hp⟩ := h
  rcases step_task_cases hsound hstep hp with
    ⟨bits, -, hsettled⟩ | ⟨-, ⟨s, handler, hsig, -⟩ | ⟨regs, r, -, hk⟩⟩
  · exact (settled_handlers hsettled).trans rfl
  · exact absurd hsig (hop s handler)
  · obtain ⟨bits, hsettled, -⟩ := (deliver_signals_settled hk).tasks p
    exact (settled_handlers hsettled).trans rfl

theorem trace_handlers {ops : List Op} (h : Placed p k)
    (hops : ∀ op ∈ ops, ∀ s handler, op ≠ .sys_sigaction s handler) :
    ∀ x ∈ trace step k ops, (x.1.task p).signal_handlers = (k.task p).signal_handlers := by
  induction ops generalizing k with
  | nil => simp [trace]
  | cons op ops ih =>
    rw [List.forall_mem_cons] at hops
    cases hstep : step k op with
    | error e => simp [trace, hstep]
    | ok k1 =>
      rw [trace_cons hstep, List.forall_mem_cons]
      refine ⟨rfl, ?_⟩
      rw [← step_handlers h hstep hops.1]
      exact ih (step_placed h hstep) hops.2

/-- The first thread has a handler for `SIGINT`, and gets this signal and `SIGCHLD`. -/
theorem signals_delivered_small : ∃ k0 k k', sched_init (Kernel.boot bareMm 0) = .ok k0 ∧
    run step k0 [.kernel_thread 0 0 SCHED_NORMAL, .schedule, .sys_sigaction 2 0x500000] = .ok k ∧
    run step k [.sys_kill 1 17, .sys_kill 1 2, .deliver_signals (Syscall.callRegs 0 0 0)] = .ok k' ∧
    let steps := trace step k [.sys_kill 1 17, .sys_kill 1 2, .deliver_signals (Syscall.callRegs 0 0 0)]
    steps.countP (fun x => Raises 17136 2 x) + owed (k.task 17136) 2 =
      steps.countP (fun x => Delivers 17136 2 x) + owed (k'.task 17136) 2 := by
  have hok : (sched_init (Kernel.boot bareMm 0) >>= fun k0 =>
      run step k0 [.kernel_thread 0 0 SCHED_NORMAL, .schedule, .sys_sigaction 2 0x500000] >>= fun k =>
      step k (.sys_kill 1 17) >>= fun k1 => step k1 (.sys_kill 1 2) >>= fun k2 =>
      step k2 (.deliver_signals (Syscall.callRegs 0 0 0)) >>= fun _ => pure (k, k2)).toOption.any
        fun x =>
        decide (17136 ∈ x.1.task_structs) && (x.2.task 17136).signal_handlers 2 == 0x500000 &&
          (x.2.task 17136).pending_signals == sig_bit 2 ||| sig_bit 17 := by
    decide +kernel
  obtain ⟨⟨k, k2⟩, hx, htest⟩ := exists_of_any hok
  obtain ⟨k0, hinit, hx⟩ := bind_ok.mp hx
  obtain ⟨k, hbefore, hx⟩ := bind_ok.mp hx
  obtain ⟨k1, h1, hx⟩ := bind_ok.mp hx
  obtain ⟨k2, h2, hx⟩ := bind_ok.mp hx
  obtain ⟨k', h3, hx⟩ := bind_ok.mp hx
  cases hx
  simp only [Bool.and_eq_true, decide_eq_true_eq, beq_iff_eq] at htest
  obtain ⟨⟨hp, hhandler⟩, hpending⟩ := htest
  have hcalm : Calm (k2.task 17136) := by
    intro sig hsig
    rw [pending_iff, hpending, BitVec.getLsbD_or, Bool.or_eq_true] at hsig
    unfold Fatal
    rcases hsig with h | h
    · obtain rfl := eq_of_getLsbD_sig_bit h
      rw [hhandler]
      decide
    · obtain rfl := eq_of_getLsbD_sig_bit h
      simp [RELIS_SIGKILL, RELIS_SIGINT, RELIS_SIGHUP]
  have hplaced := run_placed hinit hbefore hp
  have htrace :
      trace step k [.sys_kill 1 17, .sys_kill 1 2, .deliver_signals (Syscall.callRegs 0 0 0)] =
        [(k, .sys_kill 1 17, k1), (k1, .sys_kill 1 2, k2),
          (k2, .deliver_signals (Syscall.callRegs 0 0 0), k')] := by
    rw [trace_cons h1, trace_cons h2, trace_cons h3, trace]
  have hrun : run step k [.sys_kill 1 17, .sys_kill 1 2,
    .deliver_signals (Syscall.callRegs 0 0 0)] =
    .ok k' := bind_ok.mpr ⟨k1, h1, bind_ok.mpr ⟨k2, h2, bind_ok.mpr ⟨k', h3, rfl⟩⟩⟩
  have hhandlers :
      ∀ x ∈ trace step k [.sys_kill 1 17, .sys_kill 1 2, .deliver_signals (Syscall.callRegs 0 0 0)],
      (x.1.task 17136).signal_handlers = (k.task 17136).signal_handlers :=
    trace_handlers hplaced (by simp)
  have hfixed : (k.task 17136).signal_handlers 2 ≠ 0 := by
    have hsame := hhandlers (k2, .deliver_signals (Syscall.callRegs 0 0 0), k') (by rw [htrace]; simp)
    rw [← hsame, hhandler]
    decide
  refine ⟨k0, k, k', hinit, hbefore, hrun, ?_⟩
  refine ((signals_delivered_once hinit hbefore hp hrun hhandlers ?_).2 2 hfixed).2
  rw [htrace]
  intro x hx hcall
  simp only [List.mem_cons, List.not_mem_nil, or_false] at hx
  obtain ⟨⟨regs, hop⟩, -⟩ := hcall
  rcases hx with rfl | rfl | rfl
  · cases hop
  · cases hop
  · exact hcalm

end Relis.Signal
