import Relis.Sched.Run

/-!
# Turns of the fair tasks

While no real-time task is queued, each call to `__schedule` takes the first fair
task and puts it at the end, and new tasks line up behind.
-/

open Relis.Code Relis.Dll Relis.Lists Relis.Run

namespace Relis.Sched

variable {k k' : Kernel} {a a' : Queues} {es : List Event} {p : Nat} {op : Op} {ops : List Op}

def Op.isSchedule : Op → Bool
  | .schedule => true
  | _ => false

/-- `__schedule`, and the calls that make a task which is not a real-time one. A fork
makes a task of the class of its parent. -/
def Op.isFair : Op → Bool
  | .schedule => true
  | .kernel_thread _ _ policy => policyClass policy = .fair_sched_class
  | .sys_fork _ => true
  | _ => false

structure FairEvents (es : List Event) (n : Nat) : Prop where
  noRt : NoRt es
  turns : (selections es).length = n

theorem FairEvents.append {es1 es2 : List Event} {n1 n2 : Nat} (h1 : FairEvents es1 n1)
    (h2 : FairEvents es2 n2) : FairEvents (es1 ++ es2) (n1 + n2) := by
  refine ⟨?_, ?_⟩
  · intro p hp
    rcases List.mem_append.mp hp with hp | hp
    · exact h1.noRt p hp
    · exact h2.noRt p hp
  · unfold selections
    rw [List.filterMap_append, List.length_append]
    exact congrArg₂ (· + ·) h1.turns h2.turns

theorem fairEvents_spawned {c : SchedClass} (h : Sound k a) (hspawned : Spawned k k' a c)
    (hc : c ≠ .rt_sched_class) : ∃ es a', Moved k k' a es a' ∧ FairEvents es 0 := by
  rcases hspawned with ⟨-, rfl⟩ | ⟨-, harrived⟩
  · exact ⟨[], a, .quiet h rfl, by simp [NoRt], rfl⟩
  obtain ⟨p, hmoved⟩ := Moved.of_arrived harrived
  refine ⟨_, _, hmoved, ?_, rfl⟩
  intro q hq
  simp only [List.mem_singleton, Event.arrive.injEq] at hq
  exact hc hq.1.symm

theorem fair_step_spec (h : Sound k a) (hrt : a.rt = []) (hop : op.isFair = true)
    (hk : step k op = .ok k') :
    ∃ es a', Moved k k' a es a' ∧ FairEvents es (if op.isSchedule then 1 else 0) := by
  cases op with
  | schedule =>
    obtain ⟨k1, hk1, hmoved⟩ := Moved.of_schedule h
    cases hk1.symm.trans hk
    exact ⟨_, _, hmoved, by simp [NoRt], rfl⟩
  | kernel_thread fn arg policy =>
    have hclass : policyClass policy ≠ .rt_sched_class := by
      simp only [Op.isFair, decide_eq_true_eq] at hop
      simp [hop]
    obtain ⟨ret, hk⟩ := map_snd_ok.mp hk
    exact fairEvents_spawned h (kernel_thread_spawned h hk) hclass
  | sys_fork regs =>
    -- A current task of the real-time class would be in the queue.
    have hclass : (k.task k.current_task).sched_class ≠ .rt_sched_class := by
      intro hclass
      have hmem := (h.facts.rt k.current_task).mpr
        ⟨h.current_mem, hclass⟩
      rw [hrt] at hmem
      cases hmem
    obtain ⟨ret, hk⟩ := map_snd_ok.mp hk
    exact fairEvents_spawned h (sys_fork_spawned h hk) hclass
  | sys_kill pid sig => cases hop
  | wake_up_process p => cases hop
  | sys_exit => cases hop
  | thread_return => cases hop
  | sys_sigaction sig handler => cases hop
  | deliver_signals regs => cases hop

structure FairRun (k k' : Kernel) (a : Queues) (es : List Event) (n : Nat) (a' : Queues) : Prop where
  steps : Steps a es a'
  sound : Sound k' a'
  history : k'.history = k.history ++ es
  fair : FairEvents es n

theorem fair_run_spec (h : Sound k a) (hrt : a.rt = []) (hops : ∀ op ∈ ops, op.isFair = true)
    (hrun : run step k ops = .ok k') : ∃ es a', FairRun k k' a es (ops.countP Op.isSchedule) a' := by
  induction ops generalizing k a with
  | nil =>
    cases hrun
    exact ⟨[], a, .nil a, h, (List.append_nil _).symm, by simp [NoRt], rfl⟩
  | cons op ops ih =>
    rw [run_cons, bind_ok] at hrun
    obtain ⟨k1, hk1, hrun⟩ := hrun
    obtain ⟨es1, a1, hmoved, hfair1⟩ := fair_step_spec h hrt (hops op List.mem_cons_self) hk1
    have hrt1 := steps_rt hmoved.steps hrt hfair1.noRt
    obtain ⟨es2, a2, hr⟩ := ih hmoved.sound hrt1 (fun o ho => hops o (List.mem_cons_of_mem _ ho)) hrun
    refine ⟨es1 ++ es2, a2, hmoved.steps.append hr.steps, hr.sound, ?_, ?_⟩
    · rw [hr.history, hmoved.history, List.append_assoc]
    · rw [List.countP_cons, Nat.add_comm]
      exact hfair1.append hr.fair

def since (k k' : Kernel) : List Event := k'.history.drop k.history.length

theorem between_turns {q : Nat} {mid : List Nat} (h : Sound k a) (hrt : a.rt = [])
    (hops : ∀ op ∈ ops, op.isFair = true) (hrun : run step k (.schedule :: ops) = .ok k')
    (hhistory : k'.history = k.history ++ es) (hsel : selections es = p :: (mid ++ [p]))
    (hmid : p ∉ mid) (hq : q ∈ a.cfs) (hqp : q ≠ p) : mid.count q = 1 := by
  rw [run_cons, bind_ok] at hrun
  obtain ⟨k1, hk1, hrun⟩ := hrun
  obtain ⟨k2, hk2, hmoved⟩ := Moved.of_schedule h
  cases hk2.symm.trans hk1
  obtain ⟨es2, a2, hr⟩ := fair_run_spec hmoved.sound (by rw [select_rt, hrt]) hops hrun
  have hes : es = .select a.select.current :: es2 := by
    rw [hr.history, hmoved.history, List.append_assoc] at hhistory
    exact (List.append_cancel_left hhistory).symm
  subst hes
  cases hcfs : a.cfs with
  | nil =>
    rw [hcfs] at hq
    cases hq
  | cons x qs =>
    have hturn : a.select.current = x := by simp only [Queues.select, hrt, hcfs]
    have hsel' : x :: selections es2 = p :: (mid ++ [p]) := by
      rw [← hturn]
      exact hsel
    obtain ⟨rfl, hsel2⟩ := List.cons.inj hsel'
    have hsteps : Steps a (.select x :: es2) a2 := by
      rw [← hturn]
      exact hmoved.steps.append hr.steps
    obtain rfl := round hsteps hrt hr.fair.noRt h.cfs_nodup hcfs hsel2 hmid
    have hnodup := h.cfs_nodup
    rw [hcfs] at hq hnodup
    rcases List.mem_cons.mp hq with rfl | hq
    · exact absurd rfl hqp
    · exact List.count_eq_one_of_mem (List.nodup_cons.mp hnodup).2 hq

/-- The task at place `i` of the fair queue is the choice of call `i + 1`, and between two
choices of a task all others have one turn. -/
theorem fair_turns {mm : Mm} {heap_ptr : BitVec 32} {k0 k k' : Kernel} {before ops : List Op}
    {L : List Nat} (hinit : sched_init (Kernel.boot mm heap_ptr) = .ok k0)
    (hbefore : run step k0 before = .ok k) (hrt : list_empty k ListNode.rt_queue)
    (hL : Ring (links k) .cfs_queue (L.map .se_run_node)) (hops : ∀ op ∈ ops, op.isFair = true)
    (hrun : run step k ops = .ok k') :
    (selections (since k k')).length = ops.countP Op.isSchedule ∧
    (∀ i p, L[i]? = some p → p ∉ (selections (since k k')).take i ∧
      (i < (selections (since k k')).length → (selections (since k k'))[i]? = some p)) ∧
    (∃ L' : List Nat, Ring (links k') .cfs_queue (L'.map .se_run_node) ∧ L'.Nodup ∧
      L'.Perm (L ++ arrivals (since k k')) ∧ list_empty k' ListNode.rt_queue) ∧
    ∀ p mid rest, ops = .schedule :: rest → selections (since k k') = p :: (mid ++ [p]) → p ∉ mid →
      ∀ q ∈ L, q ≠ p → mid.count q = 1 := by
  obtain ⟨a, h⟩ := reachable_sound hinit hbefore
  obtain rfl : L = a.cfs := by
    refine List.map_injective_iff.mpr ?_ (hL.unique h.rings.cfs)
    intro p q hpq
    cases hpq
    rfl
  have hrt' : a.rt = [] := by simpa using (list_empty_spec h.rings.rt).mp hrt
  obtain ⟨es, a', hr⟩ := fair_run_spec h hrt' hops hrun
  have hsince : since k k' = es := by
    unfold since
    rw [hr.history, List.drop_left]
  rw [hsince]
  refine ⟨hr.fair.turns, ?_, ⟨a'.cfs, hr.sound.rings.cfs, hr.sound.cfs_nodup, ?_, ?_⟩, ?_⟩
  · intro i p hi
    exact selected_in_turn hr.steps hrt' hr.fair.noRt h.cfs_nodup hi
  · exact steps_perm hr.steps hrt' hr.fair.noRt
  · rw [list_empty_spec hr.sound.rings.rt, steps_rt hr.steps hrt' hr.fair.noRt]
    rfl
  · rintro p mid rest rfl hsel hmid q hq hqp
    exact between_turns h hrt' (fun o ho => hops o (List.mem_cons_of_mem _ ho)) hrun hr.history
      hsel hmid hq hqp

/-- Two fair tasks in the queue, and a third that arrives after the first choice. -/
theorem fair_turns_small :
    ∃ (k0 k k' : Kernel) (L : List Nat), sched_init (Kernel.boot bareMm 0) = .ok k0 ∧
      run step k0 [.kernel_thread 0 0 SCHED_NORMAL, .kernel_thread 0 0 SCHED_NORMAL] = .ok k ∧
      Ring (links k) .cfs_queue (L.map .se_run_node) ∧ L.length = 2 ∧
      run step k [.schedule, .kernel_thread 0 0 SCHED_NORMAL, .schedule, .schedule] = .ok k' ∧
      (selections (since k k')).length = 3 ∧
      ∀ (i p : Nat), L[i]? = some p → (selections (since k k'))[i]? = some p := by
  have htest : (sched_init (Kernel.boot bareMm 0) >>= fun k =>
      run step k [.kernel_thread 0 0 SCHED_NORMAL, .kernel_thread 0 0 SCHED_NORMAL]).toOption.any
        fun k =>
        list_empty k ListNode.rt_queue && k.nr_running == 2 && (run step k [.schedule,
          .kernel_thread 0 0 SCHED_NORMAL, .schedule, .schedule]).toOption.any fun _ => true := by
    decide +kernel
  obtain ⟨k, hk, htest⟩ := exists_of_any htest
  rw [bind_ok] at hk
  obtain ⟨k0, hinit, hbefore⟩ := hk
  simp only [Bool.and_eq_true, beq_iff_eq] at htest
  obtain ⟨⟨hrt, hnr⟩, htest⟩ := htest
  obtain ⟨k', hrun, -⟩ := exists_of_any htest
  obtain ⟨a, h⟩ := reachable_sound hinit hbefore
  have hlen : a.cfs.length = 2 := by
    have hrt' : a.rt = [] := by simpa using (list_empty_spec h.rings.rt).mp hrt
    have hsum := h.facts.nr_running
    rw [hnr, hrt'] at hsum
    exact hsum.symm
  obtain ⟨hturns, hplace, -, -⟩ := fair_turns hinit hbefore hrt h.rings.cfs
    (by simp [Op.isFair, policyClass, SCHED_NORMAL, SCHED_FIFO, SCHED_RR]) hrun
  refine ⟨k0, k, k', a.cfs, hinit, hbefore, h.rings.cfs, hlen, hrun, hturns, ?_⟩
  intro i p hi
  have hi' := (List.getElem?_eq_some_iff.mp hi).1
  refine (hplace i p hi).2 ?_
  rw [hturns]
  have : [Op.schedule, .kernel_thread 0 0 SCHED_NORMAL, .schedule, .schedule].countP Op.isSchedule =
      3 := rfl
  omega

end Relis.Sched
