import Relis.Sched.Run

/-!
# Tasks that have exited

No class takes a task out of its queue, so a task that exits is left alone only if another
task stands in front of it for good.
-/

open Relis.Code Relis.Dll Relis.Lists Relis.Run

namespace Relis.Sched

variable {k k' : Kernel} {a a' : Queues} {es : List Event} {p : Nat}

/-- No task is selected after it has become a zombie. -/
def ZombiesRest (history : List Event) : Prop :=
  history.Pairwise fun x y => ∀ p, x = .zombie p → y ≠ .select p

/-- The current task may exit: another real-time task is the first one, or there are
only fair tasks and it is none of them. -/
def SafeExit (k : Kernel) : Prop :=
  if list_empty k ListNode.rt_queue then
    ¬ list_empty k ListNode.cfs_queue ∧ (k.task k.current_task).sched_class ≠ .fair_sched_class
  else next k ListNode.rt_queue ≠ some (.rt_run_node k.current_task)

instance (k : Kernel) : Decidable (SafeExit k) :=
  inferInstanceAs (Decidable (if list_empty k ListNode.rt_queue then
    ¬ list_empty k ListNode.cfs_queue ∧ (k.task k.current_task).sched_class ≠ .fair_sched_class
  else next k ListNode.rt_queue ≠ some (.rt_run_node k.current_task)))

theorem safeExit_iff (h : Sound k a) : SafeExit k ↔ Buried a a.current := by
  have hrt := list_empty_spec h.rings.rt
  have hcfs := list_empty_spec h.rings.cfs
  have hnext := h.rings.rt.next_head
  rw [List.map_eq_nil_iff] at hrt hcfs
  rw [links_next] at hnext
  have hfair := h.facts.cfs a.current
  unfold SafeExit Buried
  simp only [hrt, hcfs, hnext, h.facts.current_task, h.facts.current_mem, true_and]
  split
  · rw [hfair]
    simp [h.facts.current_mem]
  · rename_i hne
    cases hlist : a.rt with
    | nil => exact absurd hlist hne
    | cons q r => simp

theorem Buried.steps (h : Buried a p) (hsteps : Steps a es a') : Buried a' p := by
  induction hsteps with
  | nil => exact h
  | cons hstep _ ih => exact ih (h.step hstep)

structure Rests (k : Kernel) (a : Queues) : Prop where
  sound : Sound k a
  rest : ZombiesRest k.history
  buried : ∀ p, .zombie p ∈ k.history → Buried a p

theorem Rests.moved (h : Rests k a) (hmoved : Moved k k' a es a')
    (hsafe : ∀ p, .zombie p ∈ es → SafeExit k) : Rests k' a' := by
  -- A task that exits in this call is the current one.
  have hnew : ∀ p, .zombie p ∈ es → Buried a p := by
    intro p hp
    rw [hmoved.zombies p hp]
    exact (safeExit_iff h.sound).mp (hsafe p hp)
  have hall : ∀ p, .zombie p ∈ k.history ++ es → Buried a p := by
    intro p hp
    rcases List.mem_append.mp hp with hp | hp
    · exact h.buried p hp
    · exact hnew p hp
  have hnever : ∀ x ∈ k.history ++ es, ∀ y ∈ es, ∀ p, x = .zombie p → y ≠ .select p := by
    rintro x hx y hy p rfl rfl
    exact (hall p hx).never_selected hmoved.steps hy
  refine ⟨hmoved.sound, ?_, ?_⟩
  · unfold ZombiesRest
    rw [hmoved.history, List.pairwise_append]
    refine ⟨h.rest, ?_, ?_⟩
    · exact List.pairwise_of_forall_mem_list fun x hx y hy => hnever x (List.mem_append_right _ hx) y hy
    · exact fun x hx y hy => hnever x (List.mem_append_left _ hx) y hy
  · intro p hp
    rw [hmoved.history] at hp
    exact (hall p hp).steps hmoved.steps

def makesZombie (k k' : Kernel) : Bool :=
  (k'.history.drop k.history.length).any fun e => match e with
    | .zombie _ => true
    | _ => false

theorem makesZombie_of_mem (hhistory : k'.history = k.history ++ es) (hp : .zombie p ∈ es) :
    makesZombie k k' = true := by
  unfold makesZombie
  rw [hhistory, List.drop_left, List.any_eq_true]
  exact ⟨_, hp, rfl⟩

/-- Every zombie of the run from `k` is made by a safe exit. -/
def exitsSafely (k : Kernel) : List Op → Bool
  | [] => true
  | op :: ops =>
    match step k op with
    | .error _ => true
    | .ok k' => (!makesZombie k k' || decide (SafeExit k)) && exitsSafely k' ops

theorem Rests.run (h : Rests k a) {ops : List Op} (hrun : run step k ops = .ok k')
    (hsafe : exitsSafely k ops = true) : ∃ a', Rests k' a' := by
  induction ops generalizing k a with
  | nil =>
    cases hrun
    exact ⟨a, h⟩
  | cons op ops ih =>
    rw [run_cons, bind_ok] at hrun
    obtain ⟨k1, hk1, hrun⟩ := hrun
    rw [exitsSafely, hk1] at hsafe
    simp only [Bool.and_eq_true, Bool.or_eq_true, Bool.not_eq_true', decide_eq_true_eq] at hsafe
    rcases step_spec h.sound op with ⟨e, herr, -⟩ | ⟨k2, es, a1, hok, hmoved⟩
    · rw [herr] at hk1
      cases hk1
    rw [hok] at hk1
    cases hk1
    refine ih (h.moved hmoved ?_) hrun hsafe.2
    intro p hp
    rcases hsafe.1 with hno | hyes
    · rw [makesZombie_of_mem hmoved.history hp] at hno
      cases hno
    · exact hyes

/-- In a run with only safe exits, no task is selected once it is a zombie. -/
theorem zombies_rest {mm : Mm} {heap_ptr : BitVec 32} {k0 k : Kernel} {ops : List Op}
    (hinit : sched_init (Kernel.boot mm heap_ptr) = .ok k0) (hrun : run step k0 ops = .ok k)
    (hsafe : exitsSafely k0 ops = true) : ZombiesRest k.history := by
  obtain ⟨hsound, hhistory⟩ := sched_init_sound hinit
  have hstart : Rests k0 (initial heap_ptr.toNat) := by
    refine ⟨hsound, ?_, ?_⟩
    · rw [hhistory]
      exact List.Pairwise.nil
    · intro p hp
      rw [hhistory] at hp
      cases hp
  obtain ⟨a, ha⟩ := hstart.run hrun hsafe
  exact ha.rest

/-- A fair thread returns after a real-time thread has come. -/
theorem zombies_rest_small :
    ∃ k0 k, sched_init (Kernel.boot bareMm 0) = .ok k0 ∧
      run step k0 [.kernel_thread 0 0 SCHED_NORMAL, .schedule, .kernel_thread 0 0 SCHED_FIFO,
        .thread_return,
        .schedule] = .ok k ∧ .zombie 17136 ∈ k.history ∧ ZombiesRest k.history := by
  have htest : (sched_init (Kernel.boot bareMm 0)).toOption.any fun k0 =>
      exitsSafely k0 [.kernel_thread 0 0 SCHED_NORMAL, .schedule, .kernel_thread 0 0 SCHED_FIFO,
        .thread_return, .schedule] &&
      (run step k0 [.kernel_thread 0 0 SCHED_NORMAL, .schedule, .kernel_thread 0 0 SCHED_FIFO,
        .thread_return, .schedule]).toOption.any fun k => .zombie 17136 ∈ k.history := by
    decide +kernel
  obtain ⟨k0, hinit, htest⟩ := exists_of_any htest
  rw [Bool.and_eq_true] at htest
  obtain ⟨k, hrun, hzombie⟩ := exists_of_any htest.2
  exact ⟨k0, k, hinit, hrun, of_decide_eq_true hzombie, zombies_rest hinit hrun htest.1⟩

/-- The first thread of `start_kernel` exits, and is selected again after the turn of the
second. -/
theorem zombie_selected :
    ∃ k0 k, sched_init (Kernel.boot bareMm 0) = .ok k0 ∧
      run step k0 [.kernel_thread 0 0 SCHED_NORMAL, .kernel_thread 0 0 SCHED_NORMAL,
        .schedule, .sys_exit,
        .schedule] = .ok k ∧
      k.history = [.arrive .fair_sched_class 17136, .arrive .fair_sched_class 34464, .select 17136,
        .zombie 17136, .select 34464, .select 17136] ∧
      ¬ ZombiesRest k.history := by
  have htest :
      (sched_init (Kernel.boot bareMm 0) >>= fun k => run step k [.kernel_thread 0 0 SCHED_NORMAL,
        .kernel_thread 0 0 SCHED_NORMAL, .schedule, .sys_exit, .schedule]).toOption.any
          fun k => k.history = [.arrive .fair_sched_class 17136, .arrive .fair_sched_class 34464,
            .select 17136, .zombie 17136, .select 34464, .select 17136] := by
    decide +kernel
  obtain ⟨k, hk, hhistory⟩ := exists_of_any htest
  rw [bind_ok] at hk
  obtain ⟨k0, hinit, hrun⟩ := hk
  rw [decide_eq_true_eq] at hhistory
  refine ⟨k0, k, hinit, hrun, hhistory, ?_⟩
  rw [hhistory]
  simp [ZombiesRest]

/-! ## No weaker condition -/

def choices (a : Queues) (n : Nat) : List Nat :=
  (List.range n).map fun i => (Queues.select^[i + 1] a).current

theorem choices_succ (a : Queues) (n : Nat) :
    choices a (n + 1) = a.select.current :: choices a.select n := by
  rw [choices, List.range_succ_eq_map, List.map_cons, List.map_map]
  rfl

theorem run_schedules (h : Sound k a) (n : Nat) :
    ∃ k', run step k (List.replicate n .schedule) = .ok k' ∧
    k'.history = k.history ++ (choices a n).map .select := by
  induction n generalizing k a with
  | zero => exact ⟨k, rfl, (List.append_nil _).symm⟩
  | succ n ih =>
    obtain ⟨k1, hk1, hmoved⟩ := Moved.of_schedule h
    obtain ⟨k2, hk2, hhistory⟩ := ih hmoved.sound
    refine ⟨k2, ?_, ?_⟩
    · rw [List.replicate_succ, run_cons, bind_ok]
      exact ⟨k1, hk1, hk2⟩
    · rw [hhistory, hmoved.history, choices_succ, List.append_assoc]
      rfl

theorem exit_comes_back (h : Sound k a) (hnot : ¬ Buried a a.current) :
    ∃ n k', run step k (.sys_exit :: List.replicate n .schedule) = .ok k' ∧
      .select a.current ∈ k'.history.drop k.history.length := by
  obtain ⟨k1, hk1, hmoved⟩ := exit_spec h
  obtain ⟨n, hn⟩ := select_returns h.facts.current_mem hnot
  obtain ⟨k2, hk2, hhistory⟩ := run_schedules hmoved.sound n
  refine ⟨n, k2, (run_cons ..).trans (bind_ok.mpr ⟨k1, hk1, hk2⟩), ?_⟩
  rw [hhistory, hmoved.history, List.append_assoc, List.drop_left]
  cases n with
  | zero => exact List.mem_cons_of_mem _ (List.mem_cons.mpr (.inl (congrArg _ hn.symm)))
  | succ n =>
    have hmem : a.current ∈ choices a.select (n + 1) :=
      List.mem_map.mpr ⟨n, List.self_mem_range_succ, hn⟩
    exact List.mem_append_right _ (List.mem_map_of_mem hmem)

/-- No later calls bring back a task whose exit is safe. After any other exit, calls of
`schedule` do. -/
theorem exit_is_final_iff {mm : Mm} {heap_ptr : BitVec 32} {k0 : Kernel} {ops : List Op}
    (hinit : sched_init (Kernel.boot mm heap_ptr) = .ok k0) (hrun : run step k0 ops = .ok k) :
    (SafeExit k ↔ ∀ later k', run step k (.sys_exit :: later) = .ok k' →
      .select k.current_task ∉ k'.history.drop k.history.length) ∧
    (¬ SafeExit k → ∃ n k', run step k (.sys_exit :: List.replicate n .schedule) = .ok k' ∧
      .select k.current_task ∈ k'.history.drop k.history.length) := by
  obtain ⟨a, h⟩ := reachable_sound hinit hrun
  rw [safeExit_iff h, h.facts.current_task]
  refine ⟨⟨?_, ?_⟩, exit_comes_back h⟩
  · intro hburied later k' hlater
    rcases run_spec h (.sys_exit :: later) with ⟨e, herr, -⟩ | ⟨k1, es, a', hok, hsteps, -, hhistory⟩
    · cases herr.symm.trans hlater
    · cases hok.symm.trans hlater
      rw [hhistory, List.drop_left]
      exact hburied.never_selected hsteps
  · intro hnever
    by_contra hnot
    obtain ⟨n, k', hback, hmem⟩ := exit_comes_back h hnot
    exact hnever _ k' hback hmem

/-- A fair thread that runs after a real-time one has come. -/
theorem preempted_exit_is_final : ∃ k0 k, sched_init (Kernel.boot bareMm 0) = .ok k0 ∧
    run step k0 [.kernel_thread 0 0 SCHED_NORMAL, .schedule, .kernel_thread 0 0 SCHED_FIFO] =
      .ok k ∧ ∀ later k', run step k (.sys_exit :: later) = .ok k' →
      .select k.current_task ∉ k'.history.drop k.history.length := by
  have htest :
      (sched_init (Kernel.boot bareMm 0) >>= fun k =>
        run step k [.kernel_thread 0 0 SCHED_NORMAL, .schedule,
          .kernel_thread 0 0 SCHED_FIFO]).toOption.any fun k => decide (SafeExit k) := by
    decide +kernel
  obtain ⟨k, hk, hsafe⟩ := exists_of_any htest
  obtain ⟨k0, hinit, hrun⟩ := bind_ok.mp hk
  exact ⟨k0, k, hinit, hrun, (exit_is_final_iff hinit hrun).1.mp (of_decide_eq_true hsafe)⟩

end Relis.Sched
