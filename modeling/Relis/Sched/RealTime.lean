import Relis.Process.Frame
import Relis.Sched.Fair
import Relis.Sched.Zombie

/-!
# The order of real-time tasks

`enqueue_task_rt` puts a task at the front of `rt_queue`, and `pick_next_task_rt` takes the first
one and leaves it where it is.
-/

open Relis.Code Relis.Dll Relis.Lists Relis.Process Relis.Run

namespace Relis.Sched

variable {k k' : Kernel} {a a' : Queues} {es : List Event} {p q : Nat} {r : List Nat} {op : Op}

/-! ## The queue is a stack -/

def rtArrivals (es : List Event) : List Nat :=
  es.filterMap fun e => match e with
    | .arrive .rt_sched_class p => some p
    | _ => none

theorem rtArrivals_append (es es' : List Event) :
    rtArrivals (es ++ es') = rtArrivals es ++ rtArrivals es' :=
  List.filterMap_append

theorem steps_rt_stack (h : Steps a es a') : a'.rt = (rtArrivals es).reverse ++ a.rt := by
  induction h with
  | nil => rfl
  | cons hstep _ ih =>
    rw [ih]
    cases hstep with
    | arrive c hp =>
      cases c with
      | rt_sched_class => simp [rtArrivals, Queues.arrive]
      | fair_sched_class => rfl
      | idle_sched_class => rfl
    | zombie => rfl
    | select => rw [select_rt]; rfl

theorem selected_first (h : Steps a es a') (hrt : a.rt = q :: r) (hno : rtArrivals es = []) :
    ∀ p ∈ selections es, p = q := by
  induction h with
  | nil => simp [selections]
  | @cons a b c e es hstep hsteps ih =>
    cases hstep with
    | @arrive p c hp =>
      cases c with
      | rt_sched_class => cases hno
      | fair_sched_class => exact ih hrt hno
      | idle_sched_class => exact ih hrt hno
    | zombie => exact ih hrt hno
    | select =>
      change ∀ p ∈ a.select.current :: selections es, p = q
      rw [List.forall_mem_cons]
      refine ⟨?_, ih (by rw [select_rt, hrt]) hno⟩
      simp only [Queues.select, hrt]

theorem eq_of_mem_choices {n : Nat} (hrt : a.rt = q :: r) (hp : p ∈ choices a n) : p = q := by
  induction n generalizing a with
  | zero => cases hp
  | succ n ih =>
    rw [choices_succ, List.mem_cons] at hp
    rcases hp with rfl | hp
    · simp only [Queues.select, hrt]
    · exact ih (by rw [select_rt, hrt]) hp

theorem selections_select (chosen : List Nat) : selections (chosen.map .select) = chosen := by
  simp [selections, List.filterMap_map]

theorem rtArrivals_select (chosen : List Nat) : rtArrivals (chosen.map .select) = [] := by
  simp [rtArrivals]

theorem steps_tasks_length (h : Steps a es a') :
    a.tasks.length + (rtArrivals es).length ≤ a'.tasks.length := by
  induction h with
  | nil => exact le_rfl
  | @cons a b c e es hstep _ ih =>
    cases hstep with
    | @arrive p c hp =>
      have hle : (rtArrivals (.arrive c p :: es)).length ≤ (rtArrivals es).length + 1 := by
        cases c with
        | rt_sched_class => exact le_rfl
        | fair_sched_class => exact Nat.le_succ _
        | idle_sched_class => exact Nat.le_succ _
      rw [arrive_tasks, List.length_cons] at ih
      omega
    | zombie => exact ih
    | select =>
      rw [select_tasks] at ih
      exact ih

/-! ## Policies -/

def RtPolicy (k : Kernel) : Prop :=
  ∀ p ∈ k.task_structs, (k.task p).sched_class = .rt_sched_class →
    (k.task p).policy = SCHED_FIFO ∨ (k.task p).policy = SCHED_RR

theorem new_thread_policy (p pid : Nat) (cr3 fn arg : BitVec 64) (policy : BitVec 32) :
    (new_thread p pid cr3 fn arg policy).policy = policy := by
  unfold new_thread
  split <;> rfl

theorem policy_of_settled {t t' : Task} (h : settled t' = settled t) :
    t'.policy = t.policy ∧ t'.sched_class = t.sched_class :=
  ⟨(congrArg Task.policy h :), (congrArg Task.sched_class h :)⟩

theorem step_policy (h : Sound k a) (hstep : step k op = .ok k') (hq : q ∈ k.task_structs) :
    (k'.task q).policy = (k.task q).policy ∧ (k'.task q).sched_class = (k.task q).sched_class := by
  rcases step_task_cases h hstep hq with ⟨bits, -, hsettled⟩ | ⟨-,
    ⟨sig, handler, -, rfl⟩ | ⟨regs, r, -, hk⟩⟩
  · have hsame := policy_of_settled hsettled
    exact hsame
  · obtain ⟨handlers, htask⟩ := sys_sigaction_task k sig handler q
    rw [htask]
    exact ⟨rfl, rfl⟩
  · obtain ⟨bits, hsettled, -⟩ := (deliver_signals_settled hk).tasks q
    have hsame := policy_of_settled hsettled
    exact hsame

theorem RtPolicy.step (hpolicy : RtPolicy k) (h : Sound k a) (hstep : step k op = .ok k') :
    RtPolicy k' := by
  intro q hq hclass
  have hold : q ∈ k.task_structs → (k'.task q).policy = SCHED_FIFO ∨ (k'.task q).policy = SCHED_RR := by
    intro hmem
    obtain ⟨hpolicy', hclass'⟩ := step_policy h hstep hmem
    rw [hpolicy']
    exact hpolicy q hmem (hclass' ▸ hclass)
  rcases step_made h hstep with hsame | ⟨hmade, hnew⟩
  · exact hold (hsame ▸ hq)
  rw [hmade, List.mem_cons] at hq
  rcases hq with rfl | hq
  · rcases hnew with ⟨fn, arg, policy, files, hsettled⟩ | ⟨cr3, regs, hsettled⟩
    · obtain ⟨hp, hc⟩ := policy_of_settled hsettled
      rw [hp]
      rw [hc] at hclass
      dsimp only at hclass ⊢
      rw [new_thread_sched_class, policyClass, ite_eq_left_iff] at hclass
      rw [new_thread_policy]
      by_contra hnot
      cases hclass hnot
    · obtain ⟨hp, hc⟩ := policy_of_settled hsettled
      rw [hp]
      exact hpolicy k.current_task (h.facts.task_structs ▸ h.current_mem) (hc ▸ hclass)
  · exact hold hq

/-! ## Turns -/

def Before (history : List Event) (p q : Nat) : Prop := List.Sublist [p, q] (rtArrivals history)

def rrTasks (k : Kernel) (queue : List Nat) : List Nat :=
  queue.filter fun p => (k.task p).policy = SCHED_RR

/-- The tasks of `rt_queue` have their turns: `__schedule` takes none while a `SCHED_FIFO` task
that came before it is queued, and as many choices as there are `SCHED_RR` tasks, with no arrival
between them, take each of these. -/
structure InTurn (k : Kernel) (queue : List Nat) : Prop where
  ring : Ring (links k) .rt_queue (queue.map .rt_run_node)
  fifo : ∃ k', __schedule k = .ok k' ∧
    ∀ p ∈ queue, (k.task p).policy = SCHED_FIFO → ¬ Before k.history p k'.current_task
  rr : ∀ ops k', run step k ops = .ok k' → rtArrivals (since k k') = [] →
    (selections (since k k')).length = (rrTasks k queue).length →
      (selections (since k k')).Perm (rrTasks k queue)

structure Stacked (k : Kernel) (a : Queues) : Prop where
  sound : Sound k a
  policy : RtPolicy k
  order : a.rt = (rtArrivals k.history).reverse

theorem since_of_history (h : k'.history = k.history ++ es) : since k k' = es := by
  rw [since, h, List.drop_left]

theorem Stacked.policies (h : Stacked k a) (hp : p ∈ a.rt) :
    (k.task p).policy = SCHED_FIFO ∨ (k.task p).policy = SCHED_RR := by
  obtain ⟨hmem, hclass⟩ := (h.sound.facts.rt p).mp hp
  exact h.policy p (h.sound.facts.task_structs ▸ hmem) hclass

theorem Stacked.inTurn (h : Stacked k a) (hle : a.rt.length ≤ 1) : InTurn k a.rt := by
  refine ⟨h.sound.rings.rt, ?_, ?_⟩
  · obtain ⟨k', hk', hmoved⟩ := Moved.of_schedule h.sound
    refine ⟨k', hk', fun p _ _ hbefore => ?_⟩
    have hlen : 2 ≤ (rtArrivals k.history).length := hbefore.length_le
    rw [h.order, List.length_reverse] at hle
    omega
  · intro ops k' hrun hno hlen
    rcases run_spec h.sound ops with ⟨e, herr, -⟩ | ⟨k1, es, a1, hok, hsteps, -, hhistory⟩
    · cases herr.symm.trans hrun
    cases hok.symm.trans hrun
    rw [since_of_history hhistory] at hno hlen ⊢
    match hrt : a.rt, hle with
    | [], _ =>
      rw [hrt] at hlen
      rw [List.length_eq_zero_iff.mp hlen]
      exact .refl _
    | [q], _ =>
      have hfirst := selected_first hsteps hrt hno
      rw [hrt] at hlen
      unfold rrTasks at hlen ⊢
      rw [List.filter_cons, List.filter_nil] at hlen ⊢
      split_ifs at hlen ⊢
      · obtain ⟨x, hx⟩ := List.length_eq_one_iff.mp hlen
        rw [hx] at hfirst ⊢
        rw [hfirst x List.mem_cons_self]
      · rw [List.length_eq_zero_iff.mp hlen]

theorem Stacked.not_inTurn (h : Stacked k a) (hrt : a.rt = q :: p :: r) :
    ¬ ∃ queue, InTurn k queue := by
  rintro ⟨queue, hqueue, ⟨k', hk', hfifo⟩, hrr⟩
  have hsame : queue = a.rt := by
    refine List.map_injective_iff.mpr ?_ (hqueue.unique h.sound.rings.rt)
    intro x y hxy
    cases hxy
    rfl
  subst hsame
  have hp : p ∈ a.rt := by simp [hrt]
  have hne : p ≠ q := by
    have hnodup := h.sound.rt_nodup
    rw [hrt, List.nodup_cons] at hnodup
    rintro rfl
    exact hnodup.1 List.mem_cons_self
  rcases h.policies hp with hpolicy | hpolicy
  · refine hfifo p hp hpolicy ?_
    obtain ⟨k1, hk1, hmoved⟩ := Moved.of_schedule h.sound
    cases hk1.symm.trans hk'
    have hcurrent : k'.current_task = q := by
      rw [hmoved.sound.facts.current_task]
      simp only [Queues.select, hrt]
    have horder : rtArrivals k.history = r.reverse ++ [p, q] := by
      rw [← List.reverse_reverse (rtArrivals k.history), ← h.order, hrt]
      simp
    rw [hcurrent, Before, horder]
    exact List.sublist_append_right _ _
  · obtain ⟨k1, hk1, hhistory⟩ := run_schedules h.sound (rrTasks k a.rt).length
    have hlen : (choices a (rrTasks k a.rt).length).length = (rrTasks k a.rt).length := by
      rw [choices, List.length_map, List.length_range]
    have hperm := hrr _ k1 hk1 (by rw [since_of_history hhistory, rtArrivals_select])
      (by rw [since_of_history hhistory, selections_select, hlen])
    rw [since_of_history hhistory, selections_select] at hperm
    have hmem : p ∈ choices a (rrTasks k a.rt).length := by
      rw [hperm.mem_iff, rrTasks, List.mem_filter]
      exact ⟨hp, decide_eq_true hpolicy⟩
    exact hne (eq_of_mem_choices hrt hmem)

theorem Stacked.inTurn_iff (h : Stacked k a) : (∃ queue, InTurn k queue) ↔ a.rt.length ≤ 1 := by
  constructor
  · intro hturn
    by_contra hgt
    match hrt : a.rt with
    | [] => simp [hrt] at hgt
    | [q] => simp [hrt] at hgt
    | q :: p :: r => exact h.not_inTurn hrt hturn
  · intro hle
    exact ⟨a.rt, h.inTurn hle⟩

/-! ## Arrivals -/

/-- The call puts a new task on `rt_queue`, which it does only if the heap has room for a
`task_struct`. -/
def Op.addsRt (k : Kernel) : Op → Bool
  | .kernel_thread _ _ policy =>
    policyClass policy = .rt_sched_class ∧ (kmalloc k.heap_ptr sizeof_task_struct).1 ≠ none
  | .sys_fork _ =>
    (k.task k.current_task).sched_class = .rt_sched_class ∧
      (kmalloc k.heap_ptr sizeof_task_struct).1 ≠ none
  | _ => false

theorem length_rtArrivals_arrive (c : SchedClass) (p : Nat) :
    (rtArrivals [.arrive c p]).length = if c = .rt_sched_class then 1 else 0 := by
  cases c <;> rfl

theorem spawned_arrivals {c : SchedClass} (h : Sound k a) (hspawned : Spawned k k' a c) :
    ∃ es a', Moved k k' a es a' ∧ (rtArrivals es).length =
      if c = .rt_sched_class ∧ (kmalloc k.heap_ptr sizeof_task_struct).1 ≠ none then 1 else 0 := by
  rcases hspawned with ⟨hfull, rfl⟩ | ⟨hroom, harrived⟩
  · refine ⟨[], a, .quiet h rfl, ?_⟩
    rw [if_neg fun hrt => hrt.2 hfull]
    rfl
  · obtain ⟨p, hmoved⟩ := Moved.of_arrived harrived
    refine ⟨_, _, hmoved, ?_⟩
    simp only [length_rtArrivals_arrive, hroom, and_true, ne_eq, not_false_eq_true]

theorem step_arrivals (h : Sound k a) (hstep : step k op = .ok k') :
    ∃ es a', Moved k k' a es a' ∧ (rtArrivals es).length = if op.addsRt k then 1 else 0 := by
  cases op with
  | kernel_thread fn arg policy =>
    obtain ⟨ret, hk⟩ := map_snd_ok.mp hstep
    simpa only [Op.addsRt, decide_eq_true_eq] using spawned_arrivals h (kernel_thread_spawned h hk)
  | sys_fork regs =>
    obtain ⟨ret, hk⟩ := map_snd_ok.mp hstep
    simpa only [Op.addsRt, decide_eq_true_eq] using spawned_arrivals h (sys_fork_spawned h hk)
  | _ =>
    rcases step_spec h _ with ⟨e, herr, -⟩ | ⟨k1, es, a1, hok, hmoved⟩
    · cases herr.symm.trans hstep
    cases hok.symm.trans hstep
    refine ⟨es, a1, hmoved, ?_⟩
    have htasks := step_task_structs h rfl hstep
    rw [h.facts.task_structs, hmoved.sound.facts.task_structs] at htasks
    have hle := steps_tasks_length hmoved.steps
    rw [htasks] at hle
    exact Nat.le_zero.mp (Nat.le_of_add_le_add_left hle)

theorem Stacked.step (h : Stacked k a) (hstep : step k op = .ok k') :
    ∃ a', Stacked k' a' ∧ a'.rt.length = a.rt.length + if op.addsRt k then 1 else 0 := by
  obtain ⟨es, a', hmoved, hlen⟩ := step_arrivals h.sound hstep
  have hrt := steps_rt_stack hmoved.steps
  refine ⟨a', ⟨hmoved.sound, h.policy.step h.sound hstep, ?_⟩, ?_⟩
  · rw [hrt, h.order, hmoved.history, rtArrivals_append, List.reverse_append]
  · rw [hrt, List.length_append, List.length_reverse, hlen, Nat.add_comm]

theorem sched_init_stacked {mm : Mm} {heap_ptr : BitVec 32}
    (hinit : sched_init (Kernel.boot mm heap_ptr) = .ok k) :
    Stacked k (initial heap_ptr.toNat) := by
  obtain ⟨hsound, hhistory⟩ := sched_init_sound hinit
  refine ⟨hsound, ?_, ?_⟩
  · intro p hp hclass
    rw [hsound.facts.task_structs] at hp
    exact absurd ((hsound.facts.rt p).mpr ⟨hp, hclass⟩) List.not_mem_nil
  · rw [hhistory]
    rfl

/-- The real-time tasks have their turns in every state of a run just when each of them finds
`rt_queue` empty as it arrives. -/
theorem rt_turns_iff {mm : Mm} {heap_ptr : BitVec 32} {k0 : Kernel}
    (hinit : sched_init (Kernel.boot mm heap_ptr) = .ok k0) (ops : List Op) :
    ((∃ queue, InTurn k0 queue) ∧ ∀ x ∈ trace step k0 ops, ∃ queue, InTurn x.2.2 queue) ↔
      ∀ x ∈ trace step k0 ops, x.2.1.addsRt x.1 = true → list_empty x.1 ListNode.rt_queue = true := by
  have h0 := sched_init_stacked hinit
  have hturn0 : ∃ queue, InTurn k0 queue := h0.inTurn_iff.mpr (Nat.zero_le 1)
  rw [and_iff_right hturn0]
  refine trace_iff (C := fun k (op : Op) => op.addsRt k = true → list_empty k ListNode.rt_queue = true)
    (fun k => ∃ a, Stacked k a) (fun k => ∃ queue, InTurn k queue) ?_ ⟨_, h0⟩ hturn0
  rintro k op k' ⟨a, h⟩ hturn hstep
  obtain ⟨a', h', hlen⟩ := h.step hstep
  refine ⟨⟨a', h'⟩, ?_⟩
  rw [h.inTurn_iff] at hturn
  rw [h'.inTurn_iff, hlen, list_empty_spec h.sound.rings.rt, List.map_eq_nil_iff,
    ← List.length_eq_zero_iff]
  split_ifs with hadds
  · simp only [hadds, true_imp_iff]
    omega
  · simp only [hadds, Bool.false_eq_true, false_imp_iff, iff_true]
    exact hturn

/-- With one real-time task there is no order to keep. -/
theorem rt_turns_alone :
    ∃ k0 k, sched_init (Kernel.boot bareMm 0) = .ok k0 ∧
      run step k0 [.kernel_thread 0 0 SCHED_RR, .kernel_thread 0 0 SCHED_NORMAL, .schedule] = .ok k ∧
      k.history = [.arrive .rt_sched_class 17136, .arrive .fair_sched_class 34464, .select 17136] ∧
      (∃ queue, InTurn k0 queue) ∧ ∀ x ∈ trace step k0 [.kernel_thread 0 0 SCHED_RR,
        .kernel_thread 0 0 SCHED_NORMAL, .schedule], ∃ queue, InTurn x.2.2 queue := by
  have hok : (sched_init (Kernel.boot bareMm 0) >>= fun k0 => run step k0 [.kernel_thread 0 0 SCHED_RR,
      .kernel_thread 0 0 SCHED_NORMAL, .schedule] >>= fun k => .ok (k0, k)).toOption.any fun x =>
        x.2.history = [.arrive .rt_sched_class 17136, .arrive .fair_sched_class 34464, .select 17136] ∧
        ∀ y ∈ trace step x.1 [.kernel_thread 0 0 SCHED_RR, .kernel_thread 0 0 SCHED_NORMAL, .schedule],
          y.2.1.addsRt y.1 = true → list_empty y.1 ListNode.rt_queue = true := by
    decide +kernel
  obtain ⟨⟨k0, k⟩, hk, htest⟩ := exists_of_any hok
  obtain ⟨k1, hinit, hk⟩ := bind_ok.mp hk
  obtain ⟨k2, hrun, hk⟩ := bind_ok.mp hk
  cases hk
  obtain ⟨hhistory, hempty⟩ := of_decide_eq_true htest
  exact ⟨k0, k, hinit, hrun, hhistory, (rt_turns_iff hinit _).mpr hempty⟩

/-- The first of two `SCHED_FIFO` tasks is passed over for the second. -/
theorem second_fifo_first :
    ∃ k0 k k', sched_init (Kernel.boot bareMm 0) = .ok k0 ∧
      run step k0 [.kernel_thread 0 0 SCHED_FIFO, .kernel_thread 0 0 SCHED_FIFO] = .ok k ∧
      k.history = [.arrive .rt_sched_class 17136, .arrive .rt_sched_class 34464] ∧
      __schedule k = .ok k' ∧ k'.current_task = 34464 ∧ ¬ ∃ queue, InTurn k queue := by
  have hok :
      (sched_init (Kernel.boot bareMm 0) >>= fun k0 => run step k0 [.kernel_thread 0 0 SCHED_FIFO,
        .kernel_thread 0 0 SCHED_FIFO] >>= fun k => .ok (k0, k)).toOption.any fun x =>
          x.2.history = [.arrive .rt_sched_class 17136, .arrive .rt_sched_class 34464] := by
    decide +kernel
  obtain ⟨⟨k0, k⟩, hk, htest⟩ := exists_of_any hok
  obtain ⟨k1, hinit, hk⟩ := bind_ok.mp hk
  obtain ⟨k2, hrun, hk⟩ := bind_ok.mp hk
  cases hk
  have hhistory := of_decide_eq_true htest
  obtain ⟨a, h⟩ := run_inv (fun k => ∃ a, Stacked k a)
    (fun op _ k k' ⟨a, h⟩ hstep => (h.step hstep).imp fun a' h' => h'.1)
      ⟨_, sched_init_stacked hinit⟩ hrun
  have hrt : a.rt = [34464, 17136] := by
    rw [h.order, hhistory]
    rfl
  obtain ⟨k', hk', hmoved⟩ := Moved.of_schedule h.sound
  refine ⟨k0, k, k', hinit, hrun, hhistory, hk', ?_, h.not_inTurn hrt⟩
  rw [hmoved.sound.facts.current_task]
  simp only [Queues.select, hrt]

end Relis.Sched
