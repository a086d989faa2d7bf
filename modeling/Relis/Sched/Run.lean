import Relis.Sched.Inv

/-!
# Runs of the scheduler

A run is a list of calls after `sched_init`, each made by whichever task is current.
-/

open Relis.Bytes Relis.Code Relis.Dll Relis.Lists Relis.Run Relis.Slab

namespace Relis.Sched

inductive Op
  | kernel_thread (fn arg : BitVec 64) (policy : BitVec 32)
  | sys_fork (regs : Registers)
  | sys_kill (pid : Nat) (sig : Int)
  | wake_up_process (p : Option Nat)
  | sys_exit
  | schedule
  | thread_return
  | sys_sigaction (sig : Int) (handler : BitVec 64)
  | deliver_signals (regs : Registers)

/-- A call to `wake_up_process` needs a pointer to a task. -/
def step (k : Kernel) : Op → Except Halt Kernel
  | .kernel_thread fn arg policy => Prod.snd <$> kernel_thread k fn arg policy
  | .sys_fork regs => Prod.snd <$> sys_fork k regs
  | .sys_kill pid sig => Prod.snd <$> sys_kill k pid sig
  | .wake_up_process p => if p.all (· ∈ k.task_structs) then wake_up_process k p else .error .no_task
  | .sys_exit => schedule (set_zombie k)
  | .schedule => __schedule k
  | .thread_return => thread_trampoline_end k
  | .sys_sigaction sig handler => .ok (sys_sigaction k sig handler).2
  | .deliver_signals regs => Prod.snd <$> deliver_signals k regs

variable {k k' k1 k2 : Kernel} {a a' a1 a2 : Queues} {es es1 es2 : List Event} {p : Nat}

/-- The call went from `k` to `k'` by the steps `es`. Only the task that made it may have exited. -/
structure Moved (k k' : Kernel) (a : Queues) (es : List Event) (a' : Queues) : Prop where
  steps : Steps a es a'
  sound : Sound k' a'
  history : k'.history = k.history ++ es
  zombies : ∀ p, .zombie p ∈ es → p = a.current

theorem Moved.quiet (h : Sound k' a) (hhistory : k'.history = k.history) : Moved k k' a [] a :=
  ⟨.nil a, h, by rw [hhistory, List.append_nil], by simp⟩

theorem Moved.trans (h1 : Moved k k1 a es1 a1) (h2 : Moved k1 k2 a1 es2 a2)
    (hcurrent : a1.current = a.current) : Moved k k2 a (es1 ++ es2) a2 := by
  refine ⟨h1.steps.append h2.steps, h2.sound, ?_, ?_⟩
  · rw [h2.history, h1.history, List.append_assoc]
  · intro p hp
    rcases List.mem_append.mp hp with hp | hp
    · exact h1.zombies p hp
    · exact (h2.zombies p hp).trans hcurrent

theorem Moved.of_arrived {c : SchedClass} (h : Arrived k k' a c) :
    ∃ p, Moved k k' a [.arrive c p] (a.arrive p c) := by
  obtain ⟨p, hp, hsound, hhistory⟩ := h
  exact ⟨p, .single (.arrive c hp), hsound, hhistory, by simp⟩

theorem Moved.of_spawned {c : SchedClass} (h : Sound k a) (hspawned : Spawned k k' a c) :
    ∃ es a', Moved k k' a es a' := by
  rcases hspawned with ⟨-, rfl⟩ | ⟨-, harrived⟩
  · exact ⟨[], a, .quiet h rfl⟩
  · obtain ⟨p, hmoved⟩ := Moved.of_arrived harrived
    exact ⟨_, _, hmoved⟩

theorem Moved.of_schedule (h : Sound k a) :
    ∃ k', __schedule k = .ok k' ∧ Moved k k' a [.select a.select.current] a.select := by
  obtain ⟨k', hk', hsound, hhistory⟩ := schedule_spec h
  exact ⟨k', hk', .single (.select a), hsound, hhistory, by simp⟩

/-! ## The start -/

def initial (p : Nat) : Queues := ⟨[p], [], [], p⟩

theorem init_lists (k : Kernel) :
    ∃ k', k' = INIT_LIST_HEAD (INIT_LIST_HEAD (INIT_LIST_HEAD k .cfs_queue) .rt_queue) .global_tasks ∧
      Rings k' [] [] [] ∧ core k' = core k := by
  obtain ⟨hcfs, hrel1, -⟩ := init_list_head_spec k .cfs_queue
  obtain ⟨hrt, hrel2, -⟩ := init_list_head_spec (INIT_LIST_HEAD k .cfs_queue) .rt_queue
  obtain ⟨hall, hrel3, -⟩ :=
    init_list_head_spec (INIT_LIST_HEAD (INIT_LIST_HEAD k .cfs_queue) .rt_queue) .global_tasks
  refine ⟨_, rfl, ⟨?_, ?_, hall⟩, ?_⟩
  · exact init_list_head_other (init_list_head_other hcfs (by simp)) (by simp)
  · exact init_list_head_other hrt (by simp)
  · rw [core_relinks hrel3, core_relinks hrel2, core_relinks hrel1]

def bootTask (cr3 : BitVec 64) : Task := { Task.zero with
  pid := 0
  state := .TASK_RUNNING
  sched_class := .idle_sched_class
  kernel_stack_top := .stack_top
  cr3 := cr3 }

theorem sched_init_cases (mm : Mm) (heap_ptr : BitVec 32) : ∃ k1,
    k1 = INIT_LIST_HEAD (INIT_LIST_HEAD (INIT_LIST_HEAD (Kernel.boot mm heap_ptr) .cfs_queue) .rt_queue)
      .global_tasks ∧
    Rings k1 [] [] [] ∧ core k1 = core (Kernel.boot mm heap_ptr) ∧
    ((sched_init (Kernel.boot mm heap_ptr) = .error .null_object ∧ 4194304 < heap_ptr.toNat + 17128) ∨
      ∃ heap_ptr' : BitVec 32, heap_ptr.toNat + 17128 ≤ 4194304 ∧ heap_ptr'.toNat = heap_ptr.toNat + 17136 ∧
        sched_init (Kernel.boot mm heap_ptr) = list_add (Kernel.new_task
          { k1 with nr_running := 0, clock := 0, heap_ptr := heap_ptr', current_task := heap_ptr.toNat }
          heap_ptr.toNat (bootTask mm.cr3)) (.tasks heap_ptr.toNat) .global_tasks) := by
  obtain ⟨k1, hk1, hrings, hcore⟩ := init_lists (Kernel.boot mm heap_ptr)
  have hptr : k1.heap_ptr = heap_ptr := (congrArg Kernel.heap_ptr hcore :)
  have hmm : k1.mm = mm := (congrArg Kernel.mm hcore :)
  refine ⟨k1, hk1, hrings, hcore, ?_⟩
  unfold sched_init
  simp only [← hk1, hptr]
  rcases kmalloc_spec heap_ptr sizeof_task_struct (by decide) with
    ⟨hk, hfull⟩ | ⟨heap_ptr', hk, hle, hptr'⟩
  · rw [hk]
    exact .inl ⟨rfl, hfull⟩
  · rw [hk, ← hmm]
    exact .inr ⟨heap_ptr', hle, hptr', rfl⟩

theorem sched_init_ok {mm : Mm} {heap_ptr : BitVec 32} (h : sched_init (Kernel.boot mm heap_ptr) = .ok k) :
    ∃ (k1 : Kernel) (heap_ptr' : BitVec 32),
      k1 = INIT_LIST_HEAD (INIT_LIST_HEAD (INIT_LIST_HEAD (Kernel.boot mm heap_ptr) .cfs_queue) .rt_queue)
        .global_tasks ∧
      core k1 = core (Kernel.boot mm heap_ptr) ∧ heap_ptr'.toNat = heap_ptr.toNat + 17136 ∧
      list_add (Kernel.new_task
        { k1 with nr_running := 0, clock := 0, heap_ptr := heap_ptr', current_task := heap_ptr.toNat }
        heap_ptr.toNat (bootTask mm.cr3)) (.tasks heap_ptr.toNat) .global_tasks = .ok k := by
  obtain ⟨k1, hk1, -, hcore, ⟨hnone, -⟩ | ⟨heap_ptr', -, hptr, hsome⟩⟩ := sched_init_cases mm heap_ptr
  · cases hnone.symm.trans h
  · exact ⟨k1, heap_ptr', hk1, hcore, hptr, hsome.symm.trans h⟩

theorem sched_init_spec (mm : Mm) (heap_ptr : BitVec 32) :
    (sched_init (Kernel.boot mm heap_ptr) = .error .null_object ∧ 4194304 < heap_ptr.toNat + 17128) ∨
    ∃ k, sched_init (Kernel.boot mm heap_ptr) = .ok k ∧ heap_ptr.toNat + 17128 ≤ 4194304 ∧
      Sound k (initial heap_ptr.toNat) ∧ k.history = [] := by
  obtain ⟨k1, -, hrings, hcore, hnone | ⟨heap_ptr', hle, hptr', hk⟩⟩ := sched_init_cases mm heap_ptr
  · exact .inl hnone
  right
  have halike := Alike.of_core hcore
  obtain ⟨p, hp⟩ : ∃ p, p = heap_ptr.toNat := ⟨_, rfl⟩
  obtain ⟨t, ht⟩ : ∃ t, t = bootTask mm.cr3 := ⟨_, rfl⟩
  obtain ⟨k2, hk2⟩ : ∃ k2, k2 = Kernel.new_task
    { k1 with nr_running := 0, clock := 0, heap_ptr := heap_ptr', current_task := p } p t := ⟨_, rfl⟩
  simp only [hk, ← hp, ← ht, ← hk2]
  have hrings2 : Rings k2 [] [] [] := by
    refine hrings.of_new (p := p) ?_ (by simp) (by simp) (by simp)
    intro n hn
    rw [hk2]
    exact sameLinks_of_node_at (node_at_new t hn)
  obtain ⟨k3, hk3, hrings3, hcore3⟩ := hrings2.add_task (p := p) (by simp)
  have htask : k2.task p = t := by
    rw [hk2]
    exact Function.update_self _ _ _
  have hheap : p + 17136 = k2.heap_ptr.toNat := by
    rw [hk2, hp]
    exact hptr'.symm
  have hpid : k2.next_pid = 1 := by
    rw [hk2]
    exact halike.next_pid
  have hempty : k1.task_structs = [] := halike.task_structs
  refine ⟨k3, hk3, hp ▸ hle, ⟨Facts.of_alike ?_ (.of_core hcore3), hrings3⟩, ?_⟩
  · refine ⟨?_, by rw [hk2]; rfl, List.mem_singleton.mpr rfl, ?_, ?_, by rw [hk2]; rfl, ?_,
      ?_, ?_, ?_, ?_⟩
    · rw [hk2]
      exact congrArg (List.cons p) hempty
    · intro q
      simp only [initial, List.mem_singleton, List.not_mem_nil, false_iff, not_and]
      rintro rfl
      simp [htask, ht, bootTask]
    · intro q
      simp only [initial, List.mem_singleton, List.not_mem_nil, false_iff, not_and]
      rintro rfl
      simp [htask, ht, bootTask]
    · simp [initial, htask, ht, bootTask, hpid]
    · intro q hq
      rw [List.mem_singleton.mp hq]
      exact hheap.le
    · rw [← hheap]
      simp [initial]
    · rw [← hheap]
      omega
    · intro q hq
      rw [List.mem_singleton.mp hq, htask, ht]
      simp [bootTask]
  · rw [core_history hcore3, hk2]
    exact core_history hcore

/-! ## Signals -/

theorem sys_kill_spec (h : Sound k a) (pid : Nat) (sig : Int) :
    ∃ r k', sys_kill k pid sig = .ok (r, k') ∧ Moved k k' a [] a := by
  unfold sys_kill
  split
  · exact ⟨_, _, rfl, .quiet h rfl⟩
  have hfuel : a.tasks.length < k.heap_ptr.toNat + 1 := by
    have := h.facts.room
    omega
  rw [find_task_spec h.rings hfuel]
  cases hfind : a.tasks.find? fun p => (k.task p).pid = pid with
  | none => exact ⟨_, _, rfl, .quiet h rfl⟩
  | some target =>
    have hmem := List.mem_of_find?_eq_some hfind
    have hsound : Sound (k.update_task target fun t => { t with
      pending_signals := t.pending_signals ||| sig_bit sig.toNat }) a := h.update rfl rfl rfl rfl id
    simp only [bind, Except.bind]
    rw [if_neg (hsound.facts.awake target hmem)]
    exact ⟨_, _, rfl, .quiet hsound rfl⟩

theorem wake_up_process_spec (h : Sound k a) (hp : p ∈ a.tasks) :
    wake_up_process k (some p) = .ok k := by
  unfold wake_up_process
  exact if_neg (h.facts.awake p hp)

theorem sys_sigaction_spec (h : Sound k a) (sig : Int) (handler : BitVec 64) :
    Moved k (sys_sigaction k sig handler).2 a [] a := by
  unfold sys_sigaction
  split
  · exact .quiet h rfl
  · dsimp only
    exact .quiet (h.update rfl rfl rfl rfl id) rfl

theorem Moved.of_zombie (h : Sound k a) : Moved k (set_zombie k) a [.zombie a.current] a := by
  have hcurrent := h.facts.current_task
  refine ⟨.single (.zombie a), ?_, ?_, by simp⟩
  · refine Sound.log (h.update rfl rfl rfl rfl ?_) _
    intro hstate
    cases hstate
  · rw [← hcurrent]
    rfl

theorem exit_spec (h : Sound k a) :
    ∃ k', schedule (set_zombie k) = .ok k' ∧
      Moved k k' a [.zombie a.current, .select a.select.current] a.select := by
  have hzombie := Moved.of_zombie h
  obtain ⟨k', hk', hmoved⟩ := Moved.of_schedule hzombie.sound
  exact ⟨k', hk', hzombie.trans hmoved rfl⟩

theorem exit_if_spec (h : Sound k a) (fatal : Bool) :
    ∃ here k' es a', exit_if fatal k = .ok (here, k') ∧ Moved k k' a es a' ∧
      (here = true → a'.current = a.current) := by
  unfold exit_if
  cases fatal with
  | false => exact ⟨true, k, [], a, rfl, .quiet h rfl, fun _ => rfl⟩
  | true =>
    obtain ⟨k', hk', hmoved⟩ := exit_spec h
    rw [hk']
    refine ⟨_, k', _, _, rfl, hmoved, ?_⟩
    intro hhere
    rw [← hmoved.sound.facts.current_task, ← h.facts.current_task]
    exact of_decide_eq_true hhere

theorem deliver_from_spec (h : Sound k a) (regs : Registers) (sigs : List Nat) :
    ∃ r k' es a', deliver_from k regs sigs = .ok (r, k') ∧ Moved k k' a es a' := by
  induction sigs generalizing k a with
  | nil => exact ⟨_, _, [], a, rfl, .quiet h rfl⟩
  | cons sig sigs ih =>
    unfold deliver_from
    split
    · exact ih h
    have hclear : Moved k (k.update_task k.current_task fun t => { t with
        pending_signals := t.pending_signals &&& ~~~sig_bit sig }) a [] a :=
      .quiet (h.update rfl rfl rfl rfl id) rfl
    obtain ⟨here1, k1, es1, a1, hk1, hmoved1, hhere1⟩ := exit_if_spec hclear.sound (sig = RELIS_SIGKILL)
    have hto1 := hclear.trans hmoved1 rfl
    simp only [hk1, bind, Except.bind]
    cases here1 with
    | false => exact ⟨_, _, _, _, rfl, hto1⟩
    | true =>
      simp only [Bool.not_true, Bool.false_eq_true, if_false]
      split
      · obtain ⟨here2, k2, es2, a2, hk2, hmoved2, hhere2⟩ :=
          exit_if_spec hto1.sound (sig = RELIS_SIGINT ∨ sig = RELIS_SIGHUP)
        have hto2 := hto1.trans hmoved2 (hhere1 rfl)
        simp only [hk2]
        cases here2 with
        | false => exact ⟨_, _, _, _, rfl, hto2⟩
        | true =>
          obtain ⟨r, k3, es3, a3, hk3, hmoved3⟩ := ih hto2.sound
          exact ⟨r, k3, _, a3, hk3, hto2.trans hmoved3 ((hhere2 rfl).trans (hhere1 rfl))⟩
      · exact ⟨_, _, _, _, rfl, hto1⟩

theorem deliver_signals_spec (h : Sound k a) (regs : Registers) :
    ∃ r k' es a', deliver_signals k regs = .ok (r, k') ∧ Moved k k' a es a' := by
  unfold deliver_signals
  split
  · exact ⟨_, _, [], a, rfl, .quiet h rfl⟩
  · exact deliver_from_spec h regs _

/-! ## Runs -/

def Stops (e : Halt) : Prop := e = .out_of_pages ∨ e = .null_object ∨ e = .no_task

theorem step_spec (h : Sound k a) (op : Op) :
    (∃ e, step k op = .error e ∧ Stops e) ∨ ∃ k' es a', step k op = .ok k' ∧ Moved k k' a es a' := by
  cases op with
  | kernel_thread fn arg policy =>
    rcases kernel_thread_spec h fn arg policy with he | ⟨r, k', hk', hspawned⟩
    · exact .inl ⟨_, by simp [step, he], .inr (.inl rfl)⟩
    · obtain ⟨es, a', hmoved⟩ := Moved.of_spawned h hspawned
      exact .inr ⟨k', es, a', by simp [step, hk'], hmoved⟩
  | sys_fork regs =>
    rcases sys_fork_spec h regs with ⟨-, he⟩ | ⟨r, k', hk', hspawned⟩
    · exact .inl ⟨_, by simp [step, he], .inl rfl⟩
    · obtain ⟨es, a', hmoved⟩ := Moved.of_spawned h hspawned
      exact .inr ⟨k', es, a', by simp [step, hk'], hmoved⟩
  | sys_kill pid sig =>
    obtain ⟨r, k', hk', hmoved⟩ := sys_kill_spec h pid sig
    exact .inr ⟨k', _, _, by simp [step, hk'], hmoved⟩
  | wake_up_process p =>
    simp only [step]
    split
    · rename_i hp
      cases p with
      | none => exact .inr ⟨k, [], a, rfl, .quiet h rfl⟩
      | some p =>
        have hmem : p ∈ a.tasks := by simpa [h.facts.task_structs] using hp
        exact .inr ⟨k, [], a, wake_up_process_spec h hmem, .quiet h rfl⟩
    · exact .inl ⟨_, rfl, .inr (.inr rfl)⟩
  | sys_exit =>
    obtain ⟨k', hk', hmoved⟩ := exit_spec h
    exact .inr ⟨k', _, _, hk', hmoved⟩
  | schedule =>
    obtain ⟨k', hk', hmoved⟩ := Moved.of_schedule h
    exact .inr ⟨k', _, _, hk', hmoved⟩
  | thread_return =>
    obtain ⟨k', hk', hmoved⟩ := exit_spec h
    exact .inr ⟨k', _, _, hk', hmoved⟩
  | sys_sigaction sig handler => exact .inr ⟨_, _, _, rfl, sys_sigaction_spec h sig handler⟩
  | deliver_signals regs =>
    obtain ⟨r, k', es, a', hk', hmoved⟩ := deliver_signals_spec h regs
    exact .inr ⟨k', es, a', by simp [step, hk'], hmoved⟩

theorem run_spec (h : Sound k a) (ops : List Op) :
    (∃ e, run step k ops = .error e ∧ Stops e) ∨
    ∃ k' es a', run step k ops = .ok k' ∧ Steps a es a' ∧ Sound k' a' ∧
      k'.history = k.history ++ es := by
  induction ops generalizing k a with
  | nil => exact .inr ⟨k, [], a, rfl, .nil a, h, (List.append_nil _).symm⟩
  | cons op ops ih =>
    rw [run_cons]
    rcases step_spec h op with ⟨e, hk1, he⟩ | ⟨k1, es1, a1, hk1, hmoved⟩
    · exact .inl ⟨e, by rw [hk1]; rfl, he⟩
    rw [hk1]
    rcases ih hmoved.sound with ⟨e, hk2, he⟩ | ⟨k2, es2, a2, hk2, hsteps, hsound, hhistory⟩
    · exact .inl ⟨e, hk2, he⟩
    · refine .inr ⟨k2, es1 ++ es2, a2, hk2, hmoved.steps.append hsteps, hsound, ?_⟩
      rw [hhistory, hmoved.history, List.append_assoc]

theorem sched_init_sound {mm : Mm} {heap_ptr : BitVec 32}
    (hinit : sched_init (Kernel.boot mm heap_ptr) = .ok k) :
    Sound k (initial heap_ptr.toNat) ∧ k.history = [] := by
  rcases sched_init_spec mm heap_ptr with ⟨herr, -⟩ | ⟨k1, hok, -, hsound⟩
  · rw [herr] at hinit
    cases hinit
  · rw [hok] at hinit
    cases hinit
    exact hsound

theorem reachable_sound {mm : Mm} {heap_ptr : BitVec 32} {ops : List Op}
    (hinit : sched_init (Kernel.boot mm heap_ptr) = .ok k) (hrun : run step k ops = .ok k') :
    ∃ a, Sound k' a := by
  rcases run_spec (sched_init_sound hinit).1 ops with ⟨e, herr, -⟩ | ⟨k1, es, a, hok, -, hsound, -⟩
  · rw [herr] at hrun
    cases hrun
  · rw [hok] at hrun
    cases hrun
    exact ⟨a, hsound⟩

/-! ## The lists in every state -/

/-- What the code may rely on between two calls. -/
structure WellFormed (k : Kernel) (cfs rt all : List Nat) : Prop where
  cfs_queue : Ring (links k) .cfs_queue (cfs.map .se_run_node)
  rt_queue : Ring (links k) .rt_queue (rt.map .rt_run_node)
  global_tasks : Ring (links k) .global_tasks (all.map .tasks)
  fair : ∀ p ∈ cfs, p ∈ all ∧ (k.task p).sched_class = .fair_sched_class
  real_time : ∀ p ∈ rt, p ∈ all ∧ (k.task p).sched_class = .rt_sched_class
  nr_running : k.nr_running.toNat = cfs.length + rt.length
  pid_inj : ∀ p ∈ all, ∀ q ∈ all, (k.task p).pid = (k.task q).pid → p = q
  pid_lt : ∀ p ∈ all, (k.task p).pid < k.next_pid
  /-- `next_pid` counts the tasks, so it has never wrapped. -/
  next_pid : k.next_pid = all.length ∧ all.length ≤ 244
  kill_target : ∀ pid p, find_task k pid = .ok (some p) ↔ p ∈ all ∧ (k.task p).pid = pid

theorem Sound.wellFormed (h : Sound k a) : WellFormed k a.cfs a.rt a.tasks := by
  have hnodup : (a.tasks.map fun p => (k.task p).pid).Nodup := by
    rw [h.facts.pids, List.nodup_reverse]
    exact List.nodup_range
  have hinj : ∀ p ∈ a.tasks, ∀ q ∈ a.tasks, (k.task p).pid = (k.task q).pid → p = q :=
    fun p hp q hq heq => List.inj_on_of_nodup_map hnodup hp hq heq
  refine ⟨h.rings.cfs, h.rings.rt, h.rings.all, fun p hp => (h.facts.cfs p).mp hp,
    fun p hp => (h.facts.rt p).mp hp, h.facts.nr_running, hinj, ?_,
      ⟨h.facts.next_pid, h.facts.length_le⟩, ?_⟩
  · intro p hp
    have hmem : (k.task p).pid ∈ (List.range k.next_pid).reverse := by
      rw [← h.facts.pids]
      exact List.mem_map_of_mem hp
    simpa using hmem
  · intro pid p
    have hfuel : a.tasks.length < k.heap_ptr.toNat + 1 := by
      have := h.facts.room
      omega
    rw [find_task_spec h.rings hfuel, Except.ok.injEq]
    constructor
    · intro hfind
      exact ⟨List.mem_of_find?_eq_some hfind, by simpa using List.find?_some hfind⟩
    · rintro ⟨hp, rfl⟩
      cases hfind : a.tasks.find? fun q => (k.task q).pid = (k.task p).pid with
      | none =>
        rw [List.find?_eq_none] at hfind
        exact absurd (by simp) (hfind p hp)
      | some q =>
        rw [hinj q (List.mem_of_find?_eq_some hfind) p hp (by simpa using List.find?_some hfind)]

/-- Whatever is called after `sched_init`, in any order, the lists are well formed in
every state, and no call follows a bad link or walks without end. -/
theorem run_well_formed {mm : Mm} {heap_ptr : BitVec 32} {k0 : Kernel}
    (hinit : sched_init (Kernel.boot mm heap_ptr) = .ok k0) (ops : List Op) :
    (∀ k, run step k0 ops = .ok k → ∃ cfs rt all, WellFormed k cfs rt all) ∧
    ∀ e, run step k0 ops = .error e → e = .out_of_pages ∨ e = .null_object ∨ e = .no_task := by
  constructor
  · intro k hrun
    obtain ⟨a, hsound⟩ := reachable_sound hinit hrun
    exact ⟨a.cfs, a.rt, a.tasks, hsound.wellFormed⟩
  · intro e he
    rcases run_spec (sched_init_sound hinit).1 ops with ⟨e', herr, hstops⟩ | ⟨k, es, a, hok, -⟩
    · rw [herr] at he
      cases he
      exact hstops
    · rw [hok] at he
      cases he

def bareMm : Mm := ⟨Pmm.zero, fun _ => 0, 0, none⟩

theorem run_well_formed_small :
    ∃ k0 k, sched_init (Kernel.boot bareMm 0) = .ok k0 ∧
      run step k0 [.kernel_thread 0 0 SCHED_NORMAL, .kernel_thread 0 0 SCHED_FIFO, .schedule,
        .sys_kill 1 9,
        .wake_up_process (some 0), .sys_exit] = .ok k ∧ ∃ cfs rt all, WellFormed k cfs rt all := by
  have hok :
      (sched_init (Kernel.boot bareMm 0) >>= fun k => run step k [.kernel_thread 0 0 SCHED_NORMAL,
        .kernel_thread 0 0 SCHED_FIFO, .schedule, .sys_kill 1 9, .wake_up_process (some 0),
        .sys_exit]).toOption.any fun _ => true := by
    decide +kernel
  obtain ⟨k, hk, -⟩ := exists_of_any hok
  rw [bind_ok] at hk
  obtain ⟨k0, hinit, hrun⟩ := hk
  exact ⟨k0, k, hinit, hrun, (run_well_formed hinit _).1 k hrun⟩

end Relis.Sched
