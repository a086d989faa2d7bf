import Relis.Paging.Clone
import Relis.Sched.Links
import Relis.Sched.Spec
import Relis.Slab

/-!
# The scheduler keeps its queues

`Sound k a` says that the memory of `k` holds the queues `a`. Every function takes a sound
state to a sound state by steps of the queues.
-/

open Relis.Bytes Relis.Code Relis.Dll Relis.Lists Relis.Run Relis.Slab

namespace Relis.Sched

/-- What does not depend on the links. Each task has 17136 bytes of the heap, and
its pid is the number of tasks made before it. -/
structure Facts (k : Kernel) (a : Queues) : Prop where
  task_structs : k.task_structs = a.tasks
  current_task : k.current_task = a.current
  current_mem : a.current ∈ a.tasks
  cfs : ∀ p, p ∈ a.cfs ↔ p ∈ a.tasks ∧ (k.task p).sched_class = .fair_sched_class
  rt : ∀ p, p ∈ a.rt ↔ p ∈ a.tasks ∧ (k.task p).sched_class = .rt_sched_class
  nr_running : k.nr_running.toNat = a.cfs.length + a.rt.length
  pids : a.tasks.map (fun p => (k.task p).pid) = (List.range k.next_pid).reverse
  heap : ∀ p ∈ a.tasks, p + 17136 ≤ k.heap_ptr.toNat
  room : a.tasks.length * 17136 ≤ k.heap_ptr.toNat
  bound : k.heap_ptr.toNat ≤ 4194319
  awake : ∀ p ∈ a.tasks, (k.task p).state ≠ .TASK_INTERRUPTIBLE

structure Sound (k : Kernel) (a : Queues) : Prop where
  facts : Facts k a
  rings : Rings k a.cfs a.rt a.tasks

variable {k k' : Kernel} {a : Queues} {p : Nat} {c : SchedClass}

structure Alike (k k' : Kernel) : Prop where
  task_structs : k'.task_structs = k.task_structs
  current_task : k'.current_task = k.current_task
  nr_running : k'.nr_running = k.nr_running
  next_pid : k'.next_pid = k.next_pid
  heap_ptr : k'.heap_ptr = k.heap_ptr
  pid : ∀ p, (k'.task p).pid = (k.task p).pid
  sched_class : ∀ p, (k'.task p).sched_class = (k.task p).sched_class
  state : ∀ p, (k'.task p).state = .TASK_INTERRUPTIBLE → (k.task p).state = .TASK_INTERRUPTIBLE

theorem Facts.of_alike (h : Facts k a) (halike : Alike k k') : Facts k' a where
  task_structs := halike.task_structs.trans h.task_structs
  current_task := halike.current_task.trans h.current_task
  current_mem := h.current_mem
  cfs p := by rw [halike.sched_class, h.cfs]
  rt p := by rw [halike.sched_class, h.rt]
  nr_running := by rw [halike.nr_running, h.nr_running]
  pids := by simp only [halike.pid, halike.next_pid, h.pids]
  heap := by rw [halike.heap_ptr]; exact h.heap
  room := by rw [halike.heap_ptr]; exact h.room
  bound := by rw [halike.heap_ptr]; exact h.bound
  awake p hp hstate := h.awake p hp (halike.state p hstate)

theorem core_history (h : core k' = core k) : k'.history = k.history := (congrArg Kernel.history h :)

theorem core_state (h : core k' = core k) (p : Nat) : (k'.task p).state = (k.task p).state :=
  (congrArg (fun k => (Kernel.task k p).state) h :)

theorem Alike.of_core (h : core k' = core k) : Alike k k' where
  task_structs := (congrArg Kernel.task_structs h :)
  current_task := (congrArg Kernel.current_task h :)
  nr_running := (congrArg Kernel.nr_running h :)
  next_pid := (congrArg Kernel.next_pid h :)
  heap_ptr := (congrArg Kernel.heap_ptr h :)
  pid p := (congrArg (fun k => (Kernel.task k p).pid) h :)
  sched_class p := (congrArg (fun k => (Kernel.task k p).sched_class) h :)
  state p hstate := (core_state h p).symm.trans hstate

theorem Alike.of_update {f : Task → Task} (hpid : (f (k.task p)).pid = (k.task p).pid)
    (hclass : (f (k.task p)).sched_class = (k.task p).sched_class)
    (hstate : (f (k.task p)).state = .TASK_INTERRUPTIBLE → (k.task p).state = .TASK_INTERRUPTIBLE) :
    Alike k (k.update_task p f) := by
  refine ⟨rfl, rfl, rfl, rfl, rfl, ?_, ?_, ?_⟩ <;> intro q <;> rw [task_update]
  · split <;> simp_all
  · split <;> simp_all
  · split <;> simp_all

theorem Sound.update (h : Sound k a) {f : Task → Task}
    (hentity : (f (k.task p)).entity = (k.task p).entity)
    (htasks : (f (k.task p)).tasks = (k.task p).tasks) (hpid : (f (k.task p)).pid = (k.task p).pid)
    (hclass : (f (k.task p)).sched_class = (k.task p).sched_class)
    (hstate : (f (k.task p)).state = .TASK_INTERRUPTIBLE → (k.task p).state = .TASK_INTERRUPTIBLE) :
    Sound (k.update_task p f) a :=
  ⟨h.facts.of_alike (.of_update hpid hclass hstate),
    h.rings.of_same fun _ => node_at_update hentity htasks⟩

theorem Sound.log (h : Sound k a) (e : Event) : Sound (k.log e) a :=
  ⟨h.facts.of_alike ⟨rfl, rfl, rfl, rfl, rfl, fun _ => rfl, fun _ => rfl, fun _ => id⟩,
    h.rings.of_same fun _ => rfl⟩

/-! ## What the facts say of numbers -/

theorem Facts.next_pid (h : Facts k a) : k.next_pid = a.tasks.length := by
  have hlen := congrArg List.length h.pids
  simpa using hlen.symm

theorem Facts.length_le (h : Facts k a) : a.tasks.length ≤ 244 := by
  have := h.room
  have := h.bound
  omega

theorem Sound.cfs_nodup (h : Sound k a) : a.cfs.Nodup :=
  (List.nodup_cons.mp h.rings.cfs.nodup).2.of_map

theorem Sound.rt_nodup (h : Sound k a) : a.rt.Nodup :=
  (List.nodup_cons.mp h.rings.rt.nodup).2.of_map

theorem Sound.queued_le (h : Sound k a) : a.cfs.length + a.rt.length ≤ 488 := by
  have hcfs := (h.cfs_nodup.subperm fun p hp => ((h.facts.cfs p).mp hp).1).length_le
  have hrt := (h.rt_nodup.subperm fun p hp => ((h.facts.rt p).mp hp).1).length_le
  have := h.facts.length_le
  omega

theorem Sound.current_mem (h : Sound k a) : k.current_task ∈ a.tasks := by
  rw [h.facts.current_task]
  exact h.facts.current_mem

theorem Sound.fresh (h : Sound k a) : k.heap_ptr.toNat ∉ a.tasks := by
  intro hmem
  have := h.facts.heap _ hmem
  omega

theorem Sound.not_queued (h : Sound k a) : k.heap_ptr.toNat ∉ a.cfs ∧ k.heap_ptr.toNat ∉ a.rt :=
  ⟨fun hp => h.fresh ((h.facts.cfs _).mp hp).1, fun hp => h.fresh ((h.facts.rt _).mp hp).1⟩

/-! ## New tasks -/

structure Prepared (k k' : Kernel) (p : Nat) (c : SchedClass) : Prop where
  task_structs : k'.task_structs = p :: k.task_structs
  others : ∀ q, q ≠ p → taskCore (k'.task q) = taskCore (k.task q)
  pid : (k'.task p).pid = k.next_pid
  sched_class : (k'.task p).sched_class = c
  state : (k'.task p).state = .TASK_RUNNING
  next_pid : k'.next_pid = u32 (k.next_pid + 1)
  place : p = k.heap_ptr.toNat
  heap : p + 17136 ≤ k'.heap_ptr.toNat
  bound : k'.heap_ptr.toNat ≤ 4194319
  current_task : k'.current_task = k.current_task
  nr_running : k'.nr_running = k.nr_running
  history : k'.history = k.history

theorem Prepared.of_core {k1 k2 : Kernel} (h : Prepared k k1 p c) (hcore : core k2 = core k1) :
    Prepared k k2 p c := by
  have halike := Alike.of_core hcore
  refine ⟨halike.task_structs.trans h.task_structs, ?_, (halike.pid p).trans h.pid,
    (halike.sched_class p).trans h.sched_class, (core_state hcore p).trans h.state,
    halike.next_pid.trans h.next_pid, h.place, ?_, ?_, halike.current_task.trans h.current_task,
    halike.nr_running.trans h.nr_running, (core_history hcore).trans h.history⟩
  · intro q hq
    rw [← h.others q hq]
    exact (congrArg (fun k => Kernel.task k q) hcore :)
  · rw [halike.heap_ptr]
    exact h.heap
  · rw [halike.heap_ptr]
    exact h.bound

def queued : SchedClass → Nat
  | .idle_sched_class => 0
  | _ => 1

theorem arrive_lengths :
    (a.arrive p c).cfs.length + (a.arrive p c).rt.length = a.cfs.length + a.rt.length + queued c := by
  cases c <;> simp [Queues.arrive, queued] <;> omega

theorem Prepared.ne_place (hprep : Prepared k k' p c) (h : Sound k a) {q : Nat} (hq : q ∈ a.tasks) :
    q ≠ p := by
  rintro rfl
  rw [hprep.place] at hq
  exact h.fresh hq

theorem Prepared.mem_iff (hprep : Prepared k k' p c) (h : Sound k a) {d : SchedClass} {L : List Nat}
    {q : Nat} (hq : q ∈ L ↔ q ∈ a.tasks ∧ (k.task q).sched_class = d) :
    q ∈ L ∨ q = p ∧ c = d ↔ q ∈ p :: a.tasks ∧ (k'.task q).sched_class = d := by
  rw [hq, List.mem_cons]
  by_cases hqp : q = p
  · have hnew : p ∉ a.tasks := fun hp => hprep.ne_place h hp rfl
    simp [hqp, hnew, hprep.sched_class]
  · have hsame : (k'.task q).sched_class = (k.task q).sched_class :=
      (congrArg Task.sched_class (hprep.others q hqp) :)
    simp [hqp, hsame]

theorem Prepared.pids (hprep : Prepared k k' p c) (h : Sound k a) :
    (p :: a.tasks).map (fun q => (k'.task q).pid) = (List.range k'.next_pid).reverse := by
  have hpid := h.facts.next_pid
  have hlen := h.facts.length_le
  have hnext : k'.next_pid = k.next_pid + 1 := by
    rw [hprep.next_pid, u32_of_lt (by omega)]
  rw [hnext, List.range_succ, List.reverse_append, ← h.facts.pids, List.map_cons, hprep.pid]
  exact congrArg _
    (List.map_congr_left fun q hq => (congrArg Task.pid (hprep.others q (hprep.ne_place h hq)) :))

theorem facts_arrive (h : Sound k a) (hprep : Prepared k k' p c) :
    Facts { k' with nr_running := k.nr_running + BitVec.ofNat 64 (queued c) } (a.arrive p c) := by
  have hplace := hprep.place
  have hheap := hprep.heap
  refine ⟨?_, ?_, ?_, ?_, ?_, ?_, ?_, ?_, ?_, hprep.bound, ?_⟩
  · change k'.task_structs = _
    rw [hprep.task_structs, h.facts.task_structs, arrive_tasks]
  · rw [arrive_current]
    exact hprep.current_task.trans h.facts.current_task
  · rw [arrive_current, arrive_tasks]
    exact List.mem_cons_of_mem _ h.facts.current_mem
  · intro q
    rw [mem_arrive_cfs, arrive_tasks]
    exact hprep.mem_iff h (h.facts.cfs q)
  · intro q
    rw [mem_arrive_rt, arrive_tasks]
    exact hprep.mem_iff h (h.facts.rt q)
  · have hnr := h.facts.nr_running
    have hle := h.queued_le
    have hc : queued c ≤ 1 := by cases c <;> decide
    rw [arrive_lengths, ← hnr]
    simp only [BitVec.toNat_add, BitVec.toNat_ofNat]
    omega
  · rw [arrive_tasks]
    exact hprep.pids h
  · intro q hq
    rw [arrive_tasks, List.mem_cons] at hq
    change q + 17136 ≤ k'.heap_ptr.toNat
    obtain rfl | hq := hq
    · exact hheap
    · have := h.facts.heap q hq
      omega
  · have hroom := h.facts.room
    rw [arrive_tasks, List.length_cons, Nat.add_mul, Nat.one_mul]
    exact Nat.le_trans (Nat.add_le_add_right (hroom.trans_eq hplace.symm) _) hheap
  · intro q hq
    rw [arrive_tasks, List.mem_cons] at hq
    change (k'.task q).state ≠ _
    obtain rfl | hq := hq
    · simp [hprep.state]
    · have hsame : (k'.task q).state = (k.task q).state :=
        (congrArg Task.state (hprep.others q (hprep.ne_place h hq)) :)
      rw [hsame]
      exact h.facts.awake q hq

theorem enqueue_arrive (h : Sound k a) (hprep : Prepared k k' p c)
    (hrings : Rings k' a.cfs a.rt a.tasks) :
    ∃ k1, enqueue_task k' p = .ok k1 ∧ Rings k1 (a.arrive p c).cfs (a.arrive p c).rt a.tasks ∧
      core k1 = { core k' with nr_running := k.nr_running + BitVec.ofNat 64 (queued c) } := by
  obtain ⟨hcfs, hrt⟩ : p ∉ a.cfs ∧ p ∉ a.rt := hprep.place ▸ h.not_queued
  unfold enqueue_task
  rw [hprep.sched_class, ← hprep.nr_running]
  cases c with
  | rt_sched_class => exact enqueue_task_rt_spec hrings hrt
  | fair_sched_class => exact enqueue_task_fair_spec hrings hcfs
  | idle_sched_class =>
    refine ⟨k', rfl, hrings, ?_⟩
    simp [queued, core]

theorem enter_lists (h : Sound k a) (hprep : Prepared k k' p c)
    (hrings : Rings k' a.cfs a.rt a.tasks) :
    ∃ k1 k2, enqueue_task k' p = .ok k1 ∧ list_add k1 (.tasks p) .global_tasks = .ok k2 ∧
      Sound k2 (a.arrive p c) ∧ k2.history = k.history ∧ (k2.task p).sched_class = c := by
  have hp : p ∉ a.tasks := by
    rw [hprep.place]
    exact h.fresh
  obtain ⟨k1, hk1, hrings1, hcore1⟩ := enqueue_arrive h hprep hrings
  obtain ⟨k2, hk2, hrings2, hcore2⟩ := hrings1.add_task hp
  have hcore : core k2 = core { k' with nr_running := k.nr_running + BitVec.ofNat 64 (queued c) } :=
    hcore2.trans hcore1
  refine ⟨k1, k2, hk1, hk2, ⟨(facts_arrive h hprep).of_alike (.of_core hcore), ?_⟩, ?_, ?_⟩
  · rwa [arrive_tasks]
  · exact (core_history hcore).trans hprep.history
  · rw [← hprep.sched_class]
    exact (Alike.of_core hcore).sched_class p

/-! ## `task_setup_stdio` -/

structure Files (k k' : Kernel) (t : Nat) : Prop where
  others : ∀ q, q ≠ t → k'.task q = k.task q
  self : ∃ files, k'.task t = { k.task t with files := files }
  node_at : ∀ n, k'.node_at n = k.node_at n
  task_structs : k'.task_structs = k.task_structs
  current_task : k'.current_task = k.current_task
  nr_running : k'.nr_running = k.nr_running
  next_pid : k'.next_pid = k.next_pid
  history : k'.history = k.history
  heap : k.heap_ptr.toNat ≤ k'.heap_ptr.toNat
  bound : k'.heap_ptr.toNat ≤ 4194319

variable {t : Nat}

theorem Files.trans {k1 k2 k3 : Kernel} (h1 : Files k1 k2 t) (h2 : Files k2 k3 t) :
    Files k1 k3 t where
  others q hq := (h2.others q hq).trans (h1.others q hq)
  self := by
    obtain ⟨f1, hf1⟩ := h1.self
    obtain ⟨f2, hf2⟩ := h2.self
    exact ⟨f2, by rw [hf2, hf1]⟩
  node_at n := (h2.node_at n).trans (h1.node_at n)
  task_structs := h2.task_structs.trans h1.task_structs
  current_task := h2.current_task.trans h1.current_task
  nr_running := h2.nr_running.trans h1.nr_running
  next_pid := h2.next_pid.trans h1.next_pid
  history := h2.history.trans h1.history
  heap := h1.heap.trans h2.heap
  bound := h2.bound

theorem setup_file_spec (k : Kernel) (t fd : Nat) (fop : FileOperations) :
    setup_file k t fd fop = .error .null_object ∨ ∃ k', setup_file k t fd fop = .ok k' ∧
      Files k k' t := by
  unfold setup_file
  rcases kmalloc_object_spec k sizeof_file (by decide) with h | ⟨hp, h, hptr, -⟩
  · rw [h]
    exact .inl rfl
  rw [h]
  rcases kmalloc_object_spec { k with heap_ptr := hp } sizeof_inode (by decide) with
    h' | ⟨hp', h', hptr', hbound⟩
  · simp only [bind, Except.bind, h']
    exact .inl trivial
  · simp only [bind, Except.bind, h']
    refine .inr ⟨_, rfl, ?_⟩
    refine ⟨?_, ⟨_, Function.update_self _ _ _⟩, fun n => ?_, rfl, rfl, rfl, rfl, rfl, ?_, hbound⟩
    · intro q hq
      exact Function.update_of_ne hq _ _
    · exact node_at_update rfl rfl
    · have hle : k.heap_ptr.toNat ≤ hp.toNat := hptr ▸ Nat.le_add_right _ _
      exact hle.trans (hptr' ▸ Nat.le_add_right _ _)

theorem task_setup_stdio_spec (k : Kernel) (t : Nat) :
    task_setup_stdio k t = .error .null_object ∨ ∃ k', task_setup_stdio k t = .ok k' ∧
      Files k k' t := by
  unfold task_setup_stdio
  rcases setup_file_spec k t 0 .stdin_fops with h1 | ⟨k1, h1, hf1⟩
  · rw [h1]
    exact .inl rfl
  rcases setup_file_spec k1 t 1 .stdout_fops with h2 | ⟨k2, h2, hf2⟩
  · simp only [bind, Except.bind, h1, h2]
    exact .inl trivial
  simp only [bind, Except.bind, h1, h2]
  rcases setup_file_spec k2 t 2 .stdout_fops with h3 | ⟨k3, h3, hf3⟩
  · exact .inl h3
  · exact .inr ⟨k3, h3, (hf1.trans hf2).trans hf3⟩

/-! ## `kernel_thread` and `sys_fork` -/

def policyClass (policy : BitVec 32) : SchedClass :=
  if policy = SCHED_FIFO ∨ policy = SCHED_RR then .rt_sched_class else .fair_sched_class

theorem new_thread_sched_class (p pid : Nat) (cr3 fn arg : BitVec 64) (policy : BitVec 32) :
    (new_thread p pid cr3 fn arg policy).sched_class = policyClass policy := by
  unfold new_thread policyClass
  split <;> rfl

theorem new_thread_pid (p pid : Nat) (cr3 fn arg : BitVec 64) (policy : BitVec 32) :
    (new_thread p pid cr3 fn arg policy).pid = pid ∧
      (new_thread p pid cr3 fn arg policy).state = .TASK_RUNNING := by
  unfold new_thread
  split <;> exact ⟨rfl, rfl⟩

def Arrived (k k' : Kernel) (a : Queues) (c : SchedClass) : Prop :=
  ∃ p, p ∉ a.tasks ∧ Sound k' (a.arrive p c) ∧ k'.history = k.history ++ [.arrive c p]

theorem Arrived.of_admitted {k2 : Kernel} (hp : p ∉ a.tasks) (hsound : Sound k2 (a.arrive p c))
    (hhistory : k2.history = k.history) : Arrived k (k2.log (.arrive c p)) a c :=
  ⟨p, hp, hsound.log _, by rw [← hhistory]; rfl⟩

def Spawned (k k' : Kernel) (a : Queues) (c : SchedClass) : Prop :=
  (kmalloc k.heap_ptr sizeof_task_struct).1 = none ∧ k' = k ∨
    (kmalloc k.heap_ptr sizeof_task_struct).1 ≠ none ∧ Arrived k k' a c

theorem kernel_thread_cases (k : Kernel) (fn arg : BitVec 64) (policy : BitVec 32) :
    ((kmalloc k.heap_ptr sizeof_task_struct).1 = none ∧ kernel_thread k fn arg policy = .ok (-1, k)) ∨
    ∃ heap_ptr : BitVec 32, (kmalloc k.heap_ptr sizeof_task_struct).1 ≠ none ∧
      heap_ptr.toNat = k.heap_ptr.toNat + 17136 ∧ kernel_thread k fn arg policy = do
      let k1 ← task_setup_stdio (Kernel.new_task { k with heap_ptr := heap_ptr, next_pid := u32 (k.next_pid + 1) }
        k.heap_ptr.toNat (new_thread k.heap_ptr.toNat k.next_pid k.mm.cr3 fn arg policy)) k.heap_ptr.toNat
      let k2 ← enqueue_task k1 k.heap_ptr.toNat
      let k3 ← list_add k2 (.tasks k.heap_ptr.toNat) .global_tasks
      return ((k3.task k.heap_ptr.toNat).pid,
        k3.log (.arrive (k3.task k.heap_ptr.toNat).sched_class k.heap_ptr.toNat)) := by
  unfold kernel_thread
  rcases kmalloc_spec k.heap_ptr sizeof_task_struct (by decide) with ⟨hk, -⟩ | ⟨heap_ptr, hk, -, hptr⟩
  · rw [hk]
    exact .inl ⟨rfl, rfl⟩
  · rw [hk]
    exact .inr ⟨heap_ptr, nofun, hptr, rfl⟩

theorem kernel_thread_ok {k' : Kernel} {fn arg : BitVec 64} {policy : BitVec 32} {ret : Int}
    (hk : kernel_thread k fn arg policy = .ok (ret, k')) :
    (ret = -1 ∧ k' = k) ∨ ∃ (heap_ptr : BitVec 32) (k1 k2 k3 : Kernel), heap_ptr.toNat = k.heap_ptr.toNat + 17136 ∧
      task_setup_stdio (Kernel.new_task { k with heap_ptr := heap_ptr, next_pid := u32 (k.next_pid + 1) }
        k.heap_ptr.toNat (new_thread k.heap_ptr.toNat k.next_pid k.mm.cr3 fn arg policy)) k.heap_ptr.toNat = .ok k1 ∧
      enqueue_task k1 k.heap_ptr.toNat = .ok k2 ∧ list_add k2 (.tasks k.heap_ptr.toNat) .global_tasks = .ok k3 ∧
      k' = k3.log (.arrive (k3.task k.heap_ptr.toNat).sched_class k.heap_ptr.toNat) := by
  rcases kernel_thread_cases k fn arg policy with ⟨-, hnone⟩ | ⟨heap_ptr, -, hptr, hsome⟩
  · rw [hnone] at hk
    cases hk
    exact .inl ⟨rfl, rfl⟩
  rw [hsome] at hk
  obtain ⟨k1, h1, hk⟩ := bind_ok.mp hk
  obtain ⟨k2, h2, hk⟩ := bind_ok.mp hk
  obtain ⟨k3, h3, hk⟩ := bind_ok.mp hk
  cases hk
  exact .inr ⟨heap_ptr, k1, k2, k3, hptr, h1, h2, h3, rfl⟩

theorem new_thread_prepared (h : Sound k a) {fn arg : BitVec 64} {policy : BitVec 32} {heap_ptr : BitVec 32}
    (hptr : heap_ptr.toNat = k.heap_ptr.toNat + 17136)
    (hfiles : Files (Kernel.new_task { k with heap_ptr := heap_ptr, next_pid := u32 (k.next_pid + 1) }
      k.heap_ptr.toNat (new_thread k.heap_ptr.toNat k.next_pid k.mm.cr3 fn arg policy)) k' k.heap_ptr.toNat) :
    Prepared k k' k.heap_ptr.toNat (policyClass policy) ∧ Rings k' a.cfs a.rt a.tasks := by
  obtain ⟨p, hplace⟩ : ∃ p, p = k.heap_ptr.toNat := ⟨_, rfl⟩
  obtain ⟨t, ht⟩ : ∃ t, t = new_thread p k.next_pid k.mm.cr3 fn arg policy := ⟨_, rfl⟩
  obtain ⟨k1, hk1⟩ : ∃ k1, k1 = Kernel.new_task
    { k with heap_ptr := heap_ptr, next_pid := u32 (k.next_pid + 1) } p t := ⟨_, rfl⟩
  rw [← hplace, ← ht, ← hk1] at hfiles
  rw [← hplace]
  have hp : p ∉ a.tasks := hplace ▸ h.fresh
  have hqueued : p ∉ a.cfs ∧ p ∉ a.rt := hplace ▸ h.not_queued
  have htask : k1.task p = t := by
    rw [hk1]
    exact Function.update_self _ _ _
  obtain ⟨hpid, hstate⟩ := new_thread_pid p k.next_pid k.mm.cr3 fn arg policy
  have hclass := new_thread_sched_class p k.next_pid k.mm.cr3 fn arg policy
  rw [← ht] at hpid hstate hclass
  constructor
  · obtain ⟨files, hself⟩ := hfiles.self
    rw [htask] at hself
    subst hk1
    refine ⟨hfiles.task_structs, ?_, ?_, ?_, ?_, hfiles.next_pid, hplace, ?_, hfiles.bound,
      hfiles.current_task, hfiles.nr_running, hfiles.history⟩
    · intro q hq
      exact congrArg taskCore ((hfiles.others q hq).trans (Function.update_of_ne hq _ _))
    · rw [hself]
      exact hpid
    · rw [hself]
      exact hclass
    · rw [hself]
      exact hstate
    · refine Nat.le_trans (Nat.le_of_eq ?_) hfiles.heap
      rw [hplace]
      exact hptr.symm
  · have hrings1 : Rings k1 a.cfs a.rt a.tasks := by
      refine h.rings.of_new (p := p) ?_ hqueued.1 hqueued.2 hp
      intro n hn
      rw [hk1]
      exact sameLinks_of_node_at (node_at_new t hn)
    exact hrings1.of_same hfiles.node_at

theorem kernel_thread_spec (h : Sound k a) (fn arg : BitVec 64) (policy : BitVec 32) :
    kernel_thread k fn arg policy = .error .null_object ∨
    ∃ r k', kernel_thread k fn arg policy = .ok (r, k') ∧ Spawned k k' a (policyClass policy) := by
  rcases kernel_thread_cases k fn arg policy with ⟨hfull, hk⟩ | ⟨heap_ptr, hroom, hptr, hk⟩
  · rw [hk]
    exact .inr ⟨_, _, rfl, .inl ⟨hfull, rfl⟩⟩
  rw [hk]
  rcases task_setup_stdio_spec
    (Kernel.new_task { k with heap_ptr := heap_ptr, next_pid := u32 (k.next_pid + 1) }
      k.heap_ptr.toNat (new_thread k.heap_ptr.toNat k.next_pid k.mm.cr3 fn arg policy))
        k.heap_ptr.toNat with
    hs | ⟨k2, hs, hf⟩
  · rw [hs]
    exact .inl rfl
  obtain ⟨hprep, hrings⟩ := new_thread_prepared h hptr hf
  obtain ⟨k3, k4, h3, h4, hsound, hhistory, hclass⟩ := enter_lists h hprep hrings
  refine .inr ⟨(k4.task k.heap_ptr.toNat).pid,
    k4.log (.arrive (policyClass policy) k.heap_ptr.toNat), ?_,
    .inr ⟨hroom, .of_admitted h.fresh hsound hhistory⟩⟩
  rw [hs]
  simp only [bind, Except.bind, h3, h4, hclass]
  rfl

theorem kernel_thread_spawned {k' : Kernel} {fn arg : BitVec 64} {policy : BitVec 32} {ret : Int}
    (h : Sound k a) (hk : kernel_thread k fn arg policy = .ok (ret, k')) :
    Spawned k k' a (policyClass policy) := by
  rcases kernel_thread_spec h fn arg policy with herr | ⟨r, k1, hok, hspawned⟩
  · cases herr.symm.trans hk
  · cases hok.symm.trans hk
    exact hspawned

theorem sys_fork_cases (k : Kernel) (regs : Registers) :
    ((kmalloc k.heap_ptr sizeof_task_struct).1 = none ∧ sys_fork k regs = .ok (-1, k)) ∨
    ∃ heap_ptr : BitVec 32, (kmalloc k.heap_ptr sizeof_task_struct).1 ≠ none ∧
      heap_ptr.toNat = k.heap_ptr.toNat + 17136 ∧ heap_ptr.toNat ≤ 4194312 ∧ sys_fork k regs = do
        let (cr3, mm) ← clone_address_space k.mm
        let k1 := INIT_LIST_HEAD (Kernel.new_task
          { k with heap_ptr := heap_ptr, next_pid := u32 (k.next_pid + 1), mm := mm } k.heap_ptr.toNat
          (fork_task (k.task k.current_task) k.heap_ptr.toNat k.next_pid cr3 regs))
            (.se_run_node k.heap_ptr.toNat)
        let k2 ← enqueue_task k1 k.heap_ptr.toNat
        let k3 ← list_add k2 (.tasks k.heap_ptr.toNat) .global_tasks
        let k4 := k3.update_task k.current_task fun t => { t with
          pending_signals := t.pending_signals ||| sig_bit RELIS_SIGCHLD }
        return ((k4.task k.heap_ptr.toNat).pid,
          k4.log (.arrive (k4.task k.heap_ptr.toNat).sched_class k.heap_ptr.toNat)) := by
  unfold sys_fork
  rcases kmalloc_spec k.heap_ptr sizeof_task_struct (by decide) with ⟨hk, -⟩ | ⟨heap_ptr, hk, hle, hptr⟩
  · rw [hk]
    exact .inl ⟨rfl, rfl⟩
  · rw [hk]
    have hsize : sizeof_task_struct.toNat = 17128 := rfl
    exact .inr ⟨heap_ptr, nofun, hptr, by omega, rfl⟩

theorem sys_fork_ok {k' : Kernel} {regs : Registers} {ret : Int} (hk : sys_fork k regs = .ok (ret, k')) :
    ((kmalloc k.heap_ptr sizeof_task_struct).1 = none ∧ ret = -1 ∧ k' = k) ∨
    ∃ (heap_ptr : BitVec 32) (cr3 : BitVec 64) (mm : Mm) (k2 k3 : Kernel),
      (kmalloc k.heap_ptr sizeof_task_struct).1 ≠ none ∧ ret ≠ -1 ∧ heap_ptr.toNat = k.heap_ptr.toNat + 17136 ∧
      clone_address_space k.mm = .ok (cr3, mm) ∧
      enqueue_task (INIT_LIST_HEAD (Kernel.new_task
        { k with heap_ptr := heap_ptr, next_pid := u32 (k.next_pid + 1), mm := mm } k.heap_ptr.toNat
        (fork_task (k.task k.current_task) k.heap_ptr.toNat k.next_pid cr3 regs)) (.se_run_node k.heap_ptr.toNat))
        k.heap_ptr.toNat = .ok k2 ∧
      list_add k2 (.tasks k.heap_ptr.toNat) .global_tasks = .ok k3 ∧
      let k4 := k3.update_task k.current_task fun t => { t with
        pending_signals := t.pending_signals ||| sig_bit RELIS_SIGCHLD }
      k' = k4.log (.arrive (k4.task k.heap_ptr.toNat).sched_class k.heap_ptr.toNat) := by
  rcases sys_fork_cases k regs with ⟨hnone, heq⟩ | ⟨heap_ptr, hsome, hptr, -, heq⟩
  · rw [heq] at hk
    cases hk
    exact .inl ⟨hnone, rfl, rfl⟩
  rw [heq] at hk
  obtain ⟨⟨cr3, mm⟩, hclone, hk⟩ := bind_ok.mp hk
  obtain ⟨k2, h2, hk⟩ := bind_ok.mp hk
  obtain ⟨k3, h3, hk⟩ := bind_ok.mp hk
  cases hk
  exact .inr ⟨heap_ptr, cr3, mm, k2, k3, hsome, by omega, hptr, hclone, h2, h3, rfl⟩

theorem fork_prepared (h : Sound k a) {heap_ptr : BitVec 32} (hptr : heap_ptr.toNat = k.heap_ptr.toNat + 17136)
    (hle : heap_ptr.toNat ≤ 4194312) (mm : Mm) (cr3 : BitVec 64) (regs : Registers)
    (hk' : k' = INIT_LIST_HEAD (Kernel.new_task
      { k with heap_ptr := heap_ptr, next_pid := u32 (k.next_pid + 1), mm := mm } k.heap_ptr.toNat
      (fork_task (k.task k.current_task) k.heap_ptr.toNat k.next_pid cr3 regs)) (.se_run_node k.heap_ptr.toNat)) :
    Prepared k k' k.heap_ptr.toNat (k.task k.current_task).sched_class ∧ Rings k' a.cfs a.rt a.tasks := by
  obtain ⟨p, hplace⟩ : ∃ p, p = k.heap_ptr.toNat := ⟨_, rfl⟩
  obtain ⟨t, ht⟩ : ∃ t, t = fork_task (k.task k.current_task) p k.next_pid cr3 regs := ⟨_, rfl⟩
  obtain ⟨k1, hk1⟩ : ∃ k1, k1 = Kernel.new_task
    { k with heap_ptr := heap_ptr, next_pid := u32 (k.next_pid + 1), mm := mm } p t := ⟨_, rfl⟩
  rw [← hplace, ← ht, ← hk1] at hk'
  rw [← hplace]
  have hp : p ∉ a.tasks := hplace ▸ h.fresh
  have hqueued : p ∉ a.cfs ∧ p ∉ a.rt := hplace ▸ h.not_queued
  obtain ⟨-, hrelinks, hframe⟩ := init_list_head_spec k1 (.se_run_node p)
  rw [← hk'] at hrelinks hframe
  have htask : k1.task p = t := by
    rw [hk1]
    exact Function.update_self _ _ _
  constructor
  · have hprep1 : Prepared k k1 p (k.task k.current_task).sched_class := by
      refine ⟨by rw [hk1]; rfl, ?_, ?_, ?_, ?_, by rw [hk1]; rfl, hplace, ?_, ?_, by rw [hk1]; rfl,
        by rw [hk1]; rfl, by rw [hk1]; rfl⟩
      · intro q hq
        rw [hk1, task_new, if_neg hq]
      · rw [htask, ht]
        rfl
      · rw [htask, ht]
        rfl
      · rw [htask, ht]
        rfl
      · rw [hk1, hplace]
        exact Nat.le_of_eq hptr.symm
      · rw [hk1]
        exact hle.trans (by decide)
    exact hprep1.of_core (core_relinks hrelinks)
  · have hrings1 : Rings k1 a.cfs a.rt a.tasks := by
      refine h.rings.of_new (p := p) ?_ hqueued.1 hqueued.2 hp
      intro n hn
      rw [hk1]
      exact sameLinks_of_node_at (node_at_new t hn)
    refine hrings1.of_new (p := p) ?_ hqueued.1 hqueued.2 hp
    intro n hn
    refine hframe n ?_
    rintro rfl
    simp [nodesOf] at hn

theorem sys_fork_spec (h : Sound k a) (regs : Registers) :
    (clone_address_space k.mm = .error .out_of_pages ∧ sys_fork k regs = .error .out_of_pages) ∨
    ∃ r k', sys_fork k regs = .ok (r, k') ∧ Spawned k k' a (k.task k.current_task).sched_class := by
  rcases sys_fork_cases k regs with ⟨hfull, hk⟩ | ⟨heap_ptr, hroom, hptr, hle, hk⟩
  · rw [hk]
    exact .inr ⟨_, _, rfl, .inl ⟨hfull, rfl⟩⟩
  rw [hk]
  cases hclone : clone_address_space k.mm with
  | error e =>
    rw [Paging.clone_address_space_error hclone]
    exact .inl ⟨rfl, rfl⟩
  | ok r =>
    obtain ⟨cr3, mm⟩ := r
    obtain ⟨p, hplace⟩ : ∃ p, p = k.heap_ptr.toNat := ⟨_, rfl⟩
    have hp : p ∉ a.tasks := hplace ▸ h.fresh
    obtain ⟨hprep, hrings⟩ := fork_prepared h hptr hle mm cr3 regs rfl
    rw [← hplace] at hprep hrings
    simp only [← hplace, bind, Except.bind]
    obtain ⟨k3, k4, h3, h4, hsound, hhistory, hclass⟩ := enter_lists h hprep hrings
    obtain ⟨k5, hk5⟩ : ∃ k5, k5 = k4.update_task k.current_task fun t => { t with
      pending_signals := t.pending_signals ||| sig_bit RELIS_SIGCHLD } := ⟨_, rfl⟩
    have hsound5 : Sound k5 (a.arrive p (k.task k.current_task).sched_class) := by
      rw [hk5]
      exact hsound.update rfl rfl rfl rfl id
    have hclass5 : (k5.task p).sched_class = (k.task k.current_task).sched_class := by
      rw [← hclass, hk5, task_update]
      split
      · rw [‹p = k.current_task›]
      · rfl
    refine .inr ⟨(k5.task p).pid, k5.log (.arrive (k.task k.current_task).sched_class p), ?_,
      .inr ⟨hroom, .of_admitted hp hsound5 (by rw [hk5]; exact hhistory)⟩⟩
    simp only [h3, h4, ← hk5, hclass5]
    rfl

theorem sys_fork_spawned {k' : Kernel} {regs : Registers} {ret : Int} (h : Sound k a)
    (hk : sys_fork k regs = .ok (ret, k')) : Spawned k k' a (k.task k.current_task).sched_class := by
  rcases sys_fork_spec h regs with ⟨-, herr⟩ | ⟨r, k1, hok, hspawned⟩
  · cases herr.symm.trans hk
  · cases hok.symm.trans hk
    exact hspawned

/-! ## `__schedule` -/

theorem pick_next_task_spec (h : Sound k a) :
    ∃ k', pick_next_task k = .ok (a.select.current, k') ∧ Rings k' a.select.cfs a.rt a.tasks ∧
      core k' = core k := by
  unfold pick_next_task
  have hcurrent := h.facts.current_task
  have hrings := h.rings
  rw [pick_next_task_rt_spec hrings]
  obtain ⟨tasks, cfs, rt, current⟩ := a
  cases rt with
  | cons p rt => exact ⟨k, rfl, hrings, rfl⟩
  | nil =>
    cases cfs with
    | cons p cfs =>
      obtain ⟨k', hk', hrings', hcore⟩ := pick_next_task_fair_cons hrings
      refine ⟨k', ?_, hrings', hcore⟩
      simp only [List.head?_nil, bind, Except.bind, hk']
      rfl
    | nil =>
      refine ⟨k, ?_, hrings, rfl⟩
      simp only [List.head?_nil, bind, Except.bind, pick_next_task_fair_nil hrings,
        pick_next_task_idle, hcurrent]
      rfl

theorem Facts.select (h : Facts k a) (hcurrent : k'.current_task = a.select.current)
    (halike : Alike k { k' with current_task := k.current_task }) : Facts k' a.select := by
  have hfacts := h.of_alike halike
  have hmem : a.select.current ∈ a.tasks := by
    rcases @select_current a with hrt | hcfs | hsame
    · exact ((h.rt _).mp hrt).1
    · exact ((h.cfs _).mp hcfs).1
    · rw [hsame]
      exact h.current_mem
  refine ⟨?_, hcurrent, ?_, ?_, ?_, ?_, ?_, ?_, ?_, hfacts.bound, ?_⟩
  · rw [select_tasks]
    exact hfacts.task_structs
  · rwa [select_tasks]
  · intro p
    rw [select_cfs_perm.mem_iff, select_tasks]
    exact hfacts.cfs p
  · intro p
    rw [select_rt, select_tasks]
    exact hfacts.rt p
  · rw [select_cfs_perm.length_eq, select_rt]
    exact hfacts.nr_running
  · rw [select_tasks]
    exact hfacts.pids
  · rw [select_tasks]
    exact hfacts.heap
  · rw [select_tasks]
    exact hfacts.room
  · rw [select_tasks]
    exact hfacts.awake

theorem schedule_spec (h : Sound k a) :
    ∃ k', __schedule k = .ok k' ∧ Sound k' a.select ∧
      k'.history = k.history ++ [.select a.select.current] := by
  obtain ⟨k1, hpick, hrings, hcore⟩ := pick_next_task_spec h
  have halike := Alike.of_core hcore
  have hhistory := core_history hcore
  obtain ⟨next, hnext⟩ : ∃ next, next = a.select.current := ⟨_, rfl⟩
  rw [← hnext] at hpick ⊢
  have hsound : Sound { k1.log (.select next) with current_task := next } a.select := by
    refine ⟨h.facts.select hnext ?_, ?_⟩
    · exact ⟨halike.task_structs, rfl, halike.nr_running, halike.next_pid, halike.heap_ptr, halike.pid,
        halike.sched_class, halike.state⟩
    · rw [select_rt, select_tasks]
      exact hrings.of_same fun _ => rfl
  have hlog : (k1.log (.select next)).history = k.history ++ [.select next] := by
    rw [← hhistory]
    rfl
  unfold __schedule
  rw [hpick]
  simp only [bind, Except.bind]
  split
  · rename_i heq
    -- The choice is the task that runs, so `current_task` is already right.
    have hsame : { k1.log (.select next) with current_task := next } = k1.log (.select next) := by
      rw [heq, ← halike.current_task]
      rfl
    rw [hsame] at hsound
    exact ⟨_, rfl, hsound.update rfl rfl rfl rfl id, hlog⟩
  · split
    · refine ⟨_, rfl, ⟨hsound.facts.of_alike ?_, hsound.rings.of_same fun _ => rfl⟩, hlog⟩
      exact ⟨rfl, rfl, rfl, rfl, rfl, fun _ => rfl, fun _ => rfl, fun _ => id⟩
    · refine ⟨_, rfl, ⟨hsound.facts.of_alike ?_, hsound.rings.of_same fun _ => rfl⟩, hlog⟩
      exact ⟨rfl, rfl, rfl, rfl, rfl, fun _ => rfl, fun _ => rfl, fun _ => id⟩

end Relis.Sched
