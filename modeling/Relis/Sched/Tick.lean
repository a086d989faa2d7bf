import Relis.Code.Tick
import Relis.Lists.Writes
import Relis.Sched.Run

/-!
# The run time of fair tasks

The list node of a real-time task lies over `sum_exec_runtime` and `vruntime`. No call
writes one view of a task that has the other.
-/

open Relis.Bytes Relis.Code Relis.Dll Relis.Lists Relis.Run

namespace Relis.Sched

variable {k k' k1 k2 : Kernel} {a : Queues} {p q : Nat} {P : ListNode → Prop}

/-! ## The words before the node of `se` -/

def SameWords (t t' : Task) : Prop := ∀ i < SE_RUN_NODE, t'.entity i = t.entity i

theorem SameWords.trans {t1 t2 t3 : Task} (h1 : SameWords t1 t2) (h2 : SameWords t2 t3) :
    SameWords t1 t3 :=
  fun i hi => (h2 i hi).trans (h1 i hi)

theorem sameWords_set_entity {i : Nat} {w : Word} (h : q = p → SE_RUN_NODE ≤ i) :
    SameWords (k.task q) ((k.set_entity p i w).task q) := by
  intro j hj
  rw [entity_set_entity, if_neg]
  rintro ⟨rfl, rfl⟩
  exact absurd (h rfl) (by omega)

theorem sameWords_update {f : Task → Task} (hf : (f (k.task p)).entity = (k.task p).entity) :
    SameWords (k.task q) ((k.update_task p f).task q) := by
  intro i _
  rw [task_update]
  split_ifs with hq
  · rw [hf, hq]
  · rfl

theorem sameWords_of_writes (h : Writes P k k') (hq : ¬P (.rt_run_node q)) :
    SameWords (k.task q) (k'.task q) := by
  have hstore : ∀ (k : Kernel) (n : ListNode) (w : Word), P n →
      SameWords (k.task q) ((k.store_next n w).task q) ∧
        SameWords (k.task q) ((k.store_prev n w).task q) := by
    intro k n w hn
    cases n with
    | cfs_queue => exact ⟨fun _ _ => rfl, fun _ _ => rfl⟩
    | rt_queue => exact ⟨fun _ _ => rfl, fun _ _ => rfl⟩
    | global_tasks => exact ⟨fun _ _ => rfl, fun _ _ => rfl⟩
    | tasks p =>
      exact ⟨sameWords_update (f := fun t => { t with tasks.next := w }) rfl,
        sameWords_update (f := fun t => { t with tasks.prev := w }) rfl⟩
    | se_run_node p =>
      exact ⟨sameWords_set_entity fun _ => le_rfl, sameWords_set_entity fun _ => Nat.le_succ _⟩
    | rt_run_node p =>
      have hne : q ≠ p := by
        rintro rfl
        exact hq hn
      exact ⟨sameWords_set_entity fun h => absurd h hne, sameWords_set_entity fun h => absurd h hne⟩
  induction h with
  | refl => exact fun _ _ => rfl
  | next v hn _ ih => exact ih.trans (hstore _ _ _ hn).1
  | prev v hn _ ih => exact ih.trans (hstore _ _ _ hn).2

/-! ## The calls -/

theorem enqueue_task_words {cfs rt all : List Nat} (hrings : Rings k cfs rt all) (hq : q ∉ rt)
    (hp : q = p → (k.task p).sched_class ≠ .rt_sched_class) (henqueue : enqueue_task k p = .ok k') :
    SameWords (k.task q) (k'.task q) := by
  unfold enqueue_task at henqueue
  cases hclass : (k.task p).sched_class with
  | idle_sched_class =>
    rw [hclass] at henqueue
    cases henqueue
    exact fun _ _ => rfl
  | fair_sched_class =>
    rw [hclass] at henqueue
    obtain ⟨k1, hadd, hret⟩ := bind_ok.mp henqueue
    cases hret
    have hwrites : Writes (headOf · = .cfs_queue) k k1 := by
      refine list_add_tail_writes hrings.cfs (fun n hn => ?_) hadd
      rcases List.mem_cons.mp hn with rfl | hn
      · rfl
      · exact headOf_mem hn rfl fun _ => rfl
    have hsame : SameWords (k.task q) (k1.task q) := sameWords_of_writes hwrites (by simp [headOf])
    exact hsame
  | rt_sched_class =>
    rw [hclass] at henqueue
    obtain ⟨k1, hadd, hret⟩ := bind_ok.mp henqueue
    cases hret
    have hwrites : Writes (· ≠ .rt_run_node q) k k1 := by
      refine list_add_writes hrings.rt (fun n hn => ?_) hadd
      rintro rfl
      simp only [List.mem_cons, List.mem_map, ListNode.rt_run_node.injEq, reduceCtorEq, false_or] at hn
      rcases hn with rfl | ⟨r, hr, rfl⟩
      · exact hp rfl hclass
      · exact hq hr
    have hsame : SameWords (k.task q) (k1.task q) := sameWords_of_writes hwrites (by simp)
    exact hsame

theorem add_task_words {cfs rt all : List Nat} (hrings : Rings k cfs rt all)
    (hadd : list_add k (.tasks p) .global_tasks = .ok k') : SameWords (k.task q) (k'.task q) := by
  have hwrites : Writes (headOf · = .global_tasks) k k' := by
    refine list_add_writes hrings.all (fun n hn => ?_) hadd
    rcases List.mem_cons.mp hn with rfl | hn
    · rfl
    · exact headOf_mem hn rfl fun _ => rfl
  exact sameWords_of_writes hwrites (by simp [headOf])

theorem enter_lists_words {c : SchedClass} (h : Sound k a) (hprep : Prepared k k' p c)
    (hrings : Rings k' a.cfs a.rt a.tasks) (h1 : enqueue_task k' p = .ok k1)
    (h2 : list_add k1 (.tasks p) .global_tasks = .ok k2) (hq : q ∉ a.rt)
    (hp : q = p → c ≠ .rt_sched_class) : SameWords (k'.task q) (k2.task q) := by
  obtain ⟨k1', hk1', hrings1, -⟩ := enqueue_arrive h hprep hrings
  cases hk1'.symm.trans h1
  rw [← hprep.sched_class] at hp
  exact (enqueue_task_words hrings hq hp h1).trans (add_task_words hrings1 h2)

theorem pick_next_task_fair_words {n : Option Nat} (h : Sound k a)
    (hpick : pick_next_task_fair k = .ok (n, k')) : SameWords (k.task q) (k'.task q) := by
  obtain ⟨tasks, cfs, rt, current⟩ := a
  cases cfs with
  | nil =>
    cases (pick_next_task_fair_nil h.rings).symm.trans hpick
    exact fun _ _ => rfl
  | cons r cfs =>
    have hring := h.rings.cfs
    unfold pick_next_task_fair at hpick
    rw [if_neg (by rw [list_empty_spec hring]; simp), ← links_next, hring.next_head] at hpick
    obtain ⟨next, hnext, hpick⟩ := bind_ok.mp hpick
    obtain ⟨k1, hdel, hpick⟩ := bind_ok.mp hpick
    obtain ⟨k2, hadd, hpick⟩ := bind_ok.mp hpick
    obtain ⟨r', -, hpick⟩ := bind_ok.mp hpick
    cases hnext
    cases hpick
    obtain ⟨k1', hdel', hring1, -⟩ :=
      list_del_spec (A := []) (B := cfs.map ListNode.se_run_node) (e := ListNode.se_run_node r) hring
    cases hdel'.symm.trans hdel
    have hdel_writes : Writes (headOf · = .cfs_queue) k k1 :=
      list_del_writes hring (by simp) (fun n hn => headOf_mem hn rfl fun _ => rfl) hdel'
    have hadd_writes : Writes (headOf · = .cfs_queue) k1 k' := by
      refine list_add_tail_writes hring1 (fun n hn => ?_) hadd
      rcases List.mem_cons.mp hn with rfl | hn
      · rfl
      · exact headOf_mem hn rfl fun _ => rfl
    exact (sameWords_of_writes hdel_writes (by simp [headOf])).trans
      (sameWords_of_writes hadd_writes (by simp [headOf]))

theorem pick_next_task_words (h : Sound k a) (hpick : pick_next_task k = .ok (p, k')) :
    SameWords (k.task q) (k'.task q) := by
  unfold pick_next_task at hpick
  obtain ⟨r, -, hpick⟩ := bind_ok.mp hpick
  cases r with
  | some next =>
    cases hpick
    exact fun _ _ => rfl
  | none =>
    obtain ⟨⟨n, k1⟩, hfair, hpick⟩ := bind_ok.mp hpick
    cases n with
    | some next =>
      cases hpick
      exact pick_next_task_fair_words h hfair
    | none =>
      cases hpick
      exact pick_next_task_fair_words h hfair

theorem schedule_words (h : Sound k a) (hk : __schedule k = .ok k') :
    SameWords (k.task q) (k'.task q) := by
  unfold __schedule at hk
  obtain ⟨⟨next, k1⟩, hpick, hk⟩ := bind_ok.mp hk
  refine (pick_next_task_words h hpick).trans ?_
  dsimp only at hk
  split_ifs at hk
  · cases hk
    exact sameWords_update (k := k1.log (.select next)) rfl
  · cases hk
    exact fun _ _ => rfl
  · cases hk
    exact fun _ _ => rfl

/-! ## The invariant -/

/-- A fair task has its weight, and its two run times are the same number. -/
def Charged (t : Task) : Prop :=
  ∃ v, t.entity SE_SUM_EXEC_RUNTIME = .int v ∧ t.entity SE_VRUNTIME = .int v ∧
    t.entity SE_WEIGHT = .int 1024

theorem Charged.of_sameWords {t t' : Task} (h : Charged t) (hsame : SameWords t t') : Charged t' := by
  obtain ⟨v, hsum, hv, hweight⟩ := h
  refine ⟨v, ?_, ?_, ?_⟩
  · rw [hsame _ (by decide), hsum]
  · rw [hsame _ (by decide), hv]
  · rw [hsame _ (by decide), hweight]

def FairCharged (k : Kernel) : Prop :=
  ∀ p ∈ k.task_structs, (k.task p).sched_class = .fair_sched_class → Charged (k.task p)

theorem FairCharged.of_same (h : FairCharged k) (hstructs : k'.task_structs = k.task_structs)
    (hclass : ∀ q, (k'.task q).sched_class = (k.task q).sched_class)
    (hwords : ∀ q, (k.task q).sched_class = .fair_sched_class → SameWords (k.task q) (k'.task q)) :
    FairCharged k' := by
  intro q hq hfair
  rw [hclass] at hfair
  rw [hstructs] at hq
  exact (h q hq hfair).of_sameWords (hwords q hfair)

theorem Sound.charged (h : Sound k a) (hcharged : FairCharged k) (hq : q ∈ a.cfs) :
    Charged (k.task q) := by
  obtain ⟨htask, hclass⟩ := (h.facts.cfs q).mp hq
  exact hcharged q (h.facts.task_structs ▸ htask) hclass

theorem Sound.not_rt (h : Sound k a) (hq : q ∈ a.cfs) : q ∉ a.rt := by
  intro hrt
  have hfair := ((h.facts.cfs q).mp hq).2
  rw [((h.facts.rt q).mp hrt).2] at hfair
  cases hfair

theorem FairCharged.arrive {c : SchedClass} {k3 : Kernel} (hcharged : FairCharged k) (h : Sound k a)
    (hprep : Prepared k k1 p c) (hrings : Rings k1 a.cfs a.rt a.tasks)
    (hold : ∀ q, q ≠ p → SameWords (k.task q) (k1.task q))
    (hnew : c = .fair_sched_class → Charged (k1.task p)) (h2 : enqueue_task k1 p = .ok k2)
    (h3 : list_add k2 (.tasks p) .global_tasks = .ok k3) : FairCharged k3 := by
  obtain ⟨k2', k3', h2', h3', hsound, -⟩ := enter_lists h hprep hrings
  cases h2'.symm.trans h2
  cases h3'.symm.trans h3
  intro q hq hfair
  have hmem : q ∈ (a.arrive p c).cfs := (hsound.facts.cfs q).mpr ⟨hsound.facts.task_structs ▸ hq, hfair⟩
  rcases (mem_arrive_cfs c).mp hmem with hcfs | ⟨rfl, rfl⟩
  · have hne : q ≠ p := by
      rintro rfl
      exact (hprep.place ▸ h.not_queued).1 hcfs
    have hwords := enter_lists_words h hprep hrings h2 h3 (h.not_rt hcfs) fun heq => absurd heq hne
    exact (h.charged hcharged hcfs).of_sameWords ((hold q hne).trans hwords)
  · have hrt : q ∉ a.rt := (hprep.place ▸ h.not_queued).2
    exact (hnew rfl).of_sameWords (enter_lists_words h hprep hrings h2 h3 hrt fun _ => by simp)

theorem new_thread_charged (p pid : Nat) (cr3 fn arg : BitVec 64) {policy : BitVec 32}
    (hfair : policyClass policy = .fair_sched_class) :
    Charged (new_thread p pid cr3 fn arg policy) := by
  have hpolicy : ¬(policy = SCHED_FIFO ∨ policy = SCHED_RR) := by
    intro hrt
    rw [policyClass, if_pos hrt] at hfair
    cases hfair
  unfold new_thread
  simp only [if_neg hpolicy]
  exact ⟨0, rfl, rfl, rfl⟩

theorem kernel_thread_charged (hcharged : FairCharged k) (h : Sound k a) {fn arg : BitVec 64}
    {policy : BitVec 32} {ret : Int} (hk : kernel_thread k fn arg policy = .ok (ret, k')) :
    FairCharged k' := by
  rcases kernel_thread_ok hk with ⟨-, rfl⟩ | ⟨heap_ptr, k1, k2, k3, hptr, h1, h2, h3, rfl⟩
  · exact hcharged
  have hfiles : Files (Kernel.new_task { k with heap_ptr := heap_ptr, next_pid := u32 (k.next_pid + 1) }
      k.heap_ptr.toNat (new_thread k.heap_ptr.toNat k.next_pid k.mm.cr3 fn arg policy)) k1
        k.heap_ptr.toNat := by
    rcases task_setup_stdio_spec _ _ with herr | ⟨k1', hok, hfiles⟩
    · cases herr.symm.trans h1
    · cases hok.symm.trans h1
      exact hfiles
  obtain ⟨hprep, hrings⟩ := new_thread_prepared h hptr hfiles
  have hcharged3 : FairCharged k3 := by
    refine hcharged.arrive h hprep hrings (fun q hq => ?_) (fun hfair => ?_) h2 h3
    · rw [hfiles.others q hq, task_new, if_neg hq]
      exact fun _ _ => rfl
    · obtain ⟨files, hself⟩ := hfiles.self
      rw [task_new, if_pos rfl] at hself
      have hnew := new_thread_charged k.heap_ptr.toNat k.next_pid k.mm.cr3 fn arg hfair
      rw [hself]
      exact hnew
  exact hcharged3

theorem init_words (k : Kernel) (p q : Nat) :
    SameWords (k.task q) ((INIT_LIST_HEAD k (.se_run_node p)).task q) :=
  sameWords_of_writes (init_list_head_writes (P := (· = .se_run_node p)) k rfl) (by simp)

theorem fork_words {parent : Task} {pid : Nat} {cr3 : BitVec 64} {regs : Registers} :
    SameWords parent
      ((INIT_LIST_HEAD (k.new_task p (fork_task parent p pid cr3 regs)) (.se_run_node p)).task
      p) := by
  refine SameWords.trans (fun i _ => ?_) (init_words _ p p)
  rw [task_new, if_pos rfl]
  rfl

theorem sys_fork_charged (hcharged : FairCharged k) (h : Sound k a) {regs : Registers} {ret : Int}
    (hk : sys_fork k regs = .ok (ret, k')) : FairCharged k' := by
  rcases sys_fork_cases k regs with ⟨-, heq⟩ | ⟨heap_ptr, -, hptr, hle, heq⟩
  · cases heq.symm.trans hk
    exact hcharged
  rw [heq] at hk
  obtain ⟨⟨cr3, mm⟩, -, hk⟩ := bind_ok.mp hk
  obtain ⟨k2, h2, hk⟩ := bind_ok.mp hk
  obtain ⟨k3, h3, hk⟩ := bind_ok.mp hk
  cases hk
  obtain ⟨hprep, hrings⟩ := fork_prepared h hptr hle mm cr3 regs rfl
  have hcharged3 : FairCharged k3 := by
    refine hcharged.arrive h hprep hrings (fun q hq => ?_) (fun hfair => ?_) h2 h3
    · refine SameWords.trans (fun i _ => ?_) (init_words _ _ q)
      rw [task_new, if_neg hq]
    · have hparent := hcharged k.current_task (h.facts.task_structs ▸ h.current_mem) hfair
      exact hparent.of_sameWords fork_words
  let f : Task → Task :=
    fun t => { t with pending_signals := t.pending_signals ||| sig_bit RELIS_SIGCHLD }
  refine hcharged3.of_same rfl (fun q => ?_) fun q _ => ?_
  · exact (Alike.of_update (k := k3) (p := k.current_task) (f := f) rfl rfl id).sched_class q
  · exact sameWords_update (k := k3) (p := k.current_task) (f := f) rfl

theorem schedule_charged (hcharged : FairCharged k) (h : Sound k a) (hk : __schedule k = .ok k') :
    FairCharged k' := by
  obtain ⟨k1, hk1, hsound, -⟩ := schedule_spec h
  cases hk1.symm.trans hk
  intro q hq hfair
  have hcfs : q ∈ a.select.cfs := (hsound.facts.cfs q).mpr ⟨hsound.facts.task_structs ▸ hq, hfair⟩
  exact (h.charged hcharged (select_cfs_perm.mem_iff.mp hcfs)).of_sameWords (schedule_words h hk)

/-! ## The tick -/

variable {f : Task → Task}

theorem node_at_update_words {n : ListNode} (hn : n ≠ .rt_run_node p)
    (hwords : ∀ i, SE_RUN_NODE ≤ i → (f (k.task p)).entity i = (k.task p).entity i)
    (htasks : (f (k.task p)).tasks = (k.task p).tasks) :
    (k.update_task p f).node_at n = k.node_at n := by
  cases n with
  | cfs_queue => rfl
  | rt_queue => rfl
  | global_tasks => rfl
  | tasks q =>
    simp only [Kernel.node_at, task_update]
    split_ifs with hq
    · rw [htasks, hq]
    · rfl
  | se_run_node q =>
    simp only [Kernel.node_at, task_update]
    split_ifs with hq
    · rw [hwords _ le_rfl, hwords _ (Nat.le_succ _), hq]
    · rfl
  | rt_run_node q =>
    have hq : q ≠ p := by
      rintro rfl
      exact hn rfl
    simp only [Kernel.node_at, task_update, if_neg hq]

theorem Sound.update_words (h : Sound k a) (hp : p ∉ a.rt)
    (hwords : ∀ i, SE_RUN_NODE ≤ i → (f (k.task p)).entity i = (k.task p).entity i)
    (htasks : (f (k.task p)).tasks = (k.task p).tasks) (hpid : (f (k.task p)).pid = (k.task p).pid)
    (hclass : (f (k.task p)).sched_class = (k.task p).sched_class)
    (hstate : (f (k.task p)).state = .TASK_INTERRUPTIBLE → (k.task p).state = .TASK_INTERRUPTIBLE) :
    Sound (k.update_task p f) a := by
  refine ⟨h.facts.of_alike (.of_update hpid hclass hstate), ?_⟩
  have hsame : ∀ n, n ≠ .rt_run_node p → SameLinks k (k.update_task p f) n :=
    fun n hn => sameLinks_of_node_at (node_at_update_words hn hwords htasks)
  refine ⟨ring_of_sameLinks h.rings.cfs fun n hn => hsame n ?_,
    ring_of_sameLinks h.rings.rt fun n hn => hsame n ?_,
    ring_of_sameLinks h.rings.all fun n hn => hsame n ?_⟩
  · rintro rfl
    simp at hn
  · rintro rfl
    simp [hp] at hn
  · rintro rfl
    simp at hn

theorem FairCharged.update (h : FairCharged k)
    (hclass : (f (k.task p)).sched_class = (k.task p).sched_class)
    (hcharged : (k.task p).sched_class = .fair_sched_class → Charged (k.task p) →
      Charged (f (k.task p))) : FairCharged (k.update_task p f) := by
  intro q hq hfair
  rw [task_update] at hfair ⊢
  split_ifs at hfair ⊢ with hqp
  · rw [hclass] at hfair
    exact hcharged hfair (h p (hqp ▸ hq) hfair)
  · exact h q hq hfair

theorem need_resched_spec (h : Sound k a) (hcharged : FairCharged k) (p : Nat) :
    Sound (k.update_task p need_resched) a ∧ FairCharged (k.update_task p need_resched) :=
  ⟨h.update rfl rfl rfl rfl id, hcharged.update rfl fun _ hp => hp⟩

theorem task_tick_fair_entity (t : Task) (i : Nat) : (task_tick_fair t).entity i =
    Function.update (Function.update t.entity SE_SUM_EXEC_RUNTIME
      ((t.entity SE_SUM_EXEC_RUNTIME).add 1)) SE_VRUNTIME ((t.entity SE_VRUNTIME).add
        ((1024 / (t.entity SE_WEIGHT).value.setWidth 32).setWidth 64)) i :=
  rfl

theorem task_tick_fair_charged {t : Task} (h : Charged t) : Charged (task_tick_fair t) := by
  obtain ⟨v, hsum, hv, hweight⟩ := h
  refine ⟨v + 1, ?_, ?_, ?_⟩
  · rw [task_tick_fair_entity, Function.update_of_ne (by decide), Function.update_self, hsum]
    rfl
  · rw [task_tick_fair_entity, Function.update_self, hv, hweight]
    rfl
  · rw [task_tick_fair_entity, Function.update_of_ne (by decide),
      Function.update_of_ne (by decide), hweight]

theorem scheduler_tick_spec (h : Sound k a) (hcharged : FairCharged k) :
    Sound (scheduler_tick k) a ∧ FairCharged (scheduler_tick k) := by
  obtain ⟨k1, hk1⟩ : ∃ k1, k1 = { k with clock := k.clock + 1 } := ⟨_, rfl⟩
  have hsound : Sound k1 a := by
    rw [hk1]
    exact ⟨h.facts.of_alike ⟨rfl, rfl, rfl, rfl, rfl, fun _ => rfl, fun _ => rfl, fun _ => id⟩,
      h.rings.of_same fun _ => rfl⟩
  have hcharged1 : FairCharged k1 := by
    rw [hk1]
    exact hcharged
  have htick : scheduler_tick k =
      k1.update_task k1.current_task (k1.task k1.current_task).sched_class.task_tick := by
    rw [hk1]
    rfl
  rw [htick]
  cases hclass : (k1.task k1.current_task).sched_class with
  | fair_sched_class =>
    have hrt := hsound.not_rt ((hsound.facts.cfs _).mpr ⟨hsound.current_mem, hclass⟩)
    refine ⟨hsound.update_words hrt (fun i hi => ?_) rfl rfl rfl id,
      hcharged1.update rfl fun _ => task_tick_fair_charged⟩
    have hne : i ≠ SE_VRUNTIME ∧ i ≠ SE_SUM_EXEC_RUNTIME := by
      simp only [SE_RUN_NODE, SE_VRUNTIME, SE_SUM_EXEC_RUNTIME] at hi ⊢
      omega
    change (task_tick_fair _).entity i = _
    rw [task_tick_fair_entity, Function.update_of_ne hne.1, Function.update_of_ne hne.2]
  | rt_sched_class =>
    have hcases : k1.update_task k1.current_task task_tick_rt =
      k1.update_task k1.current_task need_resched ∨
        k1.update_task k1.current_task task_tick_rt = k1.update_task k1.current_task id := by
      unfold Kernel.update_task task_tick_rt
      split_ifs
      · exact .inl rfl
      · exact .inr rfl
    change Sound (k1.update_task _ task_tick_rt) a ∧ FairCharged (k1.update_task _ task_tick_rt)
    rcases hcases with heq | heq
    · rw [heq]
      exact need_resched_spec hsound hcharged1 _
    · rw [heq]
      exact ⟨hsound.update rfl rfl rfl rfl id, hcharged1.update rfl fun _ hp => hp⟩
  | idle_sched_class => exact need_resched_spec hsound hcharged1 _

/-! ## Every state -/

inductive Ticking (k0 : Kernel) : Kernel → Prop
  | start : Ticking k0 k0
  | kernel_thread {k k' : Kernel} {fn arg : BitVec 64} {policy : BitVec 32} {ret : Int} :
    Ticking k0 k → kernel_thread k fn arg policy = .ok (ret, k') → Ticking k0 k'
  | sys_fork {k k' : Kernel} {regs : Registers} {ret : Int} :
    Ticking k0 k → sys_fork k regs = .ok (ret, k') → Ticking k0 k'
  | schedule {k k' : Kernel} : Ticking k0 k → __schedule k = .ok k' → Ticking k0 k'
  | scheduler_tick {k : Kernel} : Ticking k0 k → Ticking k0 (scheduler_tick k)

theorem ticking_sound {k0 : Kernel} {a0 : Queues} (h0 : Sound k0 a0) (hcharged0 : FairCharged k0)
    (hk : Ticking k0 k) : ∃ a, Sound k a ∧ FairCharged k := by
  induction hk with
  | start => exact ⟨a0, h0, hcharged0⟩
  | @kernel_thread k k' fn arg policy ret _ hk ih =>
    obtain ⟨a, h, hcharged⟩ := ih
    obtain ⟨es, a', hmoved⟩ := Moved.of_spawned h (kernel_thread_spawned h hk)
    exact ⟨a', hmoved.sound, kernel_thread_charged hcharged h hk⟩
  | @sys_fork k k' regs ret _ hk ih =>
    obtain ⟨a, h, hcharged⟩ := ih
    obtain ⟨es, a', hmoved⟩ := Moved.of_spawned h (sys_fork_spawned h hk)
    exact ⟨a', hmoved.sound, sys_fork_charged hcharged h hk⟩
  | schedule _ hk ih =>
    obtain ⟨a, h, hcharged⟩ := ih
    obtain ⟨k1, hok, hsound, -⟩ := schedule_spec h
    cases hok.symm.trans hk
    exact ⟨_, hsound, schedule_charged hcharged h hk⟩
  | scheduler_tick _ ih =>
    obtain ⟨a, h, hcharged⟩ := ih
    exact ⟨a, scheduler_tick_spec h hcharged⟩

/-- In every state every fair task has the weight 1024 and two equal run times, so a tick does
not divide by zero. -/
theorem ticking_charged {mm : Mm} {heap_ptr : BitVec 32} {k0 k : Kernel}
    (hinit : sched_init (Kernel.boot mm heap_ptr) = .ok k0) (hk : Ticking k0 k) :
    (∀ p ∈ k.task_structs, (k.task p).sched_class = .fair_sched_class →
      ∃ v, (k.task p).entity SE_WEIGHT = .int 1024 ∧ (k.task p).entity SE_SUM_EXEC_RUNTIME = .int v ∧
        (k.task p).entity SE_VRUNTIME = .int v) ∧
      ((k.task k.current_task).sched_class = .fair_sched_class →
        ((k.task k.current_task).entity SE_WEIGHT).value.setWidth 32 ≠ (0 : BitVec 32)) := by
  obtain ⟨hsound0, -⟩ := sched_init_sound hinit
  have hcharged0 : FairCharged k0 := by
    intro p hp hfair
    have hcfs := (hsound0.facts.cfs p).mpr ⟨hsound0.facts.task_structs ▸ hp, hfair⟩
    cases hcfs
  obtain ⟨a, hsound, hcharged⟩ := ticking_sound hsound0 hcharged0 hk
  constructor
  · intro p hp hfair
    obtain ⟨v, hsum, hv, hweight⟩ := hcharged p hp hfair
    exact ⟨v, hweight, hsum, hv⟩
  · intro hfair
    obtain ⟨v, -, -, hweight⟩ := hcharged _ (hsound.facts.task_structs ▸ hsound.current_mem) hfair
    rw [hweight]
    decide

/-- A fair task and a tick while it runs. -/
theorem ticking_charged_small : ∃ k0 k, sched_init (Kernel.boot bareMm 0) = .ok k0 ∧ Ticking k0 k ∧
    17136 ∈ k.task_structs ∧ (k.task 17136).sched_class = .fair_sched_class ∧
    (k.task 17136).entity SE_WEIGHT = .int 1024 := by
  have htest :
      (sched_init (Kernel.boot bareMm 0) >>= fun k0 =>
        kernel_thread k0 0 0 SCHED_NORMAL >>= fun r => __schedule r.2).toOption.any fun k =>
        17136 ∈ (scheduler_tick k).task_structs ∧
          ((scheduler_tick k).task 17136).sched_class = .fair_sched_class := by
    decide +kernel
  obtain ⟨k2, hk2, hfair⟩ := exists_of_any htest
  obtain ⟨k0, hinit, hk2⟩ := bind_ok.mp hk2
  obtain ⟨⟨r, k1⟩, hk1, hk2⟩ := bind_ok.mp hk2
  obtain ⟨hmem, hclass⟩ := of_decide_eq_true hfair
  have hticking : Ticking k0 (scheduler_tick k2) :=
    .scheduler_tick (.schedule (.kernel_thread .start hk1) hk2)
  obtain ⟨v, hweight, -⟩ := (ticking_charged hinit hticking).1 17136 hmem hclass
  exact ⟨k0, _, hinit, hticking, hmem, hclass, hweight⟩

end Relis.Sched
