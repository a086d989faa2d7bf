import Relis.Code.Exec
import Relis.Sched.Inv

/-!
# Tasks and the memory they run in

A call makes at most one new task, and leaves what the other tasks say about their memory.
-/

open Relis.Bytes Relis.Code Relis.Lists Relis.Run Relis.Sched Relis.Slab

namespace Relis.Process

variable {k k' k1 k2 k3 : Kernel} {p q : Nat} {L : List Nat} {new old : BitVec 64} {elf_data : Mem}

structure TaskMemory where
  cr3 : BitVec 64
  stack_start : BitVec 64
  stack_end : BitVec 64
  shm_pages : Nat → BitVec 64
  shm_count : Nat
  kernel_stack_top : StackPtr

def memory (t : Task) : TaskMemory :=
  ⟨t.cr3, t.stack_start, t.stack_end, t.shm_pages, t.shm_count, t.kernel_stack_top⟩

/-! ## Links lead to tasks -/

def nodeTask : ListNode → Option Nat
  | .se_run_node p | .rt_run_node p | .tasks p => some p
  | _ => none

def InTasks (L : List Nat) (n : ListNode) : Prop := ∀ p, nodeTask n = some p → p ∈ L

structure Linked (k : Kernel) : Prop where
  links : LinksIn (InTasks k.task_structs) k
  heap : ∀ p ∈ k.task_structs, p < k.heap_ptr.toNat
  current : k.current_task ∈ k.task_structs

theorem Linked.fresh (h : Linked k) : k.heap_ptr.toNat ∉ k.task_structs :=
  fun hp => Nat.lt_irrefl _ (h.heap _ hp)

theorem Linked.current_ne (h : Linked k) : k.current_task ≠ k.heap_ptr.toNat := by
  intro heq
  exact h.fresh (heq ▸ h.current)

theorem inTasks_head {n : ListNode} (h : nodeTask n = none) : InTasks L n := by
  intro p hp
  rw [h] at hp
  cases hp

theorem links_of_nodes {P : ListNode → Prop} (h : LinksIn P k)
    (hnodes : ∀ n, (∃ m, k'.node_at n = k.node_at m) ∨ k'.node_at n = ⟨.int 0, .int 0⟩) :
    LinksIn P k' := by
  intro a b hb
  change (k'.node_at a).next.link = some b ∨ (k'.node_at a).prev.link = some b at hb
  rcases hnodes a with ⟨m, hm⟩ | hnone
  · rw [hm] at hb
    exact h m b hb
  · rw [hnone] at hb
    rcases hb with hb | hb <;> cases hb

theorem links_of_same {P : ListNode → Prop} (h : LinksIn P k)
    (hsame : ∀ n, k'.node_at n = k.node_at n) : LinksIn P k' :=
  links_of_nodes h fun n => .inl ⟨n, hsame n⟩

theorem Linked.of_same (h : Linked k) (hsame : ∀ n, k'.node_at n = k.node_at n)
    (htasks : k'.task_structs = k.task_structs) (hheap : k.heap_ptr.toNat ≤ k'.heap_ptr.toNat)
    (hcurrent : k'.current_task = k.current_task) : Linked k' := by
  refine ⟨?_, ?_, ?_⟩
  · rw [htasks]
    exact links_of_same h.links hsame
  · rw [htasks]
    intro p hp
    exact (h.heap p hp).trans_le hheap
  · rw [htasks, hcurrent]
    exact h.current

def Relinked (k k' : Kernel) : Prop := core k' = { core k with nr_running := k'.nr_running }

theorem Relinked.of_core (h : core k' = core k) : Relinked k k' := by
  unfold Relinked
  rw [h, show k'.nr_running = k.nr_running from (congrArg Kernel.nr_running h :)]
  rfl

theorem Relinked.trans (h1 : Relinked k k1) (h2 : Relinked k1 k2) : Relinked k k2 := by
  unfold Relinked at h1 h2 ⊢
  rw [h2, h1]

theorem Relinked.memory (h : Relinked k k') (q : Nat) : memory (k'.task q) = memory (k.task q) :=
  (congrArg (fun k => Process.memory (Kernel.task k q)) h :)

section
variable {P : ListNode → Prop} (hhead : ∀ n, nodeTask n = none → P n) (hin : LinksIn P k)
include hhead hin

theorem enqueue_task_links (hp : ∀ n, nodeTask n = some p → P n) (h : enqueue_task k p = .ok k') :
    LinksIn P k' ∧ Relinked k k' := by
  unfold enqueue_task at h
  cases hclass : (k.task p).sched_class with
  | rt_sched_class =>
    rw [hclass] at h
    obtain ⟨k1, hadd, h⟩ := bind_ok.mp h
    cases h
    obtain ⟨hlinks, hrelinks⟩ := list_add_links hin (hp _ rfl) (hhead _ rfl) hadd
    refine ⟨links_of_same hlinks fun _ => rfl, ?_⟩
    unfold Relinked
    rw [← core_relinks hrelinks]
    rfl
  | fair_sched_class =>
    rw [hclass] at h
    obtain ⟨k1, hadd, h⟩ := bind_ok.mp h
    cases h
    obtain ⟨hlinks, hrelinks⟩ := list_add_tail_links hin (hp _ rfl) (hhead _ rfl) hadd
    refine ⟨links_of_same hlinks fun _ => rfl, ?_⟩
    unfold Relinked
    rw [← core_relinks hrelinks]
    rfl
  | idle_sched_class =>
    rw [hclass] at h
    cases h
    exact ⟨hin, .of_core rfl⟩

theorem pick_next_task_links {next : Nat} (h : pick_next_task k = .ok (next, k')) :
    (next = k.current_task ∨ ∃ n, P n ∧ nodeTask n = some next) ∧ LinksIn P k' ∧
      core k' = core k := by
  unfold pick_next_task at h
  obtain ⟨rt, hrt, h⟩ := bind_ok.mp h
  cases rt with
  | some p =>
    cases h
    unfold pick_next_task_rt at hrt
    split at hrt
    · cases hrt
    obtain ⟨n, hn, hrt⟩ := bind_ok.mp hrt
    obtain ⟨p', hp', hrt⟩ := bind_ok.mp hrt
    cases hrt
    unfold deref at hn
    split at hn <;> cases hn
    rename_i hnext
    unfold rt_entry at hp'
    split at hp' <;> cases hp'
    exact ⟨.inr ⟨_, hin _ _ (.inl hnext), rfl⟩, hin, rfl⟩
  | none =>
    obtain ⟨⟨fair, k1⟩, hfair, h⟩ := bind_ok.mp h
    unfold pick_next_task_fair at hfair
    split at hfair
    · cases hfair
      cases h
      exact ⟨.inl rfl, hin, rfl⟩
    obtain ⟨n, hn, hfair⟩ := bind_ok.mp hfair
    obtain ⟨k2, hdel, hfair⟩ := bind_ok.mp hfair
    obtain ⟨k3, hadd, hfair⟩ := bind_ok.mp hfair
    obtain ⟨p, hp, hfair⟩ := bind_ok.mp hfair
    cases hfair
    cases h
    unfold deref at hn
    split at hn <;> cases hn
    rename_i hnext
    have hnode := hin _ _ (.inl hnext)
    obtain ⟨hlinks2, hrelinks2⟩ := list_del_links hin hdel
    obtain ⟨hlinks3, hrelinks3⟩ := list_add_tail_links hlinks2 hnode (hhead _ rfl) hadd
    unfold se_entry at hp
    split at hp <;> cases hp
    exact ⟨.inr ⟨_, hnode, rfl⟩, hlinks3, (core_relinks hrelinks3).trans (core_relinks hrelinks2)⟩

end

/-! ## New tasks -/

structure NewTask (k k' : Kernel) (mem : TaskMemory) : Prop where
  task_structs : k'.task_structs = k.heap_ptr.toNat :: k.task_structs
  new : memory (k'.task k.heap_ptr.toNat) = mem
  others : ∀ q ≠ k.heap_ptr.toNat, memory (k'.task q) = memory (k.task q)
  current_task : k'.current_task = k.current_task
  tss_rsp0 : k'.tss_rsp0 = k.tss_rsp0
  selected : ∀ q, .select q ∈ k'.history ↔ .select q ∈ k.history
  linked : Linked k'

variable {mem : TaskMemory}

theorem links_cons (h : LinksIn (InTasks L) k) (p : Nat) : LinksIn (InTasks (p :: L)) k :=
  fun a b hb q hq => List.mem_cons_of_mem p (h a b hb q hq)

theorem NewTask.fill {heap_ptr : BitVec 32} (h : Linked k) (next_pid : Nat) (mm : Mm) (t : Task)
    (hheap : k.heap_ptr.toNat < heap_ptr.toNat)
    (hnodes : ∀ n ∈ nodesOf k.heap_ptr.toNat, (∃ m, (k.new_task k.heap_ptr.toNat t).node_at n = k.node_at m) ∨
      (k.new_task k.heap_ptr.toNat t).node_at n = ⟨.int 0, .int 0⟩) :
    NewTask k (Kernel.new_task { k with heap_ptr := heap_ptr, next_pid := next_pid, mm := mm } k.heap_ptr.toNat t)
      (memory t) := by
  refine ⟨rfl, ?_, ?_, rfl, rfl, fun _ => Iff.rfl, ?_, ?_, List.mem_cons_of_mem _ h.current⟩
  · rw [task_new, if_pos rfl]
  · intro q hq
    rw [task_new, if_neg hq]
  · refine links_of_nodes (links_cons h.links _) fun n => ?_
    by_cases hn : n ∈ nodesOf k.heap_ptr.toNat
    · exact hnodes n hn
    · exact .inl ⟨n, node_at_new t hn⟩
  · rintro q (_ | ⟨_, hq⟩)
    · exact hheap
    · exact (h.heap q hq).trans hheap

theorem NewTask.keep (h : NewTask k k1 mem) (hlinks : LinksIn (InTasks k1.task_structs) k2)
    (htasks : k2.task_structs = k1.task_structs)
    (hmemory : ∀ q, memory (k2.task q) = memory (k1.task q))
    (hheap : k1.heap_ptr.toNat ≤ k2.heap_ptr.toNat) (hcurrent : k2.current_task = k1.current_task)
    (htss : k2.tss_rsp0 = k1.tss_rsp0) (hhistory : k2.history = k1.history) : NewTask k k2 mem := by
  refine ⟨htasks.trans h.task_structs, (hmemory _).trans h.new,
    fun q hq => (hmemory q).trans (h.others q hq), hcurrent.trans h.current_task,
    htss.trans h.tss_rsp0, ?_, ?_, ?_, ?_⟩
  · rw [hhistory]
    exact h.selected
  · rw [htasks]
    exact hlinks
  · rw [htasks]
    intro p hp
    exact (h.linked.heap p hp).trans_le hheap
  · rw [htasks, hcurrent]
    exact h.linked.current

theorem NewTask.init (h : NewTask k k1 mem) :
    NewTask k (INIT_LIST_HEAD k1 (.se_run_node k.heap_ptr.toNat)) mem ∧
    (INIT_LIST_HEAD k1 (.se_run_node k.heap_ptr.toNat)).mm = k1.mm := by
  have hcore := core_relinks (init_list_head_spec k1 (.se_run_node k.heap_ptr.toNat)).2.1
  have hnode : InTasks k1.task_structs (.se_run_node k.heap_ptr.toNat) := by
    rintro q ⟨⟩
    rw [h.task_structs]
    exact List.mem_cons_self
  have hheap : (INIT_LIST_HEAD k1 (.se_run_node k.heap_ptr.toNat)).heap_ptr = k1.heap_ptr :=
    (congrArg Kernel.heap_ptr hcore :)
  exact ⟨h.keep (init_list_head_links h.linked.links hnode) (congrArg Kernel.task_structs hcore :)
    (Relinked.of_core hcore).memory (by rw [hheap]) (congrArg Kernel.current_task hcore :)
    (congrArg Kernel.tss_rsp0 hcore :) (congrArg Kernel.history hcore :), (congrArg Kernel.mm hcore :)⟩

theorem NewTask.update {f : Task → Task} (h : NewTask k k1 mem)
    (hmemory : memory (f (k1.task p)) = memory (k1.task p))
    (hentity : (f (k1.task p)).entity = (k1.task p).entity)
    (htasks : (f (k1.task p)).tasks = (k1.task p).tasks) : NewTask k (k1.update_task p f) mem := by
  refine h.keep (links_of_same h.linked.links fun _ => node_at_update hentity htasks) rfl ?_
    (Nat.le_refl _) rfl rfl rfl
  intro q
  rw [task_update]
  split_ifs with hq
  · rw [hq, hmemory]
  · rfl

theorem NewTask.admit (h : NewTask k k1 mem) (h2 : enqueue_task k1 k.heap_ptr.toNat = .ok k2)
    (h3 : list_add k2 (.tasks k.heap_ptr.toNat) .global_tasks = .ok k3) :
    NewTask k k3 mem ∧ k3.mm = k1.mm := by
  have hp : k.heap_ptr.toNat ∈ k1.task_structs := by
    rw [h.task_structs]
    exact List.mem_cons_self
  have hnode : ∀ n, nodeTask n = some k.heap_ptr.toNat → InTasks k1.task_structs n := by
    intro n hn q hq
    rw [hn] at hq
    cases hq
    exact hp
  obtain ⟨hlinks2, hsame2⟩ := enqueue_task_links (fun _ => inTasks_head) h.linked.links hnode h2
  obtain ⟨hlinks3, hrelinks⟩ := list_add_links hlinks2 (hnode _ rfl) (inTasks_head rfl) h3
  have hsame := hsame2.trans (.of_core (core_relinks hrelinks))
  have hheap : k3.heap_ptr = k1.heap_ptr := (congrArg Kernel.heap_ptr hsame :)
  exact ⟨h.keep hlinks3 (congrArg Kernel.task_structs hsame :) hsame.memory (by rw [hheap])
    (congrArg Kernel.current_task hsame :) (congrArg Kernel.tss_rsp0 hsame :)
      (congrArg Kernel.history hsame :),
    (congrArg Kernel.mm hsame :)⟩

theorem NewTask.log (h : NewTask k k1 mem) (c : SchedClass) (p : Nat) :
    NewTask k (k1.log (.arrive c p)) mem := by
  refine ⟨h.task_structs, h.new, h.others, h.current_task, h.tss_rsp0, fun q => ?_,
    h.linked.of_same (fun _ => rfl) rfl (Nat.le_refl _) rfl⟩
  change Event.select q ∈ k1.history ++ [.arrive c p] ↔ _
  rw [← h.selected q]
  simp

/-! ## `kernel_thread` and `sys_fork` -/

theorem setup_file_mm {t fd : Nat} {fop : FileOperations} (h : setup_file k t fd fop = .ok k') :
    k'.mm = k.mm ∧ k'.tss_rsp0 = k.tss_rsp0 := by
  unfold setup_file at h
  obtain ⟨⟨f, k1⟩, h1, h⟩ := bind_ok.mp h
  obtain ⟨⟨inode, k2⟩, h2, h⟩ := bind_ok.mp h
  cases h
  obtain ⟨-, heap1, rfl, -⟩ := kmalloc_object_ok (by decide) h1
  obtain ⟨-, heap2, rfl, -⟩ := kmalloc_object_ok (by decide) h2
  exact ⟨rfl, rfl⟩

theorem task_setup_stdio_mm {t : Nat} (h : task_setup_stdio k t = .ok k') :
    k'.mm = k.mm ∧ k'.tss_rsp0 = k.tss_rsp0 := by
  unfold task_setup_stdio at h
  obtain ⟨k1, h1, h⟩ := bind_ok.mp h
  obtain ⟨k2, h2, h⟩ := bind_ok.mp h
  obtain ⟨hmm1, htss1⟩ := setup_file_mm h1
  obtain ⟨hmm2, htss2⟩ := setup_file_mm h2
  obtain ⟨hmm3, htss3⟩ := setup_file_mm h
  exact ⟨hmm3.trans (hmm2.trans hmm1), htss3.trans (htss2.trans htss1)⟩

theorem files_memory {t : Nat} (h : Files k k' t) (q : Nat) :
    memory (k'.task q) = memory (k.task q) := by
  by_cases hq : q = t
  · obtain ⟨files, hself⟩ := h.self
    rw [hq, hself]
    rfl
  · rw [h.others q hq]

def stackTop (p : Nat) : StackPtr := .kernel_stack p (KERNEL_STACK_SIZE / 8)

theorem new_thread_memory (p pid : Nat) (cr3 fn arg : BitVec 64) (policy : BitVec 32) :
    memory (new_thread p pid cr3 fn arg policy) = ⟨cr3, 0, 0, fun _ => 0, 0, stackTop p⟩ := by
  unfold new_thread
  split <;> rfl

theorem new_thread_nodes (p pid : Nat) (cr3 fn arg : BitVec 64) (policy : BitVec 32) {n : ListNode}
    (hn : n ∈ nodesOf p) :
    (k.new_task p (new_thread p pid cr3 fn arg policy)).node_at n = ⟨.int 0, .int 0⟩ := by
  have hself : (k.new_task p (new_thread p pid cr3 fn arg policy)).task p =
      new_thread p pid cr3 fn arg policy := by
    rw [task_new, if_pos rfl]
  simp only [nodesOf, List.mem_cons, List.not_mem_nil, or_false] at hn
  rcases hn with rfl | rfl | rfl <;> simp only [Kernel.node_at, hself] <;>
    unfold new_thread <;> split <;> rfl

theorem kernel_thread_new {fn arg : BitVec 64} {policy : BitVec 32} {ret : Int} (h : Linked k)
    (hk : kernel_thread k fn arg policy = .ok (ret, k')) :
    k' = k ∨
      (k'.mm = k.mm ∧ NewTask k k' ⟨k.mm.cr3, 0, 0, fun _ => 0, 0, stackTop k.heap_ptr.toNat⟩) := by
  rcases kernel_thread_ok hk with ⟨-, hnone⟩ | ⟨heap_ptr, k1, k2, k3, hptr, hfill, h2, h3, rfl⟩
  · exact .inl hnone
  have hgrow : k.heap_ptr.toNat < heap_ptr.toNat := by omega
  have hnew := NewTask.fill h (u32 (k.next_pid + 1)) k.mm _ hgrow fun n hn =>
    .inr (new_thread_nodes _ k.next_pid k.mm.cr3 fn arg policy hn)
  rw [new_thread_memory] at hnew
  obtain ⟨hmm, htss⟩ := task_setup_stdio_mm hfill
  rcases task_setup_stdio_spec _ _ with herr | ⟨k1', hfill', hf⟩
  · cases herr.symm.trans hfill
  cases hfill'.symm.trans hfill
  have hnew1 := hnew.keep (links_of_same hnew.linked.links hf.node_at) hf.task_structs
    (files_memory hf) hf.heap
    hf.current_task htss hf.history
  obtain ⟨hnew3, hmm3⟩ := hnew1.admit h2 h3
  exact .inr ⟨hmm3.trans hmm, hnew3.log _ _⟩

theorem fork_nodes {pid : Nat} {cr3 : BitVec 64} {regs : Registers} (n : ListNode)
    (hn : n ∈ nodesOf p) :
    ∃ m, (k.new_task p (fork_task (k.task q) p pid cr3 regs)).node_at n = k.node_at m := by
  have hself : (k.new_task p (fork_task (k.task q) p pid cr3 regs)).task p =
      fork_task (k.task q) p pid cr3 regs := by
    rw [task_new, if_pos rfl]
  simp only [nodesOf, List.mem_cons, List.not_mem_nil, or_false] at hn
  rcases hn with rfl | rfl | rfl
  · exact ⟨.se_run_node q, by simp only [Kernel.node_at, hself]; rfl⟩
  · exact ⟨.rt_run_node q, by simp only [Kernel.node_at, hself]; rfl⟩
  · exact ⟨.tasks q, by simp only [Kernel.node_at, hself]; rfl⟩

theorem sys_fork_new {regs : Registers} {ret : Int} (h : Linked k) (hk : sys_fork k regs = .ok (ret, k')) :
    ((kmalloc k.heap_ptr sizeof_task_struct).1 = none ∧ ret = -1 ∧ k' = k) ∨
    ∃ cr3, (kmalloc k.heap_ptr sizeof_task_struct).1 ≠ none ∧ ret ≠ -1 ∧
      clone_address_space k.mm = .ok (cr3, k'.mm) ∧ NewTask k k' { memory (k.task k.current_task) with
        cr3 := cr3, kernel_stack_top := stackTop k.heap_ptr.toNat } := by
  rcases sys_fork_ok hk with hnone | ⟨heap_ptr, cr3, mm, k2, k3, hsome, hret, hptr, hclone, h2, h3, rfl⟩
  · exact .inl hnone
  have hgrow : k.heap_ptr.toNat < heap_ptr.toNat := by omega
  -- The copy brings the links of the parent's nodes.
  have hnew := NewTask.fill h (u32 (k.next_pid + 1)) mm
    (fork_task (k.task k.current_task) k.heap_ptr.toNat k.next_pid cr3 regs) hgrow fun n hn =>
      .inl (fork_nodes n hn)
  obtain ⟨hnew1, hmm1⟩ := hnew.init
  obtain ⟨hnew3, hmm3⟩ := hnew1.admit h2 h3
  have hmm : k3.mm = mm := hmm3.trans hmm1
  refine .inr ⟨cr3, hsome, hret, hmm ▸ hclone, (hnew3.update ?_ ?_ ?_).log _ _⟩
  · rfl
  · rfl
  · rfl

/-! ## `__schedule` -/

structure Switched (k k' : Kernel) (next : Nat) : Prop where
  known : next ∈ k.task_structs
  task_structs : k'.task_structs = k.task_structs
  memory : ∀ q, memory (k'.task q) = memory (k.task q)
  current_task : k'.current_task = next
  history : k'.history = k.history ++ [.select next]
  same : next = k.current_task → k'.mm = k.mm ∧ k'.tss_rsp0 = k.tss_rsp0
  other : next ≠ k.current_task → k'.tss_rsp0 = (k.task next).kernel_stack_top ∧
    k'.mm = if (k.task next).cr3 ≠ k.mm.cr3 then switch_address_space k.mm (k.task next).cr3 else k.mm
  linked : Linked k'

theorem schedule_switched (h : Linked k) (hk : __schedule k = .ok k') :
    ∃ next, Switched k k' next := by
  unfold __schedule at hk
  obtain ⟨⟨next, k1⟩, hpick, hk⟩ := bind_ok.mp hk
  obtain ⟨hnext, hlinks, hcore⟩ := pick_next_task_links (fun _ => inTasks_head) h.links hpick
  have hmem : next ∈ k.task_structs := by
    rcases hnext with rfl | ⟨n, hn, htask⟩
    · exact h.current
    · exact hn next htask
  have hsame := Relinked.of_core hcore
  have htasks : k1.task_structs = k.task_structs := (congrArg Kernel.task_structs hcore :)
  have hcurrent : k1.current_task = k.current_task := (congrArg Kernel.current_task hcore :)
  have hhistory : k1.history = k.history := core_history hcore
  have hmm : k1.mm = k.mm := (congrArg Kernel.mm hcore :)
  have hheap : k1.heap_ptr = k.heap_ptr := (congrArg Kernel.heap_ptr hcore :)
  have hcr3 : (k1.task next).cr3 = (k.task next).cr3 := (congrArg TaskMemory.cr3 (hsame.memory next) :)
  have hlinked : ∀ k2 : Kernel, (∀ n, k2.node_at n = k1.node_at n) → k2.task_structs = k1.task_structs →
      k2.heap_ptr = k1.heap_ptr → k2.current_task = next → Linked k2 := by
    intro k2 hnodes htasks2 hheap2 hcurrent2
    refine ⟨?_, ?_, ?_⟩
    · rw [htasks2, htasks]
      exact links_of_same hlinks hnodes
    · rw [htasks2, htasks, hheap2, hheap]
      exact h.heap
    · rwa [htasks2, htasks, hcurrent2]
  dsimp only at hk
  refine ⟨next, ?_⟩
  by_cases heq : next = k.current_task
  · rw [if_pos heq] at hk
    cases hk
    refine ⟨hmem, htasks, ?_, hcurrent.trans heq.symm, congrArg (· ++ [Event.select next]) hhistory,
      fun _ => ⟨hmm, (congrArg Kernel.tss_rsp0 hcore :)⟩, fun hne => absurd heq hne, ?_⟩
    · intro q
      rw [task_update]
      split_ifs with hq
      · rw [hq]
        exact hsame.memory _
      · exact hsame.memory q
    · exact hlinked _ (fun _ => node_at_update rfl rfl) rfl rfl (hcurrent.trans heq.symm)
  rw [if_neg heq] at hk
  have htss : (k1.task next).kernel_stack_top = (k.task next).kernel_stack_top :=
    (congrArg TaskMemory.kernel_stack_top (hsame.memory next) :)
  have hspace : ∀ s : Mm, s = (if (k1.task next).cr3 ≠ k1.mm.cr3 then
        switch_address_space k1.mm (k1.task next).cr3 else k1.mm) →
      s = if (k.task next).cr3 ≠ k.mm.cr3 then switch_address_space k.mm
        (k.task next).cr3 else k.mm := by
    rintro s rfl
    rw [hcr3, hmm]
  by_cases hswitch : (k1.task next).cr3 ≠ k1.mm.cr3
  · replace hk := (if_pos hswitch).symm.trans hk
    cases hk
    exact ⟨hmem, htasks, hsame.memory, rfl, congrArg (· ++ [Event.select next]) hhistory,
      fun h => absurd h heq, fun _ => ⟨htss, hspace _ (if_pos hswitch).symm⟩,
      hlinked _ (fun _ => rfl) rfl rfl rfl⟩
  · replace hk := (if_neg hswitch).symm.trans hk
    cases hk
    exact ⟨hmem, htasks, hsame.memory, rfl, congrArg (· ++ [Event.select next]) hhistory,
      fun h => absurd h heq, fun _ => ⟨htss, hspace _ (if_neg hswitch).symm⟩,
      hlinked _ (fun _ => rfl) rfl rfl rfl⟩

/-! ## CR3 and `current_pgd` -/

def SameRoot (s s' : Mm) : Prop := s'.cr3 = s.cr3 ∧ s'.current_pgd = s.current_pgd

section Root

variable {s s' s1 : Mm}

theorem SameRoot.refl (s : Mm) : SameRoot s s := ⟨rfl, rfl⟩

theorem SameRoot.trans (h1 : SameRoot s s1) (h2 : SameRoot s1 s') : SameRoot s s' :=
  ⟨h2.1.trans h1.1, h2.2.trans h1.2⟩

theorem alloc_page_root {phys : BitVec 64} (h : alloc_page s = .ok (phys, s')) : SameRoot s s' := by
  obtain ⟨i, -, ha⟩ := PageAlloc.alloc_page_cases h
  exact ⟨ha.cr3, ha.current_pgd⟩

theorem loop_root {lo n : Nat} {body : Nat → Mm → Except Halt Mm}
    (hbody : ∀ i s s', body i s = .ok s' → SameRoot s s') (h : loop lo n body s = .ok s') :
    SameRoot s s' :=
  loop_inv (fun _ => SameRoot s) (fun i s1 s2 _ _ h1 h2 => h1.trans (hbody i s1 s2 h2)) (.refl s) h

theorem ensure_table_root {table user_flag : BitVec 64} {i : Nat}
    (h : ensure_table s table i user_flag = .ok s') : SameRoot s s' := by
  unfold ensure_table at h
  split_ifs at h
  · obtain ⟨⟨new, s1⟩, halloc, h⟩ := bind_ok.mp h
    cases h
    exact (alloc_page_root halloc).trans ⟨rfl, rfl⟩
  · cases h
    exact ⟨rfl, rfl⟩

theorem arch_map_page_root {virt phys flags : BitVec 64}
    (h : arch_map_page s virt phys flags = .ok s') : SameRoot s s' := by
  unfold arch_map_page at h
  split at h
  · cases h
    exact .refl s
  · obtain ⟨s1, h1, h⟩ := bind_ok.mp h
    obtain ⟨s2, h2, h⟩ := bind_ok.mp h
    obtain ⟨s3, h3, h⟩ := bind_ok.mp h
    cases h
    exact (ensure_table_root h1).trans
      ((ensure_table_root h2).trans ((ensure_table_root h3).trans ⟨rfl, rfl⟩))

theorem copy_kernel_half_root (h : copy_kernel_half old new s = .ok s') : SameRoot s s' := by
  refine loop_root (fun i s s' h => ?_) h
  cases h
  exact .refl s

theorem clone_entry_root {inner : BitVec 64 → BitVec 64 → Mm → Except Halt Mm} {i : Nat}
    (hinner : ∀ old new s s', inner old new s = .ok s' → SameRoot s s')
    (h : clone_entry inner old new i s = .ok s') : SameRoot s s' := by
  unfold clone_entry at h
  obtain ⟨⟨new', s1⟩, halloc, h⟩ := bind_ok.mp h
  have hset : SameRoot s1 (table_set s1 new i (new' ||| pte_flags (table_get s1.mem old i))) :=
    ⟨rfl, rfl⟩
  exact (alloc_page_root halloc).trans (hset.trans (hinner _ _ _ _ h))

theorem clone_pt_root (h : clone_pt old new s = .ok s') : SameRoot s s' := by
  refine loop_root (fun i s s' h => ?_) h
  unfold clone_pt_entry at h
  split_ifs at h
  · cases h
    exact .refl s
  · obtain ⟨⟨new', s1⟩, halloc, h⟩ := bind_ok.mp h
    cases h
    exact (alloc_page_root halloc).trans ⟨rfl, rfl⟩

theorem clone_pd_root (h : clone_pd old new s = .ok s') : SameRoot s s' := by
  refine loop_root (fun i s s' h => ?_) h
  unfold clone_pd_entry at h
  split_ifs at h
  · cases h
    exact .refl s
  · cases h
    exact .refl s
  · exact clone_entry_root (fun _ _ _ _ => clone_pt_root) h

theorem clone_pdpt_root (h : clone_pdpt old new s = .ok s') : SameRoot s s' := by
  refine loop_root (fun i s s' h => ?_) h
  unfold clone_pdpt_entry at h
  split_ifs at h
  · cases h
    exact .refl s
  · exact clone_entry_root (fun _ _ _ _ => clone_pd_root) h

theorem clone_address_space_root (h : clone_address_space s = .ok (new, s')) : SameRoot s s' := by
  unfold clone_address_space at h
  obtain ⟨⟨new', s1⟩, halloc, h⟩ := bind_ok.mp h
  obtain ⟨s2, hhalf, h⟩ := bind_ok.mp h
  obtain ⟨s3, hclone, h⟩ := bind_ok.mp h
  cases h
  refine (alloc_page_root halloc).trans
    ((copy_kernel_half_root hhalf).trans (loop_root (fun i s s' h => ?_) hclone))
  unfold clone_pml4_entry at h
  split_ifs at h
  · cases h
    exact .refl s
  · exact clone_entry_root (fun _ _ _ _ => clone_pdpt_root) h

theorem load_page_root {ph : Elf64Phdr} {j : Nat} (h : load_page elf_data ph j s = .ok s') :
    SameRoot s s' := by
  unfold load_page at h
  obtain ⟨⟨phys, s1⟩, halloc, h⟩ := bind_ok.mp h
  obtain ⟨s2, hmap, h⟩ := bind_ok.mp h
  have hroot := (alloc_page_root halloc).trans (arch_map_page_root hmap)
  dsimp only at h
  split at h
  · cases h
    exact hroot.trans ⟨rfl, rfl⟩
  · cases h
    exact hroot

theorem load_image_ok {new_cr3 : BitVec 64} (h : load_image s elf_data = .ok (new_cr3, s')) :
    ∃ s1 s2, create_new_address_space s = .ok (new_cr3, s1) ∧
      arch_map_page (switch_address_space s1 new_cr3) 0xB8000 0xB8000
        (PTE_WRITABLE ||| PTE_GLOBAL) = .ok s2 ∧
      loop 0 (Elf64Hdr.at elf_data).e_phnum.toNat (load_segment elf_data) s2 = .ok s' := by
  unfold load_image at h
  obtain ⟨⟨new, s1⟩, hnew, h⟩ := bind_ok.mp h
  obtain ⟨s2, hmap, h⟩ := bind_ok.mp h
  obtain ⟨s3, hload, h⟩ := bind_ok.mp h
  cases h
  exact ⟨s1, s2, hnew, hmap, hload⟩

theorem load_image_root {new_cr3 : BitVec 64} (h : load_image s elf_data = .ok (new_cr3, s')) :
    s'.cr3 = new_cr3 ∧ s'.current_pgd = some (pte_addr new_cr3) ∧ Paging.Aligned new_cr3 := by
  obtain ⟨s1, s2, hnew, hmap, hload⟩ := load_image_ok h
  have hsegments : SameRoot s2 s' := by
    refine loop_root (fun i s s' h => ?_) hload
    unfold load_segment at h
    dsimp only at h
    split_ifs at h
    · exact loop_root (fun _ _ _ => load_page_root) h
    · cases h
      exact .refl s
  obtain ⟨hcr3, hpgd⟩ := (arch_map_page_root hmap).trans hsegments
  exact ⟨hcr3, hpgd, (Paging.create_new_address_space_spec hnew).aligned⟩

end Root

/-! ## `exec_user_program` and `sys_execve` -/

structure Replaced (k k' : Kernel) (new_cr3 : BitVec 64) : Prop where
  task_structs : k'.task_structs = k.task_structs
  new : memory (k'.task k.current_task) = { memory (k.task k.current_task) with
    cr3 := new_cr3, stack_start := user_stack - 4 * 4096, stack_end := user_stack }
  others : ∀ q ≠ k.current_task, memory (k'.task q) = memory (k.task q)
  current_task : k'.current_task = k.current_task
  tss_rsp0 : k'.tss_rsp0 = k.tss_rsp0
  history : k'.history = k.history
  linked : Linked k'

theorem Replaced.of_task {heap_ptr : BitVec 32} {mm : Mm} {t : Task} {new_cr3 : BitVec 64}
    (h : Linked k) (hheap : k.heap_ptr.toNat ≤ heap_ptr.toNat)
    (hmemory : memory t = memory ((k.task k.current_task).set_image new_cr3))
    (hentity : t.entity = (k.task k.current_task).entity)
    (htasks : t.tasks = (k.task k.current_task).tasks) :
    Replaced k (Kernel.update_task { k with heap_ptr := heap_ptr, mm := mm } k.current_task fun _ =>
      t) new_cr3 := by
  refine ⟨rfl, ?_, ?_, rfl, rfl, rfl, ?_⟩
  · rw [task_update, if_pos rfl]
    exact hmemory
  · intro q hq
    rw [task_update, if_neg hq]
  · refine h.of_same (fun n => ?_) rfl hheap rfl
    exact node_at_update (k := { k with heap_ptr := heap_ptr, mm := mm }) hentity htasks

theorem exec_user_program_replaced {entry : Option (BitVec 64 × BitVec 64)} (h : Linked k)
    (hk : exec_user_program k elf_data = .ok (entry, k')) : (entry = none ∧ k' = k) ∨
      ∃ new_cr3, entry.isSome = true ∧ load_image k.mm elf_data = .ok (new_cr3, k'.mm) ∧
        Replaced k k' new_cr3 := by
  unfold exec_user_program at hk
  dsimp only at hk
  split_ifs at hk with hmagic
  · cases hk
    exact .inl ⟨rfl, rfl⟩
  · obtain ⟨⟨new_cr3, mm⟩, hload, hk⟩ := bind_ok.mp hk
    cases hk
    exact .inr ⟨new_cr3, rfl, hload, .of_task h (Nat.le_refl _) rfl rfl rfl⟩

theorem bytes_cr3 (t : Task) : read64 t.bytes 64 = t.cr3 := by
  unfold Task.bytes
  dsimp only
  rw [read64_write64_ne _ _ (by omega), read64_write64_ne _ _ (by omega), read64_write64_self]

theorem bytes_stack_start (t : Task) : read64 t.bytes 72 = t.stack_start := by
  unfold Task.bytes
  dsimp only
  rw [read64_write64_ne _ _ (by omega), read64_write64_self]

theorem bytes_stack_end (t : Task) : read64 t.bytes 80 = t.stack_end := by
  unfold Task.bytes
  dsimp only
  rw [read64_write64_self]

theorem bytes_low (t : Task) : t.bytes 64 = t.cr3.extractLsb' 0 8 := by
  unfold Task.bytes
  rw [write64_apply_of_lt _ _ (by omega), write64_apply_of_lt _ _ (by omega), write64,
    if_pos (by omega)]

/-- Up to 48 bytes and the zero behind them reach no more than the lowest byte of `cr3`, which is
zero. -/
theorem set_name_memory {t t' : Task} {path : CString} (h : t.set_name path = .ok t')
    (hlen : path.bytes.length ≤ 48) (hcr3 : Paging.Aligned t.cr3) :
    memory t' = memory t ∧ t'.entity = t.entity ∧ t'.tasks = t.tasks := by
  unfold Task.set_name at h
  rw [if_pos (by omega)] at h
  cases h
  have hbytes : ∀ x, 64 ≤ x → kstrcpy t.bytes 16 path.bytes x = t.bytes x := by
    intro x hx
    rw [kstrcpy_apply]
    split_ifs with hin
    · obtain rfl : x = 64 := by omega
      rw [List.getD_eq_getElem?_getD, List.getElem?_eq_none (by omega), bytes_low]
      apply BitVec.eq_of_toNat_eq
      unfold Paging.Aligned at hcr3
      rw [BitVec.extractLsb'_toNat, Nat.shiftRight_zero]
      change 0 = t.cr3.toNat % 256
      omega
    · rfl
  refine ⟨?_, rfl, rfl⟩
  have hread : ∀ a, 64 ≤ a → read64 (kstrcpy t.bytes 16 path.bytes) a = read64 t.bytes a := by
    intro a ha
    exact read64_congr fun x hx _ => hbytes x (by omega)
  unfold memory Task.of_bytes
  dsimp only
  rw [hread 64 (by omega), hread 72 (by omega), hread 80 (by omega), bytes_cr3, bytes_stack_start,
    bytes_stack_end]

theorem sys_execve_replaced {regs regs' : Registers} {file : PathFile} {path : CString} {ret : Int} (h : Linked k)
    (hlen : path.bytes.length ≤ 48) (hk : sys_execve k regs file path = .ok (ret, regs', k')) :
    (ret = -1 ∧ ∃ heap_ptr : BitVec 32, k.heap_ptr.toNat ≤ heap_ptr.toNat ∧ k' = { k with heap_ptr := heap_ptr }) ∨
    ∃ elf_data new_cr3, ret = 0 ∧ file = .readable elf_data ∧ load_image k.mm elf_data = .ok (new_cr3, k'.mm) ∧
      Replaced k k' new_cr3 := by
  unfold sys_execve at hk
  cases file with
  | missing =>
    cases hk
    exact .inl ⟨rfl, k.heap_ptr, Nat.le_refl _, rfl⟩
  | unreadable =>
    obtain ⟨⟨f, k1⟩, h1, hk⟩ := bind_ok.mp hk
    cases hk
    obtain ⟨-, heap1, rfl, hheap1⟩ := kmalloc_object_ok (by decide) h1
    refine .inl ⟨rfl, _, ?_, rfl⟩
    rcases kmalloc_spec heap1 4096 (by decide) with ⟨hnone, -⟩ | ⟨heap2, hsome, -, hheap2⟩
    · rw [hnone]
      dsimp only
      omega
    · rw [hsome]
      dsimp only
      omega
  | readable elf_data =>
    obtain ⟨⟨f, k1⟩, h1, hk⟩ := bind_ok.mp hk
    obtain ⟨⟨buf, k2⟩, h2, hk⟩ := bind_ok.mp hk
    obtain ⟨-, heap1, rfl, hheap1⟩ := kmalloc_object_ok (by decide) h1
    obtain ⟨-, heap2, rfl, hheap2⟩ := kmalloc_object_ok (by decide) h2
    have hheap : k.heap_ptr.toNat ≤ heap2.toNat := by
      dsimp only at hheap2
      omega
    dsimp only at hk
    split_ifs at hk with hmagic
    · cases hk
      exact .inl ⟨rfl, heap2, hheap, rfl⟩
    · obtain ⟨⟨new_cr3, mm⟩, hload, hk⟩ := bind_ok.mp hk
      obtain ⟨t, hname, hk⟩ := bind_ok.mp hk
      cases hk
      obtain ⟨hmemory, hentity, htasks⟩ := set_name_memory hname hlen (load_image_root hload).2.2
      exact .inr ⟨elf_data, new_cr3, rfl, rfl, hload, .of_task h hheap hmemory hentity htasks⟩

end Relis.Process
