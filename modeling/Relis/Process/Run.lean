import Relis.Code.Boot
import Relis.Process.Image
import Relis.Process.Tasks
import Relis.Sched.Run
import Relis.Vmalloc.Run

/-!
# Runs of processes

In every state CR3, `current_pgd` and the TSS belong to the task that runs, as long as no
path is so long that it reaches `cr3` from `name`.
-/

open Relis.Bytes Relis.Code Relis.Lists Relis.PageAlloc Relis.Paging Relis.Run Relis.Sched Relis.Slab

namespace Relis.Process

/-! ## Steps -/

inductive ProcOp
  | kernel_thread (fn arg : BitVec 64) (policy : BitVec 32)
  | exec_user_program (elf_data : Mem)
  | sys_execve (regs : Registers) (file : PathFile) (path : CString)
  | sys_fork (regs : Registers)
  | page_fault (faulting_address error_code : BitVec 64)
  | sys_shmget
  | sys_shmat (id : Int)
  | schedule

/-- `roots` gets the spaces that images are loaded into, and those of children. -/
def ProcOp.step (w : World) : ProcOp → Except Halt World
  | .kernel_thread fn arg policy => do
    let (_, k) ← Code.kernel_thread w.kernel fn arg policy
    return { w with kernel := k }
  | .exec_user_program elf_data => do
    let (entry, k) ← Code.exec_user_program w.kernel elf_data
    return ⟨k, if entry.isSome then k.mm.cr3 :: w.roots else w.roots⟩
  | .sys_execve regs file path => do
    let (ret, _, k) ← Code.sys_execve w.kernel regs file path
    return ⟨k, if ret = 0 then k.mm.cr3 :: w.roots else w.roots⟩
  | .sys_fork regs => do
    let (ret, k) ← Code.sys_fork w.kernel regs
    return ⟨k, if ret = -1 then w.roots else (k.task w.kernel.heap_ptr.toNat).cr3 :: w.roots⟩
  | .page_fault faulting_address error_code => do
    let k ← handle_page_fault w.kernel faulting_address error_code
    return { w with kernel := k }
  | .sys_shmget => do
    let (_, k) ← Code.sys_shmget w.kernel
    return { w with kernel := k }
  | .sys_shmat id => do
    let (_, k) ← Code.sys_shmat w.kernel id
    return { w with kernel := k }
  | .schedule => do
    let k ← __schedule w.kernel
    return { w with kernel := k }

/-! ## Images and paths -/

def ProcOp.image : ProcOp → Option Mem
  | .exec_user_program elf_data => some elf_data
  | .sys_execve _ (.readable elf_data) _ => some elf_data
  | _ => none

/-- The string reaches no more than the lowest byte of `cr3`. -/
def ProcOp.ShortPath : ProcOp → Prop
  | .sys_execve _ _ path => path.bytes.length ≤ 48
  | _ => True

/-- The image of the call lies in the user half, and the path is short. -/
def ProcOp.Tame (op : ProcOp) : Prop :=
  (∀ elf_data ∈ op.image, ImagePages UserHalf elf_data) ∧ op.ShortPath

instance : (op : ProcOp) → Decidable op.ShortPath
  | .sys_execve _ _ path => inferInstanceAs (Decidable (path.bytes.length ≤ 48))
  | .kernel_thread .. | .exec_user_program _ | .sys_fork _ | .page_fault .. | .sys_shmget | .sys_shmat _
  | .schedule => isTrue trivial

instance (op : ProcOp) : Decidable op.Tame := inferInstanceAs (Decidable (_ ∧ _))

variable {k k' : Kernel} {w w' : World}

/-! ## Faults and shared pages -/

theorem handle_page_fault_mm {faulting_address error_code : BitVec 64}
    (h : handle_page_fault k faulting_address error_code = .ok k') :
    ∃ mm, k' = { k with mm := mm } ∧ SameRoot k.mm mm := by
  rcases handle_page_fault_cases h with
    ⟨-, phys, mm1, mm2, halloc, hmap, rfl⟩ | ⟨-, -, pte, e, phys, mm1, -, -, halloc, rfl⟩
  · exact ⟨mm2, rfl, (alloc_page_root halloc).trans (arch_map_page_root hmap)⟩
  · exact ⟨_, rfl, (alloc_page_root halloc).trans ⟨rfl, rfl⟩⟩

def shmAddr (id : Nat) : BitVec 64 := SHM_VADDR_START + BitVec.ofNat 64 (id * PAGE_SIZE)

/-! ## What a call can do -/

inductive Effect (w : World) : ProcOp → World → Prop
  | nothing (op : ProcOp) {heap_ptr : BitVec 32}
      (hheap : w.kernel.heap_ptr.toNat ≤ heap_ptr.toNat) :
      Effect w op { w with kernel := { w.kernel with heap_ptr := heap_ptr } }
  | thread {fn arg : BitVec 64} {policy : BitVec 32} {k' : Kernel} (hmm : k'.mm = w.kernel.mm)
      (hnew : NewTask w.kernel k'
        ⟨w.kernel.mm.cr3, 0, 0, fun _ => 0, 0, stackTop w.kernel.heap_ptr.toNat⟩) :
      Effect w (.kernel_thread fn arg policy) { w with kernel := k' }
  | image {op : ProcOp} {elf_data : Mem} {new_cr3 : BitVec 64} {k' : Kernel}
      (himage : elf_data ∈ op.image)
      (hload : load_image w.kernel.mm elf_data = .ok (new_cr3, k'.mm))
      (hnew : Replaced w.kernel k' new_cr3) : Effect w op ⟨k', new_cr3 :: w.roots⟩
  | fork {regs : Registers} {cr3 : BitVec 64} {k' : Kernel}
      (hsome : (kmalloc w.kernel.heap_ptr sizeof_task_struct).1 ≠ none)
      (hclone : clone_address_space w.kernel.mm = .ok (cr3, k'.mm))
      (hnew : NewTask w.kernel k' { memory (w.kernel.task w.kernel.current_task) with
        cr3 := cr3, kernel_stack_top := stackTop w.kernel.heap_ptr.toNat }) :
      Effect w (.sys_fork regs) ⟨k', cr3 :: w.roots⟩
  | fault {addr err : BitVec 64} {k' : Kernel} (hk : handle_page_fault w.kernel addr err = .ok k') :
      Effect w (.page_fault addr err) { w with kernel := k' }
  | shmget {phys : BitVec 64} {mm : Mm} (halloc : alloc_page w.kernel.mm = .ok (phys, mm))
      (hcount : (w.kernel.task w.kernel.current_task).shm_count < MAX_SHM_REGIONS) :
      Effect w .sys_shmget ⟨Kernel.update_task { w.kernel with mm := mm } w.kernel.current_task
        fun t => { t with
          shm_count := (w.kernel.task w.kernel.current_task).shm_count + 1
          shm_pages := Function.update t.shm_pages
            (w.kernel.task w.kernel.current_task).shm_count phys }, w.roots⟩
  | shmat {id : Int} {mm : Mm}
      (hid : id.toNat < (w.kernel.task w.kernel.current_task).shm_count)
      (hmap : arch_map_page w.kernel.mm (shmAddr id.toNat)
        ((w.kernel.task w.kernel.current_task).shm_pages id.toNat)
        (PTE_WRITABLE ||| PTE_USER) = .ok mm) :
      Effect w (.sys_shmat id) { w with kernel := { w.kernel with mm := mm } }
  | switch {next : Nat} {k' : Kernel} (hs : Switched w.kernel k' next) :
      Effect w .schedule { w with kernel := k' }

theorem effect_of_step {op : ProcOp} (h : Linked w.kernel) (hshort : op.ShortPath)
    (hstep : op.step w = .ok w') : Effect w op w' := by
  rcases op with
    ⟨fn, arg, policy⟩ | elf_data | ⟨regs, file, path⟩ | regs | ⟨addr, err⟩ | _ | id | _
  · obtain ⟨⟨ret, k⟩, hk, hstep⟩ := bind_ok.mp hstep
    cases hstep
    rcases kernel_thread_new h hk with rfl | ⟨hmm, hnew⟩
    · exact .nothing _ (Nat.le_refl _)
    · exact .thread hmm hnew
  · obtain ⟨⟨entry, k⟩, hk, hstep⟩ := bind_ok.mp hstep
    cases hstep
    rcases exec_user_program_replaced h hk with ⟨rfl, rfl⟩ | ⟨new_cr3, hentry, hload, hnew⟩
    · exact .nothing _ (Nat.le_refl _)
    · rw [if_pos hentry, (load_image_root hload).1]
      exact .image rfl hload hnew
  · obtain ⟨⟨ret, regs', k⟩, hk, hstep⟩ := bind_ok.mp hstep
    cases hstep
    rcases sys_execve_replaced h hshort hk with
      ⟨hret, heap_ptr, hheap, rfl⟩ | ⟨elf_data, new_cr3, hret, rfl, hload, hnew⟩
    · rw [if_neg (by omega)]
      exact .nothing _ hheap
    · rw [if_pos hret, (load_image_root hload).1]
      exact .image rfl hload hnew
  · obtain ⟨⟨ret, k⟩, hk, hstep⟩ := bind_ok.mp hstep
    cases hstep
    rcases sys_fork_new h hk with ⟨-, hret, rfl⟩ | ⟨cr3, hsome, hret, hclone, hnew⟩
    · rw [if_pos hret]
      exact .nothing _ (Nat.le_refl _)
    · rw [if_neg hret, show (k.task w.kernel.heap_ptr.toNat).cr3 = cr3 from
        (congrArg TaskMemory.cr3 hnew.new :)]
      exact .fork hsome hclone hnew
  · obtain ⟨k, hk, hstep⟩ := bind_ok.mp hstep
    cases hstep
    exact .fault hk
  · obtain ⟨⟨ret, k⟩, hk, hstep⟩ := bind_ok.mp hstep
    cases hstep
    unfold sys_shmget at hk
    dsimp only at hk
    split_ifs at hk with hfull
    · cases hk
      exact .nothing _ (Nat.le_refl _)
    · obtain ⟨⟨phys, mm⟩, halloc, hk⟩ := bind_ok.mp hk
      cases hk
      exact .shmget halloc (Nat.not_le.mp hfull)
  · obtain ⟨⟨ret, k⟩, hk, hstep⟩ := bind_ok.mp hstep
    cases hstep
    unfold sys_shmat at hk
    dsimp only at hk
    split_ifs at hk with hid
    · cases hk
      exact .nothing _ (Nat.le_refl _)
    · obtain ⟨mm, hmap, hk⟩ := bind_ok.mp hk
      cases hk
      exact .shmat (by omega) hmap
  · obtain ⟨k, hk, hstep⟩ := bind_ok.mp hstep
    cases hstep
    obtain ⟨next, hs⟩ := schedule_switched h hk
    exact .switch hs

/-! ## The task that runs -/

/-- CR3, `current_pgd` and the TSS say the same as `current_task`. The TSS does so from the first
switch on, which leaves the task of `sched_init`. -/
structure Running (boot : Nat) (k : Kernel) : Prop where
  linked : Linked k
  cr3 : k.mm.cr3 = (k.task k.current_task).cr3
  current_pgd : k.mm.current_pgd = some (pte_addr k.mm.cr3)
  tss_rsp0 : (∃ p ≠ boot, .select p ∈ k.history) → k.tss_rsp0 = (k.task k.current_task).kernel_stack_top
  at_boot : (∀ p, .select p ∈ k.history → p = boot) → k.current_task = boot

variable {boot : Nat}

theorem Running.keep (h : Running boot k) (hlinked : Linked k') (hroot : SameRoot k.mm k'.mm)
    (hcurrent : k'.current_task = k.current_task)
    (hcr3 : (k'.task k.current_task).cr3 = (k.task k.current_task).cr3)
    (htop : (k'.task k.current_task).kernel_stack_top = (k.task k.current_task).kernel_stack_top)
    (htss : k'.tss_rsp0 = k.tss_rsp0)
    (hselected : ∀ q, .select q ∈ k'.history ↔ .select q ∈ k.history) : Running boot k' := by
  refine ⟨hlinked, ?_, ?_, ?_, ?_⟩
  · rw [hroot.1, hcurrent, hcr3, h.cr3]
  · rw [hroot.2, hroot.1, h.current_pgd]
  · rintro ⟨p, hp, hmem⟩
    rw [htss, hcurrent, htop]
    exact h.tss_rsp0 ⟨p, hp, (hselected p).mp hmem⟩
  · intro hall
    rw [hcurrent]
    exact h.at_boot fun p hp => hall p ((hselected p).mpr hp)

theorem Running.new {mem : TaskMemory} (h : Running boot k) (hnew : NewTask k k' mem)
    (hroot : SameRoot k.mm k'.mm) : Running boot k' := by
  have hmemory := hnew.others _ h.linked.current_ne
  exact h.keep hnew.linked hroot hnew.current_task (congrArg TaskMemory.cr3 hmemory :)
    (congrArg TaskMemory.kernel_stack_top hmemory :) hnew.tss_rsp0 hnew.selected

theorem Running.replace {elf_data : Mem} {new_cr3 : BitVec 64} (h : Running boot k)
    (hload : load_image k.mm elf_data = .ok (new_cr3, k'.mm)) (hnew : Replaced k k' new_cr3) :
    Running boot k' := by
  obtain ⟨hcr3, hpgd, -⟩ := load_image_root hload
  refine ⟨hnew.linked, ?_, ?_, ?_, ?_⟩
  · rw [hcr3, hnew.current_task]
    exact (congrArg TaskMemory.cr3 hnew.new :).symm
  · rw [hpgd, hcr3]
  · rw [hnew.history, hnew.tss_rsp0, hnew.current_task]
    intro haway
    exact (h.tss_rsp0 haway).trans (congrArg TaskMemory.kernel_stack_top hnew.new :).symm
  · rw [hnew.history, hnew.current_task]
    exact h.at_boot

theorem Running.switch {next : Nat} (h : Running boot k) (hs : Switched k k' next) :
    Running boot k' := by
  have hcr3 : (k'.task next).cr3 = (k.task next).cr3 := (congrArg TaskMemory.cr3 (hs.memory next) :)
  have htop : (k'.task next).kernel_stack_top = (k.task next).kernel_stack_top :=
    (congrArg TaskMemory.kernel_stack_top (hs.memory next) :)
  refine ⟨hs.linked, ?_, ?_, ?_, ?_⟩
  · rw [hs.current_task, hcr3]
    by_cases heq : next = k.current_task
    · rw [(hs.same heq).1, h.cr3, heq]
    · rw [(hs.other heq).2]
      split_ifs with hne
      · rfl
      · exact (not_not.mp hne).symm
  · by_cases heq : next = k.current_task
    · rw [(hs.same heq).1, h.current_pgd]
    · rw [(hs.other heq).2]
      split_ifs
      · rfl
      · exact h.current_pgd
  · rintro ⟨p, hp, hmem⟩
    rw [hs.current_task, htop]
    by_cases heq : next = k.current_task
    · rw [(hs.same heq).2, heq]
      refine h.tss_rsp0 ?_
      by_contra hnone
      -- No switch so far, so the task is still the first one, and it was picked again.
      have hall : ∀ q, .select q ∈ k.history → q = boot :=
        fun q hq => by_contra fun hne => hnone ⟨q, hne, hq⟩
      rw [hs.history, List.mem_append, List.mem_singleton] at hmem
      rcases hmem with hmem | hmem
      · exact hp (hall p hmem)
      · cases hmem
        exact hp (heq.trans (h.at_boot hall))
    · exact (hs.other heq).1
  · intro hall
    rw [hs.current_task]
    apply hall
    rw [hs.history]
    simp

theorem running_step {op : ProcOp} (h : Running boot w.kernel) (hop : op.Tame)
    (hstep : op.step w = .ok w') : Running boot w'.kernel := by
  cases effect_of_step h.linked hop.2 hstep with
  | nothing _ hheap =>
    exact h.keep (h.linked.of_same (fun _ => rfl) rfl hheap rfl) (.refl _) rfl rfl rfl rfl
      fun _ => Iff.rfl
  | thread hmm hnew => exact h.new hnew (hmm ▸ .refl _)
  | image _ hload hnew => exact h.replace hload hnew
  | fork _ hclone hnew => exact h.new hnew (clone_address_space_root hclone)
  | fault hk =>
    obtain ⟨mm, rfl, hroot⟩ := handle_page_fault_mm hk
    exact h.keep (h.linked.of_same (fun _ => rfl) rfl (Nat.le_refl _) rfl) hroot rfl rfl rfl rfl
      fun _ => Iff.rfl
  | @shmget phys mm halloc _ =>
    refine h.keep (h.linked.of_same (fun n => ?_) rfl (Nat.le_refl _) rfl) (alloc_page_root halloc)
      rfl ?_ ?_ rfl fun _ => Iff.rfl
    · exact node_at_update (k := { w.kernel with mm := mm }) rfl rfl
    · rw [task_update, if_pos rfl]
    · rw [task_update, if_pos rfl]
  | shmat _ hmap =>
    exact h.keep (h.linked.of_same (fun _ => rfl) rfl (Nat.le_refl _) rfl) (arch_map_page_root hmap)
      rfl rfl rfl rfl fun _ => Iff.rfl
  | switch hs => exact h.switch hs

/-! ## The start -/

structure Started (mm : Mm) (heap_ptr : BitVec 32) (k : Kernel) : Prop where
  mm_eq : k.mm = mm
  heap : k.heap_ptr.toNat = heap_ptr.toNat + 17136
  linked : Linked k
  history : k.history = []
  task_structs : k.task_structs = [k.current_task]
  new : memory (k.task k.current_task) = ⟨mm.cr3, 0, 0, fun _ => 0, 0, .stack_top⟩
  others : ∀ q ≠ k.current_task, memory (k.task q) = memory Task.zero

theorem sched_init_started {mm : Mm} {heap_ptr : BitVec 32}
    (h : sched_init (Kernel.boot mm heap_ptr) = .ok k) : Started mm heap_ptr k := by
  obtain ⟨k1, heap_ptr', hk1, hcore, hptr', h⟩ := sched_init_ok h
  have hlinks : LinksIn (InTasks []) k1 := by
    have hnone : LinksIn (InTasks []) (Kernel.boot mm heap_ptr) := by
      rintro a b (hb | hb) <;> cases a <;> cases hb
    rw [hk1]
    exact init_list_head_links (init_list_head_links (init_list_head_links hnone (inTasks_head rfl))
      (inTasks_head rfl)) (inTasks_head rfl)
  obtain ⟨p, hp⟩ : ∃ p, p = heap_ptr.toNat := ⟨_, rfl⟩
  obtain ⟨t, ht⟩ : ∃ t, t = bootTask mm.cr3 := ⟨_, rfl⟩
  obtain ⟨k2, hk2⟩ : ∃ k2, k2 = Kernel.new_task
    { k1 with nr_running := 0, clock := 0, heap_ptr := heap_ptr', current_task := p } p t := ⟨_, rfl⟩
  simp only [← hp, ← ht, ← hk2] at h
  have hmm1 : k1.mm = mm := (congrArg Kernel.mm hcore :)
  have htasks1 : k1.task_structs = [] := (congrArg Kernel.task_structs hcore :)
  have hlinks2 : LinksIn (InTasks [p]) k2 := by
    refine links_of_nodes (k := k1) (links_cons hlinks p) fun n => ?_
    rw [hk2]
    by_cases hn : n ∈ nodesOf p
    · refine .inr ?_
      have hself : ∀ k : Kernel, (k.new_task p t).task p = t := fun k => by rw [task_new, if_pos rfl]
      simp only [nodesOf, List.mem_cons, List.not_mem_nil, or_false] at hn
      rcases hn with rfl | rfl | rfl <;> simp only [Kernel.node_at, hself] <;> rw [ht] <;> rfl
    · exact .inl ⟨n, node_at_new t hn⟩
  have hnode : InTasks [p] (.tasks p) := by
    rintro q ⟨⟩
    exact List.mem_cons_self
  obtain ⟨hlinks3, hrelinks⟩ := list_add_links hlinks2 hnode (inTasks_head rfl) h
  have hcore3 := core_relinks hrelinks
  have hsame := Relinked.of_core hcore3
  have hcurrent : k.current_task = p := (congrArg Kernel.current_task hcore3 :).trans (by rw [hk2]; rfl)
  have htasks : k.task_structs = [p] := (congrArg Kernel.task_structs hcore3 :).trans (by
    rw [hk2]
    exact congrArg (List.cons p) htasks1)
  have hheap : k.heap_ptr = heap_ptr' := (congrArg Kernel.heap_ptr hcore3 :).trans (by rw [hk2]; rfl)
  refine ⟨?_, ?_, ⟨?_, ?_, ?_⟩, ?_, ?_, ?_, ?_⟩
  · exact (congrArg Kernel.mm hcore3 :).trans (by rw [hk2]; exact hmm1)
  · rw [hheap]
    exact hptr'
  · rw [htasks]
    exact hlinks3
  · rw [htasks, hheap]
    intro q hq
    rw [List.mem_singleton.mp hq]
    omega
  · rw [htasks, hcurrent]
    exact List.mem_cons_self
  · exact (core_history hcore3).trans (by rw [hk2]; exact core_history hcore)
  · rw [htasks, hcurrent]
  · rw [hcurrent]
    refine (hsame.memory p).trans ?_
    rw [hk2, task_new, if_pos rfl, ht]
    rfl
  · intro q hq
    rw [hcurrent] at hq
    refine (hsame.memory q).trans ?_
    rw [hk2, task_new, if_neg hq]
    exact (Relinked.of_core hcore).memory q

theorem arch_paging_init_root {s s' : Mm} (h : arch_paging_init s = .ok s') :
    s'.cr3 = s.cr3 ∧ s'.current_pgd = some (pte_addr s.cr3) := by
  unfold arch_paging_init at h
  obtain ⟨s1, h1, h⟩ := bind_ok.mp h
  exact (arch_map_page_root h1).trans (arch_map_page_root h)

theorem Started.running {mm mm' : Mm} {heap_ptr : BitVec 32} (h : Started mm heap_ptr k)
    (hpaging : arch_paging_init mm = .ok mm') : Running k.current_task { k with mm := mm' } := by
  obtain ⟨hcr3, hpgd⟩ := arch_paging_init_root hpaging
  refine ⟨h.linked.of_same (fun _ => rfl) rfl (Nat.le_refl _) rfl, ?_, ?_, ?_, fun _ => rfl⟩
  · exact hcr3.trans (congrArg TaskMemory.cr3 h.new :).symm
  · dsimp only
    rw [hpgd, hcr3]
  · rintro ⟨p, -, hp⟩
    rw [show Kernel.history { k with mm := mm' } = [] from h.history] at hp
    cases hp

/-- After `sched_init` and `paging_init`, in every state of a run whose images lie in the user half and
whose paths do not reach `cr3`. -/
theorem running_task_is_current {mm mm' : Mm} {heap_ptr : BitVec 32} {k0 : Kernel}
    {ops : List ProcOp} (hinit : sched_init (Kernel.boot mm heap_ptr) = .ok k0)
    (hpaging : arch_paging_init k0.mm = .ok mm')
    (hrun : run (guarded (fun _ op => op.Tame) .no_space ProcOp.step)
      ⟨{ k0 with mm := mm' }, []⟩ ops = .ok w) :
    w.kernel.mm.cr3 = (w.kernel.task w.kernel.current_task).cr3 ∧
    w.kernel.mm.current_pgd = some (pte_addr w.kernel.mm.cr3) ∧
    ((∃ p ≠ k0.current_task, .select p ∈ w.kernel.history) →
      w.kernel.tss_rsp0 = (w.kernel.task w.kernel.current_task).kernel_stack_top) := by
  have hstarted := sched_init_started hinit
  rw [hstarted.mm_eq] at hpaging
  have hstep : ∀ op ∈ ops, ∀ w w' : World, Running k0.current_task w.kernel →
      guarded (fun _ (op : ProcOp) => op.Tame) Halt.no_space ProcOp.step w op = .ok w' →
      Running k0.current_task w'.kernel := by
    intro op _ w w' h hstep
    obtain ⟨hop, hstep⟩ := guarded_ok.mp hstep
    exact running_step h hop hstep
  have h := run_inv (fun w : World => Running k0.current_task w.kernel) hstep
    (hstarted.running hpaging) hrun
  exact ⟨h.cr3, h.current_pgd, h.tss_rsp0⟩

/-! ## An image that loads itself -/

/-- One page at 0x400000 with the whole file of 169 bytes. The last 49 bytes are a path for the root. -/
def selfImage : Mem
  | 0 => 0x7F | 1 => 0x45 | 2 => 0x4C | 3 => 0x46
  | 26 => 0x40
  | 32 => 64
  | 56 => 1
  | 64 => 1
  | 82 => 0x40
  | 96 => 0xA9
  | 105 => 0x10
  | i => if 120 ≤ i ∧ i < 169 then 0x2F else 0

def longPath : CString := ⟨List.replicate 49 0x2F, by decide⟩

def zeroRegs : Registers := ⟨0, 0, 0, 0, 0, 0, 0, 0, 0, 0, 0, 0, 0, 0, 0, 0, 0, 0, 0, 0, 0, 0⟩

theorem selfImage_hdr : Elf64Hdr.at selfImage = ⟨ELF_MAGIC, 0x400000, 64, 1⟩ := rfl

theorem selfImage_phdr : Elf64Phdr.at selfImage 0 = ⟨PT_LOAD, 0, 0x400000, 0xA9, 0x1000⟩ := rfl

theorem selfImage_pages {P : BitVec 64 → Prop} (h : P 0x400000) : ImagePages P selfImage := by
  intro i hi _ j hj
  rw [selfImage_hdr] at hi
  obtain rfl : i = 0 := Nat.lt_one_iff.mp hi
  rw [selfImage_phdr] at hj ⊢
  obtain rfl : j = 0 := Nat.lt_one_iff.mp hj
  exact h

theorem load_page_pool {s : Mm} {n : Nat} (elf_data : Mem) (ph : Elf64Phdr) (j : Nat)
    (h : Pool (n + 4) s) : ∃ s', load_page elf_data ph j s = .ok s' ∧ Pool n s' := by
  obtain ⟨phys, s1, halloc, p1⟩ := alloc_page_pool (n := n + 3) h
  obtain ⟨s2, hmap, p2⟩ := arch_map_page_pool p1 (ph.page j) phys (PTE_WRITABLE ||| PTE_USER)
  unfold load_page
  simp only [bind_ok]
  by_cases hcopy : BitVec.ofNat 64 j * 4096 < ph.p_filesz
  · exact ⟨_, ⟨_, halloc, s2, hmap, if_pos hcopy⟩, p2.of_pmm rfl⟩
  · exact ⟨_, ⟨_, halloc, s2, hmap, if_neg hcopy⟩, p2⟩

theorem load_selfImage_pool {s : Mm} {n : Nat} (h : Pool (n + 8) s) :
    ∃ new_cr3 s', load_image s selfImage = .ok (new_cr3, s') ∧ Pool n s' := by
  obtain ⟨new_cr3, s1, hnew, p1⟩ := create_new_address_space_pool (n := n + 7) h
  have p2 : Pool (n + 7) (switch_address_space s1 new_cr3) := p1.of_pmm rfl
  obtain ⟨s3, hmap, p3⟩ := arch_map_page_pool (n := n + 4) p2 0xB8000 0xB8000
    (PTE_WRITABLE ||| PTE_GLOBAL)
  obtain ⟨s4, hload, p4⟩ := load_page_pool selfImage (Elf64Phdr.at selfImage 0) 0 p3
  refine ⟨new_cr3, s4, bind_ok.mpr ⟨_, hnew, bind_ok.mpr ⟨_, hmap, bind_ok.mpr ⟨s4, ?_, rfl⟩⟩⟩, p4⟩
  have hsegment : load_segment selfImage 0 s3 = .ok s4 := by
    unfold load_segment
    rw [selfImage_phdr] at hload ⊢
    exact (if_pos rfl).trans (bind_ok.mpr ⟨s4, hload, rfl⟩)
  rw [selfImage_hdr]
  exact bind_ok.mpr ⟨s4, hsegment, rfl⟩

theorem exec_selfImage {n : Nat} (h : Pool (n + 8) k.mm) :
    ∃ new_cr3 mm, load_image k.mm selfImage = .ok (new_cr3, mm) ∧
    exec_user_program k selfImage = .ok (some (user_stack - 16, 0x400000),
      Kernel.update_task { k with mm := mm } k.current_task fun t => t.set_image new_cr3) ∧
        Pool n mm := by
  obtain ⟨new_cr3, mm, hload, hpool⟩ := load_selfImage_pool h
  refine ⟨new_cr3, mm, hload, ?_, hpool⟩
  unfold exec_user_program
  rw [selfImage_hdr]
  dsimp only
  rw [if_neg (not_not.mpr rfl), hload]
  rfl

/-- The start with the boot tables at 0x110000 and an image that ends at 2 MiB. -/
def bootMm : Mm := start_mm 0x110000 (fun _ => 0) 0xFFFFFFFF80200000

theorem start_of_memory (m : Mem) : ∃ k0 mm,
    sched_init (Kernel.boot (start_mm 0x110000 m 0xFFFFFFFF80200000) 0) = .ok k0 ∧
    Started (start_mm 0x110000 m 0xFFFFFFFF80200000) 0 k0 ∧ arch_paging_init k0.mm = .ok mm ∧
      Pool 65018 mm := by
  have hpmm : (start_mm 0x110000 m 0xFFFFFFFF80200000).pmm =
      (start_mm 0x110000 (fun _ => 0) 0xFFFFFFFF80200000).pmm := by
    simp only [start_mm, pmm_init]
  generalize hs : start_mm 0x110000 m 0xFFFFFFFF80200000 = s at *
  rcases sched_init_spec s 0 with ⟨-, hfull⟩ | ⟨k0, hinit, -⟩
  · exact absurd hfull (by decide)
  have hstarted := sched_init_started hinit
  obtain ⟨mm, hpaging, hpool⟩ := Vmalloc.arch_paging_init_pool (n := 65018)
    (Vmalloc.small_pool.of_pmm hpmm)
  refine ⟨k0, mm, hinit, hstarted, ?_, hpool⟩
  rw [hstarted.mm_eq]
  exact hpaging

theorem small_start : ∃ k0 mm, sched_init (Kernel.boot bootMm 0) = .ok k0 ∧ Started bootMm 0 k0 ∧
    arch_paging_init k0.mm = .ok mm ∧ Pool 65018 mm := start_of_memory fun _ => 0

theorem selfImage_tame : (ProcOp.exec_user_program selfImage).Tame := by
  refine ⟨?_, trivial⟩
  rintro elf_data ⟨⟩
  exact selfImage_pages (by decide)

theorem step_selfImage {n : Nat} (h : Pool (n + 8) k.mm) (roots : List (BitVec 64)) : ∃ new_cr3 mm,
    load_image k.mm selfImage = .ok (new_cr3, mm) ∧ Pool n mm ∧
    (ProcOp.exec_user_program selfImage).step ⟨k, roots⟩ =
      .ok ⟨Kernel.update_task { k with mm := mm } k.current_task
      fun t => t.set_image new_cr3, mm.cr3 :: roots⟩ := by
  obtain ⟨new_cr3, mm, hload, hexec, hpool⟩ := exec_selfImage h
  exact ⟨new_cr3, mm, hload, hpool, bind_ok.mpr ⟨_, hexec, rfl⟩⟩

theorem running_task_is_current_small : ∃ k0 mm w, sched_init (Kernel.boot bootMm 0) = .ok k0 ∧
    arch_paging_init k0.mm = .ok mm ∧
    run (guarded (fun _ op => op.Tame) .no_space ProcOp.step) ⟨{ k0 with mm := mm }, []⟩
      [.exec_user_program selfImage] = .ok w ∧
    w.roots = [w.kernel.mm.cr3] ∧ w.kernel.mm.cr3 = (w.kernel.task w.kernel.current_task).cr3 := by
  obtain ⟨k0, mm, hinit, -, hpaging, hpool⟩ := small_start
  obtain ⟨new_cr3, mm', -, -, hstep⟩ := step_selfImage (k := { k0 with mm := mm }) (n := 65010) hpool []
  have hrun : run (guarded (fun _ op => op.Tame) .no_space ProcOp.step) ⟨{ k0 with mm := mm }, []⟩
      [.exec_user_program selfImage] = .ok _ :=
        bind_ok.mpr ⟨_, guarded_ok.mpr ⟨selfImage_tame, hstep⟩, rfl⟩
  obtain ⟨hcr3, -⟩ := running_task_is_current hinit hpaging hrun
  exact ⟨k0, mm, _, hinit, hpaging, hrun, rfl, hcr3⟩

theorem set_name_long {t : Task} (hcr3 : Aligned t.cr3) :
    ∃ t', t.set_name longPath = .ok t' ∧ t'.cr3 ≠ t.cr3 := by
  refine ⟨_, if_pos (by decide), fun heq => ?_⟩
  have hlow : (t.of_bytes (kstrcpy t.bytes 16 longPath.bytes)).cr3.extractLsb' 0 8 = 0x2F := by
    unfold Task.of_bytes
    rw [read64_low, kstrcpy_apply, if_pos (by decide)]
    decide
  have hmod := congrArg BitVec.toNat hlow
  rw [heq, BitVec.extractLsb'_toNat, Nat.shiftRight_zero] at hmod
  change t.cr3.toNat % 256 = 47 at hmod
  unfold Aligned at hcr3
  omega

theorem execve_objects (hheap : k.heap_ptr.toNat + 4128 ≤ 4194304) : ∃ f b heap1 heap2,
    kmalloc_object k sizeof_file = .ok (f, { k with heap_ptr := heap1 }) ∧
    kmalloc_object { k with heap_ptr := heap1 } 4096 = .ok (b, { k with heap_ptr := heap2 }) := by
  have hfile : sizeof_file.toNat = 24 := rfl
  have hbuf : (4096 : BitVec 64).toNat = 4096 := rfl
  rcases kmalloc_spec k.heap_ptr sizeof_file (by decide) with ⟨-, hfull⟩ | ⟨heap1, h1, -, hptr1⟩
  · omega
  rcases kmalloc_spec heap1 4096 (by decide) with ⟨-, hfull⟩ | ⟨heap2, h2, -, -⟩
  · omega
  refine ⟨k.heap_ptr.toNat, heap1.toNat, heap1, heap2, ?_, ?_⟩
  · unfold kmalloc_object
    rw [h1]
  · unfold kmalloc_object
    rw [h2]

theorem sys_execve_of_load {elf_data : Mem} {new_cr3 : BitVec 64} {mm : Mm} (regs : Registers)
    (path : CString) (hmagic : (Elf64Hdr.at elf_data).e_magic = ELF_MAGIC)
    (hload : load_image k.mm elf_data = .ok (new_cr3, mm))
    (hheap : k.heap_ptr.toNat + 4128 ≤ 4194304) : ∃ heap_ptr regs',
      ∀ t, ((k.task k.current_task).set_image new_cr3).set_name path = .ok t →
        sys_execve k regs (.readable elf_data) path = .ok (0, regs',
          Kernel.update_task { k with heap_ptr := heap_ptr, mm := mm } k.current_task
            fun _ => t) := by
  obtain ⟨f, b, heap1, heap2, hobject1, hobject2⟩ := execve_objects hheap
  refine ⟨heap2, { regs with
    rip := (Elf64Hdr.at elf_data).e_entry, rsp := user_stack - 16, cs := 0x23,
    ss := 0x1B, rflags := 0x202 }, fun t ht => ?_⟩
  unfold sys_execve
  refine bind_ok.mpr ⟨_, hobject1, bind_ok.mpr ⟨_, hobject2, ?_⟩⟩
  dsimp only
  rw [if_neg (not_not.mpr hmagic)]
  exact bind_ok.mpr ⟨_, hload, bind_ok.mpr ⟨t, ht, rfl⟩⟩

theorem small_execve (path : CString) (hlen : 16 + path.bytes.length < 88) :
    ∃ k0 mm k1 new_cr3 mm2 w t,
    sched_init (Kernel.boot bootMm 0) = .ok k0 ∧ arch_paging_init k0.mm = .ok mm ∧
    (ProcOp.exec_user_program selfImage).step ⟨{ k0 with mm := mm }, []⟩ = .ok ⟨k1, [k1.mm.cr3]⟩ ∧
    load_image k1.mm selfImage = .ok (new_cr3, mm2) ∧ Pool 65002 mm2 ∧
    ((k1.task k1.current_task).set_image new_cr3).set_name path = .ok t ∧
    run ProcOp.step ⟨{ k0 with mm := mm }, []⟩
      [.exec_user_program selfImage, .sys_execve zeroRegs (.readable selfImage) path] = .ok w ∧
    w.kernel.mm = mm2 ∧ w.kernel.task w.kernel.current_task = t := by
  obtain ⟨k0, mm, hinit, hstarted, hpaging, hpool⟩ := small_start
  obtain ⟨new1, mm1, -, hpool1, hstep1⟩ :=
    step_selfImage (k := { k0 with mm := mm }) (n := 65010) hpool []
  obtain ⟨k1, hk1⟩ : ∃ k1, k1 = Kernel.update_task { k0 with mm := mm1 } k0.current_task fun t =>
    t.set_image new1 :=
    ⟨_, rfl⟩
  have hmm : k1.mm = mm1 := by rw [hk1]; rfl
  have hheap : k1.heap_ptr.toNat + 4128 ≤ 4194304 := by
    rw [hk1]
    exact (congrArg (· + 4128) hstarted.heap).trans_le (by decide)
  obtain ⟨new_cr3, mm2, hload, hpool2⟩ := load_selfImage_pool (s := k1.mm) (n := 65002)
    (hmm.symm ▸ hpool1)
  obtain ⟨heap_ptr, regs', hexec⟩ := sys_execve_of_load zeroRegs path rfl hload hheap
  obtain ⟨t, ht⟩ : ∃ t, ((k1.task k1.current_task).set_image new_cr3).set_name path = .ok t :=
    ⟨_, if_pos hlen⟩
  have hstep2 : (ProcOp.sys_execve zeroRegs (.readable selfImage) path).step ⟨k1, [mm1.cr3]⟩ =
      .ok ⟨Kernel.update_task { k1 with heap_ptr := heap_ptr, mm := mm2 } k1.current_task fun _ => t,
        [mm2.cr3, mm1.cr3]⟩ := bind_ok.mpr ⟨_, hexec t ht, rfl⟩
  refine ⟨k0, mm, k1, new_cr3, mm2, _, t, hinit, hpaging, ?_, hload, hpool2, ht,
    bind_ok.mpr ⟨⟨k1, [mm1.cr3]⟩, ?_, bind_ok.mpr ⟨_, hstep2, rfl⟩⟩, rfl, Function.update_self _ _ _⟩
  · rw [hmm, hk1]
    exact hstep1
  · rw [hk1]
    exact hstep1

/-- A program that loads itself again by a path of 49 bytes runs in a space that is not the one of
its task. -/
theorem path_overwrites_cr3 : ∃ k0 mm w, sched_init (Kernel.boot bootMm 0) = .ok k0 ∧
    arch_paging_init k0.mm = .ok mm ∧
    run ProcOp.step ⟨{ k0 with mm := mm }, []⟩
      [.exec_user_program selfImage, .sys_execve zeroRegs (.readable selfImage) longPath] = .ok w ∧
    w.kernel.mm.cr3 ≠ (w.kernel.task w.kernel.current_task).cr3 := by
  obtain ⟨k0, mm, k1, new_cr3, mm2, w, t, hinit, hpaging, -, hload, -, ht, hrun, hmm, htask⟩ :=
    small_execve longPath (by decide)
  obtain ⟨hcr3, -, haligned⟩ := load_image_root hload
  refine ⟨k0, mm, w, hinit, hpaging, hrun, fun heq => ?_⟩
  obtain ⟨t', ht', hne⟩ := set_name_long (t := (k1.task k1.current_task).set_image new_cr3) haligned
  cases ht.symm.trans ht'
  rw [hmm, htask, hcr3] at heq
  exact hne heq.symm

end Relis.Process
