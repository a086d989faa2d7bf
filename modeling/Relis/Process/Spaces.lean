import Relis.Process.Run

/-!
# Spaces of processes

Each call leaves the tables of all spaces in order, and what the tasks say about their
memory true.
-/

open Relis.Bytes Relis.Code Relis.PageAlloc Relis.Paging Relis.Run Relis.Sched Relis.Slab
open Relis.Vmalloc (WindowKind)

namespace Relis.Process

variable {k k' : Kernel} {w w' : World} {s s' : Mm} {roots roots' : Set (BitVec 64)}
  {boot : BitVec 64} {p0 : Nat}

/-! ## Tasks and their spaces -/

/-- What a task says about its memory holds: its space is one of the run or that of the boot code, only
a task with an image has a stack, and its shared pages are data. -/
structure TaskSpace (boot : BitVec 64) (s : Mm) (roots : Set (BitVec 64)) (t : TaskMemory) : Prop where
  home : AtHome boot roots t.cr3
  stack : t.stack_end = 0 ∨
    (t.stack_start = user_stack - 4 * 4096 ∧ t.stack_end = user_stack ∧ t.cr3 ∈ roots)
  shm_count : t.shm_count ≤ MAX_SHM_REGIONS
  shm : ∀ id < t.shm_count, pte_addr (t.shm_pages id) = t.shm_pages id ∧
    Data s roots (pageOf (t.shm_pages id))

theorem AtHome.mono {cr3 : BitVec 64} (h : AtHome boot roots cr3) (hsub : roots ⊆ roots') :
    AtHome boot roots' cr3 :=
  h.imp_left fun hr => hsub hr

theorem TaskSpace.grow {t : TaskMemory} (h : TaskSpace boot s roots t) (hsub : roots ⊆ roots')
    (hgrows : Grows s s' roots roots') : TaskSpace boot s' roots' t := by
  refine ⟨h.home.mono hsub, h.stack.imp_right ?_, h.shm_count,
    fun id hid => ⟨(h.shm id hid).1, (h.shm id hid).2.grow hgrows⟩⟩
  rintro ⟨hstart, hend, hr⟩
  exact ⟨hstart, hend, hsub hr⟩

structure Settled (boot : BitVec 64) (k : Kernel) (roots : Set (BitVec 64)) : Prop where
  unmarked : Unmarked boot k.mm roots
  tasks : ∀ p ∈ k.task_structs, TaskSpace boot k.mm roots (memory (k.task p))

/-- System calls for memory come from tasks that have an image. -/
def ProcOp.ByProcess (w : World) : ProcOp → Prop
  | .sys_fork _ | .sys_shmget | .sys_shmat _ => w.kernel.mm.cr3 ∈ w.roots
  | _ => True

def ProcOp.Legal (w : World) (op : ProcOp) : Prop := op.Tame ∧ op.ByProcess w

def ProcOp.NoChild (w : World) : ProcOp → Prop
  | .sys_fork _ => (kmalloc w.kernel.heap_ptr sizeof_task_struct).1 = none
  | _ => True

/-- No page of an image lies on the console, and no child comes up. -/
def ProcOp.KeepsConsole (w : World) (op : ProcOp) : Prop :=
  (∀ elf_data ∈ op.image, ImagePages OffConsole elf_data) ∧ op.NoChild w

instance (w : World) : (op : ProcOp) → Decidable (op.ByProcess w)
  | .sys_fork _ | .sys_shmget | .sys_shmat _ => inferInstanceAs (Decidable (w.kernel.mm.cr3 ∈ w.roots))
  | .kernel_thread .. | .exec_user_program _ | .sys_execve .. | .page_fault .. | .schedule =>
    isTrue trivial

instance (w : World) : (op : ProcOp) → Decidable (op.NoChild w)
  | .sys_fork _ => inferInstanceAs (Decidable ((kmalloc w.kernel.heap_ptr sizeof_task_struct).1 = none))
  | .kernel_thread .. | .exec_user_program _ | .sys_execve .. | .page_fault
    .. | .sys_shmget | .sys_shmat _
  | .schedule => isTrue trivial

instance (w : World) (op : ProcOp) : Decidable (op.Legal w) := inferInstanceAs (Decidable (_ ∧ _))

instance (w : World) (op : ProcOp) : Decidable (op.KeepsConsole w) :=
  inferInstanceAs (Decidable (_ ∧ _))

def consoleMapping : BitVec 64 := pageEntry 0xB8000 (PTE_WRITABLE ||| PTE_GLOBAL)

structure Advanced (boot : BitVec 64) (op : ProcOp) (w w' : World) : Prop where
  settled : Settled boot w'.kernel w'.spaces
  console : ∀ r ∈ w.spaces, consoleEntry w'.kernel.mm.mem r = consoleEntry w.kernel.mm.mem r
  new : op.KeepsConsole w → ∀ r ∈ w'.spaces, r ∈ w.spaces ∨
    consoleEntry w'.kernel.mm.mem r = consoleMapping

/-! ## Calls -/

theorem Settled.extend {K : Set (BitVec 64)} (h : Settled boot k roots)
    (hext : Extends boot K k.mm k'.mm roots roots')
    (htasks : ∀ p ∈ k'.task_structs, (p ∈ k.task_structs ∧ memory (k'.task p) = memory (k.task p)) ∨
      TaskSpace boot k'.mm roots' (memory (k'.task p))) : Settled boot k' roots' := by
  refine ⟨hext.unmarked, fun p hp => ?_⟩
  rcases htasks p hp with ⟨hold, hmemory⟩ | hnew
  · rw [hmemory]
    exact (h.tasks p hold).grow hext.subset hext.grows
  · exact hnew

theorem Settled.advance {op : ProcOp} (h : Settled boot w.kernel w.spaces)
    (hext : Extends boot w.spaces w.kernel.mm k'.mm w.spaces w.spaces)
    (htasks : ∀ p ∈ k'.task_structs, (p ∈ w.kernel.task_structs ∧ memory (k'.task p) =
      memory (w.kernel.task p)) ∨ TaskSpace boot k'.mm w.spaces (memory (k'.task p))) :
    Advanced boot op w { w with kernel := k' } :=
  ⟨h.extend hext htasks, hext.console, fun _ _ hr => .inl hr⟩

theorem Settled.advance_new {op : ProcOp} {new : BitVec 64} (h : Settled boot w.kernel w.spaces)
    (hext : Extends boot w.spaces w.kernel.mm k'.mm w.spaces (insert new w.spaces))
    (htasks : ∀ p ∈ k'.task_structs, (p ∈ w.kernel.task_structs ∧ memory (k'.task p) =
      memory (w.kernel.task p)) ∨ TaskSpace boot k'.mm (insert new w.spaces) (memory (k'.task p)))
    (hconsole : op.KeepsConsole w → consoleEntry k'.mm.mem new = consoleMapping) :
    Advanced boot op w ⟨k', new :: w.roots⟩ := by
  have hspaces : World.spaces ⟨k', new :: w.roots⟩ = insert new w.spaces := w.spaces_cons new
  refine ⟨?_, hext.console, ?_⟩
  · rw [hspaces]
    exact h.extend hext htasks
  · rw [hspaces]
    rintro hkeeps r (rfl | hr)
    · exact .inr (hconsole hkeeps)
    · exact .inl hr

theorem Settled.current (h : Settled boot k roots) (hrun : Running p0 k) :
    TaskSpace boot k.mm roots (memory (k.task k.current_task)) := h.tasks _ hrun.linked.current

theorem Settled.home (h : Settled boot k roots) (hrun : Running p0 k) :
    AtHome boot roots k.mm.cr3 := by
  rw [hrun.cr3]
  exact (h.current hrun).home

theorem Settled.pgd (h : Settled boot k roots) (hrun : Running p0 k) (hr : k.mm.cr3 ∈ roots) :
    k.mm.current_pgd = some k.mm.cr3 := by
  rw [hrun.current_pgd, h.unmarked.addr _ hr]

theorem Settled.thread {mem : TaskMemory} {op : ProcOp} (h : Settled boot w.kernel w.spaces)
    (hmm : k'.mm = w.kernel.mm) (hnew : NewTask w.kernel k' mem)
    (hmem : TaskSpace boot w.kernel.mm w.spaces mem) :
    Advanced boot op w { w with kernel := k' } := by
  refine h.advance (by rw [hmm]; exact h.unmarked.refl _) fun p hp => ?_
  by_cases heq : p = w.kernel.heap_ptr.toNat
  · rw [heq, hnew.new, hmm]
    exact .inr hmem
  · rw [hnew.task_structs] at hp
    exact .inl ⟨(List.mem_cons.mp hp).resolve_left heq, hnew.others p heq⟩

theorem Settled.replace {op : ProcOp} {elf_data : Mem} {new_cr3 : BitVec 64}
    (h : Settled boot w.kernel w.spaces) (hrun : Running p0 w.kernel)
    (himage : ImagePages UserHalf elf_data) (hmem : elf_data ∈ op.image)
    (hload : load_image w.kernel.mm elf_data = .ok (new_cr3, k'.mm))
    (hnew : Replaced w.kernel k' new_cr3) : Advanced boot op w ⟨k', new_cr3 :: w.roots⟩ := by
  obtain ⟨hext, hconsole⟩ := load_image_extends h.unmarked (h.home hrun) himage hload
  refine h.advance_new hext (fun p hp => ?_) fun hkeeps => hconsole (hkeeps.1 _ hmem)
  by_cases heq : p = w.kernel.current_task
  · have hold := (h.current hrun).grow hext.subset hext.grows
    rw [heq, hnew.new]
    exact .inr ⟨.inl (Set.mem_insert _ _), .inr ⟨rfl, rfl, Set.mem_insert _ _⟩,
      hold.shm_count, hold.shm⟩
  · rw [hnew.task_structs] at hp
    exact .inl ⟨hp, hnew.others p heq⟩

theorem Settled.fork {op : ProcOp} {cr3 : BitVec 64} {top : StackPtr} (h : Settled boot w.kernel w.spaces)
    (hrun : Running p0 w.kernel) (hcr3 : w.kernel.mm.cr3 ∈ w.roots)
    (hclone : clone_address_space w.kernel.mm = .ok (cr3, k'.mm))
    (hnew : NewTask w.kernel k' { memory (w.kernel.task w.kernel.current_task) with
      cr3 := cr3, kernel_stack_top := top }) (hop : ¬ op.KeepsConsole w) :
    Advanced boot op w ⟨k', cr3 :: w.roots⟩ := by
  obtain ⟨-, hext⟩ := clone_extends h.unmarked hcr3 subset_rfl hclone
  refine h.advance_new hext (fun p hp => ?_) fun hkeeps => absurd hkeeps hop
  by_cases heq : p = w.kernel.heap_ptr.toNat
  · have hold := (h.current hrun).grow hext.subset hext.grows
    have hin : cr3 ∈ insert cr3 w.spaces := Set.mem_insert _ _
    rw [heq, hnew.new]
    refine .inr ⟨.inl hin, hold.stack.imp_right ?_, hold.shm_count, hold.shm⟩
    rintro ⟨hstart, hend, -⟩
    exact ⟨hstart, hend, hin⟩
  · rw [hnew.task_structs] at hp
    exact .inl ⟨(List.mem_cons.mp hp).resolve_left heq, hnew.others p heq⟩

/-! ## Addresses off the console -/

theorem offConsole_of_index {v : BitVec 64} {d : Nat} (hd : d < 4)
    (h : indexOf v d ≠ indexOf 0xB8000 d) : OffConsole v := by
  intro heq
  have hsame := congrArg (fun l => l[d]?) heq
  simp only [pathOf, List.getElem?_map, List.getElem?_range hd, Option.map_some, Option.some.injEq]
    at hsame
  exact h hsame

theorem pmd_index_page (v : BitVec 64) : pmd_index (v &&& PAGE_MASK) = pmd_index v := by
  unfold pmd_index
  rw [BitVec.ushiftRight_and_distrib, BitVec.and_assoc,
    show PAGE_MASK >>> 21 &&& 0x1FF = 0x1FF by decide]

theorem stack_page {v : BitVec 64} (hlo : user_stack - 4 * 4096 ≤ v) (hhi : v < user_stack) :
    UserHalf (v &&& PAGE_MASK) ∧ OffConsole (v &&& PAGE_MASK) := by
  rw [BitVec.le_def, show (user_stack - 4 * 4096).toNat = 0x3FFFC000 from rfl] at hlo
  rw [BitVec.lt_def, show user_stack.toNat = 0x40000000 from rfl] at hhi
  constructor
  · apply userHalf_of_lt
    rw [BitVec.toNat_and]
    exact Nat.lt_of_le_of_lt Nat.and_le_left (by omega)
  · have hpmd : pmd_index v = 511 := by
      unfold pmd_index
      rw [BitVec.toNat_and, BitVec.toNat_ushiftRight, Nat.shiftRight_eq_div_pow,
        show v.toNat / 2 ^ 21 = 511 by omega]
      rfl
    refine offConsole_of_index (d := 2) (by omega) ?_
    rw [show indexOf (v &&& PAGE_MASK) 2 = pmd_index (v &&& PAGE_MASK) from rfl, pmd_index_page, hpmd]
    decide

theorem shmAddr_page : ∀ id < MAX_SHM_REGIONS, UserHalf (shmAddr id) ∧ OffConsole (shmAddr id) := by
  decide

/-! ## Faults, shared pages and switches -/

theorem Settled.stack_fault {addr err : BitVec 64} (h : Settled boot k roots) (hrun : Running p0 k)
    (hstack : stack_fault k addr err = true) : k.mm.cr3 ∈ roots ∧
      (k.task k.current_task).stack_start = user_stack - 4 * 4096 ∧
      (k.task k.current_task).stack_end = user_stack ∧
      user_stack - 4 * 4096 ≤ addr ∧ addr < user_stack := by
  simp only [Code.stack_fault, Bool.and_eq_true, decide_eq_true_eq] at hstack
  obtain ⟨⟨-, hlo⟩, hhi⟩ := hstack
  have hstart : (memory (k.task k.current_task)).stack_start =
      (k.task k.current_task).stack_start := rfl
  have hend : (memory (k.task k.current_task)).stack_end = (k.task k.current_task).stack_end := rfl
  have htask := (h.current hrun).stack
  rw [hstart, hend] at htask
  rcases htask with hnone | ⟨hlow, hhigh, hcr3⟩
  · -- Without an image there is no stack.
    rw [hnone] at hhi
    exact absurd hhi BitVec.not_lt_zero
  · rw [hlow] at hlo
    rw [hhigh] at hhi
    exact ⟨hrun.cr3 ▸ hcr3, hlow, hhigh, hlo, hhi⟩

theorem Settled.fault {op : ProcOp} {addr err : BitVec 64} (h : Settled boot w.kernel w.spaces)
    (hrun : Running p0 w.kernel) (hk : handle_page_fault w.kernel addr err = .ok k') :
    Advanced boot op w { w with kernel := k' } := by
  rcases handle_page_fault_cases hk with
    ⟨hstack, phys, mm1, mm2, halloc, hmap, rfl⟩ | ⟨-, -, pte, e, phys, mm1, hcow, -, halloc, rfl⟩
  · obtain ⟨hr, -, -, hlo, hhi⟩ := h.stack_fault hrun hstack
    obtain ⟨hv, hoff⟩ := stack_page hlo hhi
    obtain ⟨hext, -⟩ := h.unmarked.map_new hr (h.pgd hrun hr) hv halloc hmap subset_rfl fun _ => hoff
    exact h.advance hext fun p hp => .inl ⟨hp, rfl⟩
  · exact h.advance (cow_extends h.unmarked hcow halloc rfl subset_rfl) fun p hp => .inl ⟨hp, rfl⟩

theorem TaskSpace.share {t : TaskMemory} {phys : BitVec 64} (h : TaskSpace boot s roots t)
    (hcount : t.shm_count < MAX_SHM_REGIONS) (haddr : pte_addr phys = phys) (hdata : Data s roots (pageOf phys)) :
    TaskSpace boot s roots { t with
      shm_count := t.shm_count + 1, shm_pages := Function.update t.shm_pages t.shm_count phys } := by
  refine ⟨h.home, h.stack, hcount, fun id hid => ?_⟩
  dsimp only at hid ⊢
  rw [Function.update_apply]
  split_ifs with hlast
  · exact ⟨haddr, hdata⟩
  · exact h.shm id (by omega)

theorem Switched.mm {next : Nat} (h : Switched k k' next) :
    k'.mm.mem = k.mm.mem ∧ k'.mm.pmm = k.mm.pmm := by
  by_cases heq : next = k.current_task
  · rw [(h.same heq).1]
    exact ⟨rfl, rfl⟩
  · rw [(h.other heq).2]
    split_ifs <;> exact ⟨rfl, rfl⟩

theorem Settled.switch {op : ProcOp} {next : Nat} (h : Settled boot w.kernel w.spaces)
    (hs : Switched w.kernel k' next) : Advanced boot op w { w with kernel := k' } := by
  have hmem := hs.mm
  refine h.advance ⟨subset_rfl, h.unmarked.of_mem hmem.1 hmem.2, ⟨?_, ?_⟩, ?_, ?_⟩ fun p hp => ?_
  · rw [hmem.2]
    exact fun _ hk => hk
  · rw [hmem.1]
    exact fun _ hk => .inl hk
  · rw [hmem.2]
  · rw [hmem.1]
    exact fun _ _ => rfl
  · rw [hs.task_structs] at hp
    exact .inl ⟨hp, hs.memory p⟩

theorem settled_step {op : ProcOp} (h : Settled boot w.kernel w.spaces) (hrun : Running p0 w.kernel)
    (hop : op.Legal w) (hstep : op.step w = .ok w') : Advanced boot op w w' := by
  obtain ⟨⟨himage, hshort⟩, hby⟩ := hop
  cases effect_of_step hrun.linked hshort hstep with
  | nothing _ _ => exact h.advance (h.unmarked.refl _) fun p hp => .inl ⟨hp, rfl⟩
  | thread hmm hnew =>
    exact h.thread hmm hnew
      ⟨h.home hrun, .inl rfl, Nat.zero_le _, fun id hid => absurd hid (Nat.not_lt_zero id)⟩
  | image hmem hload hnew => exact h.replace hrun (himage _ hmem) hmem hload hnew
  | fork hsome hclone hnew => exact h.fork hrun hby hclone hnew fun hkeeps => hsome hkeeps.2
  | fault hk => exact h.fault hrun hk
  | @shmget phys mm halloc hcount =>
    have hnew := alloc_page_new halloc
    have hext : Extends boot w.spaces w.kernel.mm mm w.spaces w.spaces :=
      h.unmarked.of_free hnew.only subset_rfl
    have hdata := hnew.data h.unmarked.tables
    refine h.advance hext fun p hp => ?_
    by_cases heq : p = w.kernel.current_task
    · rw [heq, task_update, if_pos rfl]
      exact .inr (((h.current hrun).grow hext.subset hext.grows).share hcount hnew.addr hdata)
    · rw [task_update, if_neg heq]
      exact .inl ⟨hp, rfl⟩
  | shmat hid hmap =>
    have hcurrent := h.current hrun
    obtain ⟨hv, hoff⟩ := shmAddr_page _ (hid.trans_le hcurrent.shm_count)
    have hm := arch_map_page_spec h.unmarked.tables hby (h.pgd hrun hby) (pathOf_user hv 4) hmap
    obtain ⟨haddr, hdata⟩ := hcurrent.shm _ hid
    rw [← haddr] at hdata
    exact h.advance (h.unmarked.map hby (by decide) (by decide) hdata hm subset_rfl fun _ => hoff)
      fun p hp => .inl ⟨hp, rfl⟩
  | switch hs => exact h.switch hs

/-! ## The start -/

section Boot

variable {p4 kernel_end : BitVec 64} {m : Mem} {mm : Mm} {heap_ptr : BitVec 32} {k0 : Kernel}

theorem start_unmarked (h : Layout p4 m kernel_end) :
    ∀ r ∈ ({p4} : Set (BitVec 64)), ∀ p i, SmallPath p →
    p.length ≤ 3 → i < 512 → has (slot (start_mm p4 m kernel_end).mem r p i) PTE_COW = false := by
  rintro r rfl p i hp - hi
  cases ht : node (start_mm r m kernel_end).mem r p with
  | none => rw [slot_of_none ht, zero_has]
  | some t =>
    obtain ⟨n, hpath, rfl⟩ := h.node_boot hp ht
    have hn : n < 7 := (List.getElem?_eq_some_iff.mp hpath).1
    rw [slot_of_node ht, start_mm_mem]
    rcases h.get_start hn hi with ⟨j, hj, -, he⟩ | ⟨-, he⟩ | he
    · rw [he, has_or, ← h.addr_table hj, addr_has _ _ (by decide)]
      decide
    · rw [he]
      exact bootHuge_cow i hi
    · rw [he, zero_has]

theorem init_unmarked (h : Layout p4 m kernel_end)
    (hinit : arch_paging_init (start_mm p4 m kernel_end) = .ok mm) :
    ∀ p i, SmallPath p → p.length ≤ 3 → i < 512 → has (slot mm.mem p4 p i) PTE_COW = false := by
  have haddr := h.addr_table (n := 0) (by omega)
  rw [boot_table_zero] at haddr
  have hroot : pte_addr (start_mm p4 m kernel_end).cr3 = p4 := by rw [Paging.start_mm_cr3, haddr]
  have hunmarked := start_unmarked h
  have hT := h.forest
  generalize start_mm p4 m kernel_end = s at *
  unfold arch_paging_init at hinit
  rw [hroot] at hinit
  obtain ⟨s1, h1, h2⟩ := bind_ok.mp hinit
  have hT0 : Forest SmallPath { s with current_pgd := some p4 } {p4} :=
    hT.of_mem rfl fun _ _ _ _ hk => hk
  have hm1 := arch_map_page_spec hT0 rfl rfl (WindowKind.window 0 (by decide)) h1
  have hm2 := arch_map_page_spec hm1.tables rfl hm1.only.current_pgd
    (WindowKind.window 1 (by decide)) h2
  exact mapped_unmarked hm2 (by decide) (mapped_unmarked hm1 (by decide) hunmarked) p4 rfl

theorem boot_unmarked (h : Layout p4 m kernel_end)
    (hinit : arch_paging_init (start_mm p4 m kernel_end) = .ok mm) : Unmarked p4 mm ∅ := by
  have haddr := h.addr_table (n := 0) (by omega)
  have hused := h.used (n := 0) (by omega)
  have haligned := h.table_aligned (n := 0) (by omega)
  rw [boot_table_zero] at haddr hused haligned
  have hconsole : (start_mm p4 m kernel_end).pmm.page_used consolePage = true := by
    refine pmm_init_console _ _ _ ?_
    have hinside := h.inside
    have hlow := h.low
    omega
  obtain ⟨-, hgrown, -⟩ := Vmalloc.arch_paging_init_spec h.forest
    (Paging.start_mm_cr3 _ _ _) haddr hinit
  refine ⟨Owner.empty (hgrown.only.used _ hconsole), by simp, haligned,
    ⟨hgrown.only.used _ hused, by simp [tablePages]⟩, fun i hi => ?_⟩
  exact init_unmarked h hinit [] i (by simp [SmallPath]) (by simp) hi

theorem Started.settled (h : Started (start_mm p4 m kernel_end) heap_ptr k0)
    (hlayout : Layout p4 m kernel_end)
    (hinit : arch_paging_init (start_mm p4 m kernel_end) = .ok mm) :
    Settled p4 { k0 with mm := mm } ∅ := by
  refine ⟨boot_unmarked hlayout hinit, fun p hp => ?_⟩
  have hfirst : p = k0.current_task := List.mem_singleton.mp (h.task_structs ▸ hp)
  have haddr := hlayout.addr_table (n := 0) (by omega)
  rw [boot_table_zero] at haddr
  rw [hfirst, show memory (Kernel.task { k0 with mm := mm } k0.current_task) = _ from h.new]
  refine ⟨.inr ?_, .inl rfl, Nat.zero_le _, fun id hid => absurd hid (Nat.not_lt_zero id)⟩
  dsimp only
  rw [Paging.start_mm_cr3, haddr]

end Boot

end Relis.Process
