import Relis.Paging.Need
import Relis.Process.Spaces

/-!
# What a child sees

A child gets a frame of its own for each page of its parent, the console and the
shared pages included.
-/

open Relis.Bytes Relis.Code Relis.PageAlloc Relis.Paging Relis.Run Relis.Sched Relis.Slab

namespace Relis.Process

variable {k k' : Kernel} {w w' : World} {s s' : Mm} {roots : Set (BitVec 64)}
  {boot : BitVec 64} {p0 : Nat}

/-! ## The pages of a child -/

theorem NewRoot.translate_fresh {r v a : BitVec 64} (h : NewRoot s s' r)
    (hT : Tables s' (insert r roots)) (hv : UserHalf v) (ha : translate s'.mem r v = some a) :
    pageOf a ∈ freePages s.pmm := by
  rw [hT.translate_eq (Set.mem_insert _ _) (pathOf_user hv 4)] at ha
  split_ifs at ha with hpres
  cases ha
  rw [pageOf_or]
  refine (h.frames (pathOf v 4) _ (pathOf_user hv 4) (by simp) ?_).1
  rw [node_pathOf_succ]
  exact child_of_small hpres (by omega)

theorem Settled.fork_translate {regs : Registers} {ret : Int} {v : BitVec 64}
    (h : Settled boot k roots) (hrun : Running p0 k) (hcr3 : k.mm.cr3 ∈ roots)
    (hk : sys_fork k regs = .ok (ret, k')) (hret : ret ≠ -1) (hv : UserHalf v) :
    translate k'.mm.mem k'.mm.cr3 v = translate k.mm.mem k.mm.cr3 v ∧
    (∀ a, translate k'.mm.mem (k'.task k.heap_ptr.toNat).cr3 v = some a →
      pageOf a ∈ freePages k.mm.pmm) ∧
    (translate k.mm.mem k.mm.cr3 v ≠ none → translate k'.mm.mem (k'.task k.heap_ptr.toNat).cr3 v ≠
      none) := by
  rcases sys_fork_new hrun.linked hk with ⟨-, hfail, -⟩ | ⟨cr3, -, -, hclone, hnew⟩
  · exact absurd hfail hret
  have hchild : (k'.task k.heap_ptr.toNat).cr3 = cr3 := (congrArg TaskMemory.cr3 hnew.new :)
  obtain ⟨hcloned, hext⟩ := clone_extends h.unmarked hcr3 subset_rfl hclone
  have hself := h.unmarked.addr _ hcr3
  have hroot : pte_addr k.mm.cr3 ∈ roots := hself.symm ▸ hcr3
  have hpath := pathOf_user hv 4
  rw [hchild, (clone_address_space_root hclone).1]
  refine ⟨?_, fun a ha => ?_, fun hsome => ?_⟩
  · apply translate_congr
    intro n hn
    exact h.unmarked.tables.slot_only hcloned.only (fun _ _ => Set.disjoint_empty _) hcr3
      (pathOf_user hv n)
      (by simp; omega) (indexOf_lt v n)
  · exact NewRoot.translate_fresh (hcloned.newRoot h.unmarked.tables hroot) hext.unmarked.tables hv ha
  · rw [h.unmarked.tables.translate_eq hcr3 hpath] at hsome
    rw [hext.unmarked.tables.translate_eq (Set.mem_insert _ _) hpath]
    have hcopied := hcloned.copy.slots _ _ (userPath_iff.mp (pathOf_succ_user hv 3)) (by simp)
    rw [hself] at hcopied
    have hsame : has (slot k'.mm.mem cr3 (pathOf v 3) (indexOf v 3)) PTE_PRESENT =
      has (slot k.mm.mem k.mm.cr3 (pathOf v 3) (indexOf v 3)) PTE_PRESENT := hcopied.present
    split_ifs at hsome with hpres
    · rw [if_pos (hsame.trans hpres)]
      simp
    · exact absurd rfl hsome

/-! ## Runs -/

structure Spaced (p0 : Nat) (boot : BitVec 64) (w : World) : Prop where
  running : Running p0 w.kernel
  settled : Settled boot w.kernel w.spaces

theorem spaced_step {op : ProcOp} (h : Spaced p0 boot w) (hop : op.Legal w)
    (hstep : op.step w = .ok w') : Spaced p0 boot w' ∧ Advanced boot op w w' := by
  have hadvanced := settled_step h.settled h.running hop hstep
  exact ⟨⟨running_step h.running hop.1 hstep, hadvanced.settled⟩, hadvanced⟩

theorem consoles_step {op : ProcOp} (h : Spaced p0 boot w)
    (hconsole : ∀ r ∈ w.spaces, consoleEntry w.kernel.mm.mem r = consoleMapping) (hop : op.Legal w)
    (hkeeps : op.KeepsConsole w) (hstep : op.step w = .ok w') :
    ∀ r ∈ w'.spaces, consoleEntry w'.kernel.mm.mem r = consoleMapping := by
  intro r hr
  obtain ⟨-, hadvanced⟩ := spaced_step h hop hstep
  rcases hadvanced.new hkeeps r hr with hold | hnew
  · rw [hadvanced.console r hold, hconsole r hold]
  · exact hnew

section Runs

variable {p4 kernel_end : BitVec 64} {m : Mem} {mm : Mm} {heap_ptr : BitVec 32} {k0 : Kernel}
  {ops : List ProcOp}

theorem spaced_start (hlayout : Layout p4 m kernel_end)
    (hinit : sched_init (Kernel.boot (start_mm p4 m kernel_end) heap_ptr) = .ok k0)
    (hpaging : arch_paging_init k0.mm = .ok mm) :
    Spaced k0.current_task p4 ⟨{ k0 with mm := mm }, []⟩ := by
  have hstarted := sched_init_started hinit
  rw [hstarted.mm_eq] at hpaging
  have hnone : World.spaces ⟨{ k0 with mm := mm }, []⟩ = ∅ := by
    unfold World.spaces
    simp
  refine ⟨hstarted.running hpaging, ?_⟩
  rw [hnone]
  exact hstarted.settled hlayout hpaging

theorem translate_console {r : BitVec 64} (h : Owner s roots) (hr : r ∈ roots)
    (hentry : consoleEntry s.mem r = consoleMapping) : translate s.mem r 0xB8000 = some 0xB8000 := by
  rw [h.tables.translate_eq hr (pathOf_user (by decide) 4)]
  unfold consoleEntry at hentry
  rw [hentry]
  decide

theorem Spaced.fork_console {regs : Registers} {ret : Int} (h : Spaced p0 boot w)
    (hcr3 : w.kernel.mm.cr3 ∈ w.roots)
    (hconsole : translate w.kernel.mm.mem w.kernel.mm.cr3 0xB8000 ≠ none)
    (hk : sys_fork w.kernel regs = .ok (ret, k')) (hret : ret ≠ -1) :
    ∃ a, translate k'.mm.mem (k'.task w.kernel.heap_ptr.toNat).cr3 0xB8000 = some a ∧
      a ≠ 0xB8000 := by
  obtain ⟨-, hfresh, hsome⟩ := h.settled.fork_translate h.running hcr3 hk hret
    (show UserHalf 0xB8000 by decide)
  obtain ⟨a, ha⟩ := Option.ne_none_iff_exists'.mp (hsome hconsole)
  refine ⟨a, ha, ?_⟩
  rintro rfl
  exact not_free_of_used h.settled.unmarked.console.1 (hfresh _ ha)

theorem Spaced.fork_shared {regs : Registers} {ret : Int} {id : Nat} (h : Spaced p0 boot w)
    (hcr3 : w.kernel.mm.cr3 ∈ w.roots) (hk : sys_fork w.kernel regs = .ok (ret, k'))
    (hret : ret ≠ -1) (hid : id < (w.kernel.task w.kernel.current_task).shm_count) :
    translate k'.mm.mem k'.mm.cr3 (shmAddr id) =
      translate w.kernel.mm.mem w.kernel.mm.cr3 (shmAddr id) ∧
    translate k'.mm.mem (k'.task w.kernel.heap_ptr.toNat).cr3 (shmAddr id) ≠
      some ((w.kernel.task w.kernel.current_task).shm_pages id) ∧
    (translate w.kernel.mm.mem w.kernel.mm.cr3 (shmAddr id) =
        some ((w.kernel.task w.kernel.current_task).shm_pages id) →
      ∃ a, translate k'.mm.mem (k'.task w.kernel.heap_ptr.toNat).cr3 (shmAddr id) = some a ∧
        a ≠ (w.kernel.task w.kernel.current_task).shm_pages id) := by
  have hcurrent := h.settled.current h.running
  obtain ⟨hv, -⟩ := shmAddr_page id (hid.trans_le hcurrent.shm_count)
  obtain ⟨hparent, hfresh, hsome⟩ := h.settled.fork_translate h.running hcr3 hk hret hv
  have hother : translate k'.mm.mem (k'.task w.kernel.heap_ptr.toNat).cr3 (shmAddr id) ≠
      some ((w.kernel.task w.kernel.current_task).shm_pages id) := by
    intro ha
    exact not_free_of_used (hcurrent.shm id hid).2.1 (hfresh _ ha)
  refine ⟨hparent, hother, fun hattached => ?_⟩
  obtain ⟨a, ha⟩ := Option.ne_none_iff_exists'.mp (hsome (by rw [hattached]; simp))
  refine ⟨a, ha, ?_⟩
  rintro rfl
  exact hother ha

/-- As long as no page of an image lies on the console and no fork succeeds, all processes have the
console. The first child has not. -/
theorem console_stays (hlayout : Layout p4 m kernel_end)
    (hinit : sched_init (Kernel.boot (start_mm p4 m kernel_end) heap_ptr) = .ok k0)
    (hpaging : arch_paging_init k0.mm = .ok mm)
    (hrun : run (guarded (fun w op => op.Legal w ∧ op.KeepsConsole w) .no_space ProcOp.step)
      ⟨{ k0 with mm := mm }, []⟩ ops = .ok w) :
    (∀ r ∈ w.roots, translate w.kernel.mm.mem r 0xB8000 = some 0xB8000) ∧
    (∀ p ∈ w.kernel.task_structs, (w.kernel.task p).cr3 ∈ w.roots ∨
      pte_addr (w.kernel.task p).cr3 = p4) ∧
    ∀ regs ret k', w.kernel.mm.cr3 ∈ w.roots → sys_fork w.kernel regs = .ok (ret, k') → ret ≠ -1 →
      ∃ a, translate k'.mm.mem (k'.task w.kernel.heap_ptr.toNat).cr3 0xB8000 = some a ∧
        a ≠ 0xB8000 := by
  have hstep : ∀ op ∈ ops, ∀ w w' : World,
      (Spaced k0.current_task p4 w ∧ ∀ r ∈ w.spaces, consoleEntry w.kernel.mm.mem r = consoleMapping) →
      guarded (fun w (op : ProcOp) => op.Legal w ∧ op.KeepsConsole w) Halt.no_space ProcOp.step
        w op = .ok w' →
      Spaced k0.current_task p4 w' ∧
        ∀ r ∈ w'.spaces, consoleEntry w'.kernel.mm.mem r = consoleMapping := by
    rintro op - w w' ⟨h, hconsole⟩ hstep
    obtain ⟨⟨hlegal, hkeeps⟩, hstep⟩ := guarded_ok.mp hstep
    exact ⟨(spaced_step h hlegal hstep).1, consoles_step h hconsole hlegal hkeeps hstep⟩
  have hstart : Spaced k0.current_task p4 ⟨{ k0 with mm := mm }, []⟩ ∧
      ∀ r ∈ World.spaces ⟨{ k0 with mm := mm }, []⟩, consoleEntry mm.mem r = consoleMapping :=
    ⟨spaced_start hlayout hinit hpaging, fun r hr => absurd hr List.not_mem_nil⟩
  obtain ⟨h, hconsole⟩ := run_inv (fun w : World => Spaced k0.current_task p4 w ∧
    ∀ r ∈ w.spaces, consoleEntry w.kernel.mm.mem r = consoleMapping) hstep hstart hrun
  have hall : ∀ r ∈ w.roots, translate w.kernel.mm.mem r 0xB8000 = some 0xB8000 := fun r hr =>
    translate_console h.settled.unmarked.toOwner hr (hconsole r hr)
  refine ⟨hall, fun p hp => (h.settled.tasks p hp).home, fun regs ret k' hcr3 hk hret => ?_⟩
  refine h.fork_console hcr3 ?_ hk hret
  rw [hall _ hcr3]
  simp

/-- No child has a shared page of its parent: its address leads to another frame, or to none where the
parent has not attached it. -/
theorem child_shares_no_page (hlayout : Layout p4 m kernel_end)
    (hinit : sched_init (Kernel.boot (start_mm p4 m kernel_end) heap_ptr) = .ok k0)
    (hpaging : arch_paging_init k0.mm = .ok mm)
    (hrun : run (guarded (fun w op => op.Legal w) .no_space ProcOp.step)
      ⟨{ k0 with mm := mm }, []⟩ ops = .ok w) {regs : Registers} {ret : Int}
    (hcr3 : w.kernel.mm.cr3 ∈ w.roots) (hk : sys_fork w.kernel regs = .ok (ret, k'))
    (hret : ret ≠ -1) {id : Nat} (hid : id < (w.kernel.task w.kernel.current_task).shm_count) :
    translate k'.mm.mem k'.mm.cr3 (shmAddr id) =
      translate w.kernel.mm.mem w.kernel.mm.cr3 (shmAddr id) ∧
    translate k'.mm.mem (k'.task w.kernel.heap_ptr.toNat).cr3 (shmAddr id) ≠
      some ((w.kernel.task w.kernel.current_task).shm_pages id) ∧
    (translate w.kernel.mm.mem w.kernel.mm.cr3 (shmAddr id) =
        some ((w.kernel.task w.kernel.current_task).shm_pages id) →
      ∃ a, translate k'.mm.mem (k'.task w.kernel.heap_ptr.toNat).cr3 (shmAddr id) = some a ∧
        a ≠ (w.kernel.task w.kernel.current_task).shm_pages id) := by
  have hstep : ∀ op ∈ ops, ∀ w w' : World, Spaced k0.current_task p4 w →
      guarded (fun w (op : ProcOp) => op.Legal w) Halt.no_space ProcOp.step w op = .ok w' →
      Spaced k0.current_task p4 w' := by
    intro op _ w w' h hstep
    obtain ⟨hlegal, hstep⟩ := guarded_ok.mp hstep
    exact (spaced_step h hlegal hstep).1
  have h := run_inv (Spaced k0.current_task p4) hstep (spaced_start hlayout hinit hpaging) hrun
  exact h.fork_shared hcr3 hk hret hid

end Runs

/-! ## A process with one page -/

theorem load_page_paths {r : BitVec 64} {elf_data : Mem} {ph : Elf64Phdr} {j : Nat}
    {S : Finset (List Nat)} (h : Unmarked boot s roots) (hr : r ∈ roots)
    (hpgd : s.current_pgd = some r) (hv : UserHalf (ph.page j)) (hS : PathsIn s.mem r S)
    (hload : load_page elf_data ph j s = .ok s') : PathsIn s'.mem r (S ∪ wayTo (ph.page j)) := by
  unfold load_page at hload
  obtain ⟨⟨phys, s1⟩, halloc, hload⟩ := bind_ok.mp hload
  obtain ⟨s2, hmap, hload⟩ := bind_ok.mp hload
  have hnew := alloc_page_new halloc
  have hnone : ∀ r ∈ roots, Disjoint (userPages s.mem r) ∅ := fun _ _ => Set.disjoint_empty _
  have hT1 := h.tables.of_only hnew.only hnone
  have hm := arch_map_page_spec hT1 hr (hnew.current_pgd.trans hpgd) (pathOf_user hv 4) hmap
  have hS2 := (hS.of_only h.tables hr hnew.only hnone).map hr hm
  obtain ⟨hmapped, hdata, -, haligned⟩ := h.map_new hr hpgd hv halloc hmap (Set.empty_subset _)
    fun hmem => hmem.elim
  dsimp only at hload
  by_cases hcopy : BitVec.ofNat 64 j * 4096 < ph.p_filesz
  · replace hload := (if_pos hcopy).symm.trans hload
    cases hload
    refine hS2.of_only hm.tables hr (only_kmemcpy_into elf_data _ haligned (copy_len_le hcopy))
      fun r hr => ?_
    rw [Set.disjoint_singleton_right]
    exact fun hk => hdata.2 ⟨r, hr, hk⟩
  · replace hload := (if_neg hcopy).symm.trans hload
    cases hload
    exact hS2

theorem load_selfImage_paths {new_cr3 : BitVec 64} (h : Unmarked boot s roots)
    (hcr3 : AtHome boot roots s.cr3) (hload : load_image s selfImage = .ok (new_cr3, s')) :
    PathsIn s'.mem new_cr3 (∅ ∪ wayTo 0xB8000 ∪ wayTo 0x400000) := by
  obtain ⟨s1, s2, hnew, hmap, hsegments⟩ := load_image_ok hload
  have hin : new_cr3 ∈ insert new_cr3 roots := Set.mem_insert _ _
  obtain ⟨-, hext, hpgd, hm⟩ := console_extends h hcr3 hnew hmap
  have hpaths : PathsIn (switch_address_space s1 new_cr3).mem new_cr3 ∅ :=
    (create_new_address_space_spec hnew).paths
  rw [selfImage_hdr] at hsegments
  obtain ⟨s4, hsegment, hsegments⟩ := bind_ok.mp hsegments
  cases hsegments
  change load_segment selfImage 0 s2 = .ok s' at hsegment
  unfold load_segment at hsegment
  rw [selfImage_phdr] at hsegment
  replace hsegment := (if_pos rfl).symm.trans hsegment
  obtain ⟨s5, hpage, hsegment⟩ := bind_ok.mp hsegment
  cases hsegment
  have haddr : Elf64Phdr.page ⟨PT_LOAD, 0, 0x400000, 0xA9, 0x1000⟩ 0 = 0x400000 := by decide
  have hlast := load_page_paths hext.unmarked hin hpgd (by rw [haddr]; decide) (hpaths.map hin hm) hpage
  rw [haddr] at hlast
  exact hlast

theorem sound_of_mm {a : Queues} (h : Sound k a) (mm : Mm) : Sound { k with mm := mm } a :=
  ⟨h.facts.of_alike ⟨rfl, rfl, rfl, rfl, rfl, fun _ => rfl, fun _ => rfl, fun _ => id⟩,
    h.rings.of_same fun _ => rfl⟩

structure Ready (p0 : Nat) (boot : BitVec 64) (S : Finset (List Nat)) (w : World) : Prop where
  spaced : Spaced p0 boot w
  sound : ∃ a, Sound w.kernel a
  process : w.kernel.mm.cr3 ∈ w.roots
  paths : PathsIn w.kernel.mm.mem w.kernel.mm.cr3 S
  heap : w.kernel.heap_ptr.toNat + 17128 ≤ 4194304

theorem Ready.fork {S : Finset (List Nat)} (h : Ready p0 boot S w)
    (hpool : Pool (S.card + 1) w.kernel.mm) (regs : Registers) :
    ∃ ret k', sys_fork w.kernel regs = .ok (ret, k') ∧ ret ≠ -1 := by
  have hself := h.spaced.settled.unmarked.addr _ h.process
  have hroot : pte_addr w.kernel.mm.cr3 ∈ w.spaces := hself.symm ▸ h.process
  obtain ⟨new, mm, hclone, -⟩ := clone_address_space_paths (n := 0)
    (h.spaced.settled.unmarked.toOwner.parent hroot)
    (hself.symm ▸ h.paths) (hpool.le (by omega))
  obtain ⟨a, hsound⟩ := h.sound
  rcases sys_fork_spec hsound regs with ⟨herror, -⟩ | ⟨ret, k', hk, -⟩
  · rw [hclone] at herror
    cases herror
  refine ⟨ret, k', hk, ?_⟩
  rcases sys_fork_new h.spaced.running.linked hk with ⟨hnone, -, -⟩ | ⟨-, -, hret, -⟩
  · have hheap := h.heap
    have hsize : sizeof_task_struct.toNat = 17128 := rfl
    rcases kmalloc_spec w.kernel.heap_ptr sizeof_task_struct (by decide) with
      ⟨-, hfull⟩ | ⟨heap_ptr, hsome, -⟩
    · omega
    · rw [hsome] at hnone
      cases hnone
  · exact hret

def selfPaths : Finset (List Nat) := ∅ ∪ wayTo 0xB8000 ∪ wayTo 0x400000

theorem selfImage_keeps (w : World) : (ProcOp.exec_user_program selfImage).Legal w ∧
    (ProcOp.exec_user_program selfImage).KeepsConsole w := by
  refine ⟨⟨selfImage_tame, trivial⟩, ?_, trivial⟩
  rintro elf_data ⟨⟩
  exact selfImage_pages (by decide)

theorem small_process : ∃ k0 mm w, sched_init (Kernel.boot bootMm 0) = .ok k0 ∧ arch_paging_init k0.mm = .ok mm ∧
    (ProcOp.exec_user_program selfImage).step ⟨{ k0 with mm := mm }, []⟩ = .ok w ∧
    Ready k0.current_task 0x110000 selfPaths w ∧ Pool 65010 w.kernel.mm ∧
    consoleEntry w.kernel.mm.mem w.kernel.mm.cr3 = consoleMapping ∧
    (w.kernel.task w.kernel.current_task).shm_count = 0 := by
  obtain ⟨k0, mm, hinit, hstarted, hpaging, hpool⟩ := small_start
  obtain ⟨new_cr3, mm', hload, hpool', hstep⟩ :=
    step_selfImage (k := { k0 with mm := mm }) (n := 65010) hpool []
  have hspaced : Spaced k0.current_task 0x110000 ⟨{ k0 with mm := mm }, []⟩ :=
    spaced_start Vmalloc.small_layout hinit hpaging
  have hcr3 : mm'.cr3 = new_cr3 := (load_image_root hload).1
  obtain ⟨hnext, hadvanced⟩ := spaced_step hspaced (selfImage_keeps _).1 hstep
  refine ⟨k0, mm, _, hinit, hpaging, hstep, ⟨hnext, ?_, List.mem_cons_self, ?_, ?_⟩, hpool', ?_, ?_⟩
  · rcases sched_init_spec bootMm 0 with ⟨-, hfull⟩ | ⟨k1, hinit', -, hsound, -⟩
    · exact absurd hfull (by decide)
    cases hinit.symm.trans hinit'
    have hsound' :
      Sound (Kernel.update_task { k0 with mm := mm' } k0.current_task fun t => t.set_image new_cr3)
        (initial 0) := (sound_of_mm hsound mm').update rfl rfl rfl rfl id
    exact ⟨_, hsound'⟩
  · have hpaths := load_selfImage_paths hspaced.settled.unmarked
      (hspaced.settled.home hspaced.running) hload
    rw [← hcr3] at hpaths
    exact hpaths
  · exact (congrArg (· + 17128) hstarted.heap).trans_le (by decide)
  · exact (hadvanced.new (selfImage_keeps _).2 mm'.cr3 List.mem_cons_self).resolve_left List.not_mem_nil
  · have hcount :
      ((Kernel.update_task { k0 with mm := mm' } k0.current_task fun t => t.set_image new_cr3).task
        k0.current_task).shm_count = 0 := by
      rw [task_update, if_pos rfl]
      exact (congrArg TaskMemory.shm_count hstarted.new :)
    exact hcount

theorem console_stays_small : ∃ k0 mm w, sched_init (Kernel.boot bootMm 0) = .ok k0 ∧
    arch_paging_init k0.mm = .ok mm ∧
    run (guarded (fun w op => op.Legal w ∧ op.KeepsConsole w) .no_space ProcOp.step) ⟨{ k0 with mm := mm }, []⟩
      [.exec_user_program selfImage] = .ok w ∧
    w.kernel.mm.cr3 ∈ w.roots ∧ translate w.kernel.mm.mem w.kernel.mm.cr3 0xB8000 = some 0xB8000 := by
  obtain ⟨k0, mm, w, hinit, hpaging, hstep, hready, -⟩ := small_process
  have hrun : run (guarded (fun w op => op.Legal w ∧ op.KeepsConsole w) .no_space ProcOp.step)
      ⟨{ k0 with mm := mm }, []⟩ [.exec_user_program selfImage] = .ok w :=
    bind_ok.mpr ⟨w, guarded_ok.mpr ⟨selfImage_keeps _, hstep⟩, rfl⟩
  obtain ⟨hconsole, -⟩ := console_stays Vmalloc.small_layout hinit hpaging hrun
  exact ⟨k0, mm, w, hinit, hpaging, hrun, hready.process, hconsole _ hready.process⟩

/-- The child of the first process writes to another frame than the console's. -/
theorem child_has_no_console : ∃ k0 mm w, sched_init (Kernel.boot bootMm 0) = .ok k0 ∧
    arch_paging_init k0.mm = .ok mm ∧
    run ProcOp.step ⟨{ k0 with mm := mm }, []⟩ [.exec_user_program selfImage, .sys_fork zeroRegs] = .ok w ∧
    ∃ r ∈ w.roots, ∃ a, translate w.kernel.mm.mem r 0xB8000 = some a ∧ a ≠ 0xB8000 := by
  obtain ⟨k0, mm, w, hinit, hpaging, hstep, hready, hpool, hentry, -⟩ := small_process
  obtain ⟨ret, k', hk, hret⟩ := hready.fork (hpool.le (by decide)) zeroRegs
  have hconsole : translate w.kernel.mm.mem w.kernel.mm.cr3 0xB8000 ≠ none := by
    rw [translate_console hready.spaced.settled.unmarked.toOwner hready.process hentry]
    simp
  obtain ⟨a, ha, hne⟩ := hready.spaced.fork_console hready.process hconsole hk hret
  have hfork : (ProcOp.sys_fork zeroRegs).step w =
      .ok ⟨k', (k'.task w.kernel.heap_ptr.toNat).cr3 :: w.roots⟩ := by
    refine bind_ok.mpr ⟨(ret, k'), hk, ?_⟩
    dsimp only
    rw [if_neg hret]
    rfl
  exact ⟨k0, mm, _, hinit, hpaging, bind_ok.mpr ⟨w, hstep, bind_ok.mpr ⟨_, hfork, rfl⟩⟩, _,
    List.mem_cons_self, a, ha, hne⟩

/-! ## A process with a shared page -/

structure SharesFirst (k k1 : Kernel) (phys : BitVec 64) (mm1 : Mm) : Prop where
  mm : k1.mm = mm1
  heap_ptr : k1.heap_ptr = k.heap_ptr
  shm_count : (k1.task k1.current_task).shm_count = 1
  shm_pages : (k1.task k1.current_task).shm_pages 0 = phys
  sound : ∀ a, Sound k a → Sound k1 a

theorem sys_shmget_first {k : Kernel} {phys : BitVec 64} {mm1 : Mm}
    (hcount : (k.task k.current_task).shm_count = 0) (halloc : alloc_page k.mm = .ok (phys, mm1)) :
    ∃ k1, sys_shmget k = .ok (0, k1) ∧ SharesFirst k k1 phys mm1 := by
  refine ⟨Kernel.update_task { k with mm := mm1 } k.current_task fun t => { t with
    shm_count := 1, shm_pages := Function.update t.shm_pages 0 phys }, ?_, rfl, rfl, ?_, ?_,
      fun a hsound =>
      (sound_of_mm hsound mm1).update rfl rfl rfl rfl id⟩
  · unfold sys_shmget
    refine (if_neg (by rw [hcount]; decide)).trans (bind_ok.mpr ⟨_, halloc, ?_⟩)
    rw [hcount]
    rfl
  · change (Task.shm_count (Kernel.task _ k.current_task)) = 1
    rw [task_update, if_pos rfl]
  · change (Task.shm_pages (Kernel.task _ k.current_task)) 0 = phys
    rw [task_update, if_pos rfl]
    dsimp only
    rw [Function.update_self]

theorem sys_shmat_first {k : Kernel} {mm2 : Mm} (hcount : (k.task k.current_task).shm_count = 1)
    (hmap : arch_map_page k.mm (shmAddr 0) ((k.task k.current_task).shm_pages 0)
      (PTE_WRITABLE ||| PTE_USER) = .ok mm2) :
    sys_shmat k 0 = .ok ((shmAddr 0).toInt, { k with mm := mm2 }) := by
  unfold sys_shmat
  exact (if_neg (by rw [hcount]; decide)).trans (bind_ok.mpr ⟨mm2, hmap, rfl⟩)

theorem Ready.share {S : Finset (List Nat)} {n : Nat} (h : Ready p0 boot S w)
    (hpool : Pool (n + 4) w.kernel.mm)
    (hcount : (w.kernel.task w.kernel.current_task).shm_count = 0) :
    ∃ w1 w2, ProcOp.sys_shmget.step w = .ok w1 ∧ (ProcOp.sys_shmat 0).step w1 = .ok w2 ∧
      ProcOp.sys_shmget.Legal w ∧ (ProcOp.sys_shmat 0).Legal w1 ∧
      Ready p0 boot (S ∪ wayTo (shmAddr 0)) w2 ∧ Pool n w2.kernel.mm ∧
      0 < (w2.kernel.task w2.kernel.current_task).shm_count ∧
      translate w2.kernel.mm.mem w2.kernel.mm.cr3 (shmAddr 0) =
        some ((w2.kernel.task w2.kernel.current_task).shm_pages 0) := by
  obtain ⟨phys, mm1, halloc, hpool1⟩ := alloc_page_pool (n := n + 3) hpool
  obtain ⟨mm2, hmap, hpool2⟩ := arch_map_page_pool (n := n) hpool1 (shmAddr 0) phys
    (PTE_WRITABLE ||| PTE_USER)
  have hnew := alloc_page_new halloc
  obtain ⟨k1, hk1, hfirst⟩ := sys_shmget_first hcount halloc
  have hget : ProcOp.sys_shmget.step w = .ok { w with kernel := k1 } := bind_ok.mpr ⟨_, hk1, rfl⟩
  have hmm := hfirst.mm
  have hat : (ProcOp.sys_shmat 0).step { w with kernel := k1 } =
      .ok { w with kernel := { k1 with mm := mm2 } } := by
    refine bind_ok.mpr ⟨_, sys_shmat_first hfirst.shm_count ?_, rfl⟩
    rw [hmm, hfirst.shm_pages]
    exact hmap
  have hlegal : ProcOp.sys_shmget.Legal w := ⟨⟨by simp [ProcOp.image], trivial⟩, h.process⟩
  obtain ⟨hspaced1, -⟩ := spaced_step h.spaced hlegal hget
  have hprocess : k1.mm.cr3 ∈ w.roots := by
    rw [hmm, hnew.cr3]
    exact h.process
  have hlegal1 : (ProcOp.sys_shmat 0).Legal { w with kernel := k1 } :=
    ⟨⟨by simp [ProcOp.image], trivial⟩, hprocess⟩
  obtain ⟨hspaced2, -⟩ := spaced_step hspaced1 hlegal1 hat
  have hv : UserHalf (shmAddr 0) := (shmAddr_page 0 (by decide)).1
  have hT1 := hspaced1.settled.unmarked.tables
  have hpgd := hspaced1.settled.pgd hspaced1.running hprocess
  rw [hmm] at hT1 hpgd
  have hcr3 : mm1.cr3 ∈ w.roots := hmm ▸ hprocess
  have hm := arch_map_page_spec hT1 hcr3 hpgd (pathOf_user hv 4) hmap
  have hroot : mm2.cr3 = mm1.cr3 := hm.only.cr3
  refine ⟨_, _, hget, hat, hlegal, hlegal1, ⟨hspaced2, ?_, ?_, ?_, ?_⟩, hpool2, ?_, ?_⟩
  · obtain ⟨a, hsound⟩ := h.sound
    exact ⟨a, sound_of_mm (hfirst.sound a hsound) mm2⟩
  · change mm2.cr3 ∈ w.roots
    rwa [hroot]
  · change PathsIn mm2.mem mm2.cr3 _
    have hpaths := h.paths.of_only h.spaced.settled.unmarked.tables h.process hnew.only fun _ _ =>
      Set.disjoint_empty _
    rw [← hnew.cr3] at hpaths
    rw [hroot]
    exact hpaths.map hcr3 hm
  · change k1.heap_ptr.toNat + 17128 ≤ 4194304
    rw [hfirst.heap_ptr]
    exact h.heap
  · change 0 < (k1.task k1.current_task).shm_count
    rw [hfirst.shm_count]
    exact Nat.one_pos
  · change translate mm2.mem mm2.cr3 (shmAddr 0) = some ((k1.task k1.current_task).shm_pages 0)
    rw [hroot, hm.tables.translate_eq hcr3 (pathOf_user hv 4), hm.leaf,
      if_pos (pageEntry_present _ _), pageEntry_addr _ (by decide), hnew.addr, hfirst.shm_pages,
      show shmAddr 0 &&& 0xFFF = 0#64 by decide,
      BitVec.or_zero]

theorem small_sharer : ∃ k0 mm w, sched_init (Kernel.boot bootMm 0) = .ok k0 ∧ arch_paging_init k0.mm = .ok mm ∧
    run (guarded (fun w op => op.Legal w) .no_space ProcOp.step) ⟨{ k0 with mm := mm }, []⟩
      [.exec_user_program selfImage, .sys_shmget, .sys_shmat 0] = .ok w ∧
    Ready k0.current_task 0x110000 (selfPaths ∪ wayTo (shmAddr 0)) w ∧ Pool 65006 w.kernel.mm ∧
    0 < (w.kernel.task w.kernel.current_task).shm_count ∧
    translate w.kernel.mm.mem w.kernel.mm.cr3 (shmAddr 0) =
      some ((w.kernel.task w.kernel.current_task).shm_pages 0) := by
  obtain ⟨k0, mm, w, hinit, hpaging, hstep, hready, hpool, -, hcount⟩ := small_process
  obtain ⟨w1, w2, hget, hat, hlegal, hlegal1, hready2, hpool2, hcount2, hpage⟩ :=
    hready.share (n := 65006) hpool hcount
  refine ⟨k0, mm, w2, hinit, hpaging, ?_, hready2, hpool2, hcount2, hpage⟩
  exact bind_ok.mpr ⟨w, guarded_ok.mpr ⟨(selfImage_keeps _).1, hstep⟩, bind_ok.mpr ⟨w1, guarded_ok.mpr ⟨hlegal, hget⟩,
    bind_ok.mpr ⟨w2, guarded_ok.mpr ⟨hlegal1, hat⟩, rfl⟩⟩⟩

theorem child_shares_no_page_small : ∃ k0 mm w ret k', sched_init (Kernel.boot bootMm 0) = .ok k0 ∧
    arch_paging_init k0.mm = .ok mm ∧
    run (guarded (fun w op => op.Legal w) .no_space ProcOp.step) ⟨{ k0 with mm := mm }, []⟩
      [.exec_user_program selfImage, .sys_shmget, .sys_shmat 0] = .ok w ∧
    sys_fork w.kernel zeroRegs = .ok (ret, k') ∧
    translate k'.mm.mem (k'.task w.kernel.heap_ptr.toNat).cr3 (shmAddr 0) ≠
      some ((w.kernel.task w.kernel.current_task).shm_pages 0) := by
  obtain ⟨k0, mm, w, hinit, hpaging, hrun, hready, hpool, hcount, -⟩ := small_sharer
  obtain ⟨ret, k', hk, hret⟩ := hready.fork (hpool.le (by decide)) zeroRegs
  obtain ⟨-, hother, -⟩ := child_shares_no_page Vmalloc.small_layout hinit hpaging hrun
    hready.process hk hret hcount
  exact ⟨k0, mm, w, ret, k', hinit, hpaging, hrun, hk, hother⟩

/-- After the fork the parent has the shared page at its address and the child has another one. -/
theorem fork_parts_shared_page : ∃ k0 mm w ret k', sched_init (Kernel.boot bootMm 0) = .ok k0 ∧
    arch_paging_init k0.mm = .ok mm ∧
    run (guarded (fun w op => op.Legal w) .no_space ProcOp.step) ⟨{ k0 with mm := mm }, []⟩
      [.exec_user_program selfImage, .sys_shmget, .sys_shmat 0] = .ok w ∧
    sys_fork w.kernel zeroRegs = .ok (ret, k') ∧ ret ≠ -1 ∧
    translate k'.mm.mem k'.mm.cr3 (shmAddr 0) = some ((w.kernel.task w.kernel.current_task).shm_pages 0) ∧
    ∃ a, translate k'.mm.mem (k'.task w.kernel.heap_ptr.toNat).cr3 (shmAddr 0) = some a ∧
      a ≠ (w.kernel.task w.kernel.current_task).shm_pages 0 := by
  obtain ⟨k0, mm, w, hinit, hpaging, hrun, hready, hpool, hcount, hpage⟩ := small_sharer
  obtain ⟨ret, k', hk, hret⟩ := hready.fork (hpool.le (by decide)) zeroRegs
  obtain ⟨hparent, -, hchild⟩ := hready.spaced.fork_shared hready.process hk hret hcount
  exact ⟨k0, mm, w, ret, k', hinit, hpaging, hrun, hk, hret, hparent.trans hpage, hchild hpage⟩

end Relis.Process
