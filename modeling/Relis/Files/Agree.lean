import Relis.Files.Memory
import Relis.Process.Tasks

/-!
# Descriptors and `vfs_read`, `vfs_write`

The dispatcher reads the inode of a file without the test for null that `vfs_read` and
`vfs_write` make. The root of `proc` has none.
-/

open Relis.Code Relis.Lists Relis.Process Relis.Run Relis.Sched Relis.Slab

namespace Relis.Files

variable {o : Outside} {v : Vfs} {k k' k1 : Kernel} {regs : Registers} {proc_root : Nat}

/-! ## The files behind descriptors -/

/-- A file of the heap, which has no inode just when it was opened on the root of `proc`. -/
structure Good (proc_root : Nat) (k : Kernel) (f : Nat) : Prop where
  inside : f < k.heap_ptr.toNat
  inode : (k.file f).f_inode = none ↔ (k.file f).f_dentry = some proc_root

def Tidy (proc_root : Nat) (k : Kernel) : Prop :=
  ∀ t fd f, (k.task t).files fd = some f → Good proc_root k f

structure KeepsFiles (k k' : Kernel) : Prop where
  heap : k.heap_ptr.toNat ≤ k'.heap_ptr.toNat
  file : ∀ f < k.heap_ptr.toNat, (k'.file f).f_inode = (k.file f).f_inode ∧
    (k'.file f).f_dentry = (k.file f).f_dentry

structure Keeps (k k' : Kernel) : Prop extends KeepsFiles k k' where
  files : ∀ t, (k'.task t).files = (k.task t).files

theorem Good.keep {f : Nat} (h : Good proc_root k f) (hkeeps : KeepsFiles k k') :
    Good proc_root k' f := by
  obtain ⟨hinode, hdentry⟩ := hkeeps.file f h.inside
  refine ⟨h.inside.trans_le hkeeps.heap, ?_⟩
  rw [hinode, hdentry]
  exact h.inode

theorem Tidy.keep (h : Tidy proc_root k) (hkeeps : Keeps k k') : Tidy proc_root k' := by
  intro t fd f hf
  rw [hkeeps.files] at hf
  exact (h t fd f hf).keep hkeeps.toKeepsFiles

theorem Tidy.table (h : Tidy proc_root k) (hkeeps : KeepsFiles k k') (p : Nat)
    (hothers : ∀ t ≠ p, (k'.task t).files = (k.task t).files)
    (htable : ∀ fd f, (k'.task p).files fd = some f → Good proc_root k' f) : Tidy proc_root k' := by
  intro t fd f hf
  by_cases ht : t = p
  · subst ht
    exact htable fd f hf
  · rw [hothers t ht] at hf
    exact (h t fd f hf).keep hkeeps

theorem Keeps.of_relinked (h : Relinked k k') : Keeps k k' where
  heap := by rw [show k'.heap_ptr = k.heap_ptr from (congrArg Kernel.heap_ptr h :)]
  file f _ := by
    rw [show k'.file = k.file from (congrArg Kernel.file h :)]
    exact ⟨rfl, rfl⟩
  files t := (congrArg (fun k => (Kernel.task k t).files) h :)

theorem Keeps.refl : Keeps k k := ⟨⟨Nat.le_refl _, fun _ _ => ⟨rfl, rfl⟩⟩, fun _ => rfl⟩

theorem Keeps.trans {k2 : Kernel} (h1 : Keeps k k1) (h2 : Keeps k1 k2) : Keeps k k2 where
  heap := h1.heap.trans h2.heap
  file f hf := by
    obtain ⟨hinode, hdentry⟩ := h2.file f (hf.trans_le h1.heap)
    rw [hinode, hdentry]
    exact h1.file f hf
  files t := (h2.files t).trans (h1.files t)

theorem Keeps.update {p : Nat} {g : Task → Task} (hg : (g (k.task p)).files = (k.task p).files) :
    Keeps k (k.update_task p g) := by
  refine ⟨⟨Nat.le_refl _, fun _ _ => ⟨rfl, rfl⟩⟩, fun t => ?_⟩
  rw [task_update]
  split_ifs with ht
  · rw [ht, hg]
  · rfl

theorem Keeps.log (e : Event) : Keeps k (k.log e) :=
  ⟨⟨Nat.le_refl _, fun _ _ => ⟨rfl, rfl⟩⟩, fun _ => rfl⟩

theorem list_add_keeps {e g : ListNode} (h : list_add k e g = .ok k') : Keeps k k' :=
  .of_relinked
    (.of_core
    (core_relinks (list_add_links (P := fun _ => True) (fun _ _ _ => trivial) trivial trivial h).2))

theorem enqueue_task_keeps {p : Nat} (h : enqueue_task k p = .ok k') : Keeps k k' :=
  .of_relinked (enqueue_task_links (P := fun _ => True) (fun _ _ => trivial) (fun _ _ _ => trivial)
    (fun _ _ => trivial) h).2

/-! ## The mounted tree -/

def Closed (v : Vfs) (S : List Nat) : Prop := ∀ d ∈ S, ∀ e ∈ (v.dentry d).d_children, e ∈ S

theorem vfs_child_mem {S : List Nat} (hS : Closed v S) {d e : Nat} {name : List (BitVec 8)}
    (hd : d ∈ S) (h : vfs_child v d name = some e) : e ∈ S := by
  unfold vfs_child at h
  split at h
  · cases h
    exact hd
  · exact hS d hd e (List.mem_of_find?_eq_some h)

theorem vfs_walk_mem {S : List Nat} (hS : Closed v S) {path : List (BitVec 8)} {d e : Nat}
    {name : List (BitVec 8)} (hd : d ∈ S) (h : vfs_walk v d name path = .ok (some e)) : e ∈ S := by
  induction path generalizing d name with
  | nil =>
    unfold vfs_walk at h
    split at h
    · exact vfs_child_mem hS hd (Except.ok.inj h)
    · cases h
  | cons c path ih =>
    unfold vfs_walk at h
    split at h
    · split at h
      · split at h
        next => cases h
        next d' hd' => exact ih (vfs_child_mem hS hd hd') h
      · exact ih hd h
    · cases h

theorem vfs_lookup_mem {S : List Nat} (hS : Closed v S) (hroot : ∀ r, v.root_dentry = some r → r ∈ S)
    {path : CString} {d : Nat} (h : vfs_lookup v path = .ok (some d)) : d ∈ S := by
  unfold vfs_lookup at h
  split at h
  next root c rest hr _ =>
    split at h
    · exact vfs_walk_mem hS (hroot root hr) h
    · cases h
  next => cases h

/-- What a file is opened on has an inode, unless it is the root of `proc`. -/
def OnlyProc (v : Vfs) (proc_root : Nat) : Prop :=
  ∀ path d, vfs_lookup v path = .ok (some d) → ((v.dentry d).d_inode = none ↔ d = proc_root)

structure RootMounted (v : Vfs) (k k' : Kernel) : Prop where
  root : ∀ r, v.root_dentry = some r → r < k'.heap_ptr.toNat ∧ (v.dentry r).d_inode ≠ none ∧
    (v.dentry r).d_children = []
  keeps : Keeps k k'

theorem vfs_kern_mount_spec {disk : Bool} {v' : Vfs} (h : vfs_kern_mount disk v k = .ok (v', k')) :
    RootMounted v' k k' := by
  unfold vfs_kern_mount relisfs_root at h
  split at h
  · simp only [bind_ok] at h
    obtain ⟨⟨root, v1, k4⟩, ⟨⟨root', k1⟩, h1, ⟨d_inode, k2⟩, h2, ⟨disk_inode, k3⟩, h3, h4⟩, h⟩ := h
    cases h4
    cases h
    obtain ⟨rfl, heap_ptr1, rfl, hlt1⟩ := kmalloc_object_grows (by decide) h1
    obtain ⟨rfl, heap_ptr2, rfl, hlt2⟩ := kmalloc_object_grows (by decide) h2
    obtain ⟨rfl, heap_ptr3, rfl, hlt3⟩ := kmalloc_object_grows (by decide) h3
    have hlt := hlt1.trans (hlt2.trans hlt3)
    refine ⟨?_, ⟨⟨hlt.le, fun _ _ => ⟨rfl, rfl⟩⟩, fun _ => rfl⟩⟩
    rintro r ⟨⟩
    exact ⟨hlt, by simp, by simp⟩
  · cases h
    exact ⟨fun r hr => (by cases hr), .refl⟩

structure ProcMounted (v v' : Vfs) (k k' : Kernel) (proc_root : Nat) : Prop where
  children : ∃ cpuinfo, v'.dentry proc_root = ⟨ascii "proc", none, [cpuinfo]⟩ ∧ cpuinfo ≠ proc_root ∧
    k.heap_ptr.toNat < cpuinfo ∧ (v'.dentry cpuinfo).d_inode ≠ none ∧ (v'.dentry cpuinfo).d_children = []
  place : proc_root = k.heap_ptr.toNat
  old : ∀ d < k.heap_ptr.toNat, v'.dentry d = v.dentry d
  root : v'.root_dentry = v.root_dentry
  keeps : Keeps k k'

theorem proc_mount_spec {v' : Vfs} (h : proc_mount v k = .ok (proc_root, v', k')) :
    ProcMounted v v' k k' proc_root := by
  unfold proc_mount at h
  simp only [bind_ok] at h
  obtain ⟨⟨root, k1⟩, h1, ⟨cpuinfo, k2⟩, h2, ⟨d_inode, k3⟩, h3, h⟩ := h
  cases h
  obtain ⟨rfl, heap_ptr1, rfl, hlt⟩ := kmalloc_object_grows (by decide) h1
  obtain ⟨rfl, heap_ptr2, rfl, hlt2⟩ := kmalloc_object_grows (by decide) h2
  obtain ⟨rfl, heap_ptr3, rfl, hlt3⟩ := kmalloc_object_grows (by decide) h3
  refine ⟨⟨heap_ptr1.toNat, by simp, hlt.ne', hlt, ?_, ?_⟩, rfl, fun d hd => ?_, rfl,
    ⟨⟨(hlt.trans (hlt2.trans hlt3)).le, fun _ _ => ⟨rfl, rfl⟩⟩, fun _ => rfl⟩⟩
  · simp [hlt.ne']
  · simp [hlt.ne']
  · simp [hd.ne, (hd.trans hlt).ne]

theorem mount_all_spec {disk : Bool} (h : mount_all disk k = .ok (proc_root, v, k')) :
    OnlyProc v proc_root ∧ Keeps k k' := by
  unfold mount_all at h
  obtain ⟨⟨v1, k1⟩, h1, h⟩ := bind_ok.mp h
  obtain ⟨⟨proc, v2, k2⟩, h2, h⟩ := bind_ok.mp h
  have hroot := vfs_kern_mount_spec h1
  have hproc := proc_mount_spec h2
  obtain ⟨cpuinfo, hdentry, hne, hlt, hinode, hchildren⟩ := hproc.children
  have hkeeps := hroot.keeps.trans hproc.keeps
  simp only at h
  split at h
  next hnone =>
    cases h
    refine ⟨fun path d hd => ?_, hkeeps⟩
    -- there is no tree at all
    have hmem : d ∈ ([] : List Nat) := vfs_lookup_mem (by simp [Closed]) (by simp [hnone]) hd
    cases hmem
  next root hsome =>
    cases h
    refine ⟨fun path d hd => ?_, hkeeps⟩
    obtain ⟨hplace, hrinode, hrchildren⟩ := hroot.root root (hproc.root.symm.trans hsome)
    rw [← hproc.old root hplace] at hrinode hrchildren
    have hprocne : proc_root ≠ root := by
      rw [hproc.place]
      exact hplace.ne'
    have hcpune : cpuinfo ≠ root := (hplace.trans hlt).ne'
    have hmem := vfs_lookup_mem (S := [root, proc_root, cpuinfo]) ?_ (by simp [hsome]) hd
    · simp only [List.mem_cons, List.not_mem_nil, or_false] at hmem
      rcases hmem with rfl | rfl | rfl
      · simp [hrinode, hprocne.symm]
      · simp [hprocne, hdentry]
      · simp [hcpune, hinode, hne]
    · unfold Closed
      simp [hprocne, hcpune, hrchildren, hdentry, hchildren]

/-! ## New files -/

structure NewFile (proc_root : Nat) (k k' : Kernel) (f : Nat) : Prop extends Keeps k k' where
  good : Good proc_root k' f
  current : k'.current_task = k.current_task

theorem new_file {file : File} (hheap : k.heap_ptr.toNat < k'.heap_ptr.toNat)
    (hfile : k'.file = Function.update k.file k.heap_ptr.toNat file)
    (hinode : file.f_inode = none ↔ file.f_dentry = some proc_root) (htask : k'.task = k.task)
    (hcurrent : k'.current_task = k.current_task) : NewFile proc_root k k' k.heap_ptr.toNat := by
  refine ⟨⟨⟨hheap.le, fun g hg => ?_⟩, fun t => by rw [htask]⟩, ⟨hheap, ?_⟩, hcurrent⟩
  · rw [hfile, Function.update_of_ne hg.ne]
    exact ⟨rfl, rfl⟩
  · rw [hfile, Function.update_self]
    exact hinode

theorem vfs_open_new {path : CString} {r : Option Nat} (hv : OnlyProc v proc_root)
    (h : vfs_open v k path = .ok (r, k')) :
    (r = none ∧ k' = k) ∨ ∃ f, r = some f ∧ NewFile proc_root k k' f := by
  unfold vfs_open at h
  obtain ⟨d, hd, h⟩ := bind_ok.mp h
  cases d with
  | none =>
    cases h
    exact .inl ⟨rfl, rfl⟩
  | some d =>
    obtain ⟨⟨f', k1⟩, hk1, h⟩ := bind_ok.mp h
    cases h
    obtain ⟨rfl, heap_ptr, rfl, hlt⟩ := kmalloc_object_grows (by decide) hk1
    refine .inr ⟨_, rfl, new_file hlt rfl ?_ rfl rfl⟩
    rw [Option.some.injEq]
    exact hv path d hd

theorem pipe_end_new {p f : Nat} {fop : FileOperations} (h : pipe_end k p fop = .ok (f, k')) :
    NewFile proc_root k k' f := by
  unfold pipe_end at h
  obtain ⟨⟨f', k1⟩, h1, h⟩ := bind_ok.mp h
  obtain ⟨⟨inode, k2⟩, h2, h⟩ := bind_ok.mp h
  cases h
  obtain ⟨rfl, heap_ptr1, rfl, hlt1⟩ := kmalloc_object_grows (by decide) h1
  obtain ⟨rfl, heap_ptr2, rfl, hlt2⟩ := kmalloc_object_grows (by decide) h2
  exact new_file (hlt1.trans hlt2) rfl (by simp) rfl rfl

theorem Tidy.set_fd {p fd f : Nat} (h : Tidy proc_root k) (hf : Good proc_root k f) :
    Tidy proc_root
      (k.update_task p fun t => { t with files := Function.update t.files fd (some f) }) := by
  have hkeeps : KeepsFiles k
      (k.update_task p fun t => { t with files := Function.update t.files fd (some f) }) :=
    ⟨Nat.le_refl _, fun _ _ => ⟨rfl, rfl⟩⟩
  refine h.table hkeeps p (fun t ht => ?_) fun fd' f' hf' => ?_
  · rw [task_update, if_neg ht]
  · rw [task_update, if_pos rfl] at hf'
    simp only [Function.update_apply] at hf'
    split_ifs at hf' with hfd
    · cases hf'
      exact hf.keep hkeeps
    · exact (h p fd' f' hf').keep hkeeps

theorem setup_file_tidy {t fd : Nat} {fop : FileOperations} (h : Tidy proc_root k)
    (hk : setup_file k t fd fop = .ok k') : Tidy proc_root k' := by
  unfold setup_file at hk
  obtain ⟨⟨f, k1⟩, h1, hk⟩ := bind_ok.mp hk
  obtain ⟨⟨inode, k2⟩, h2, hk⟩ := bind_ok.mp hk
  cases hk
  obtain ⟨rfl, heap_ptr1, rfl, hlt1⟩ := kmalloc_object_grows (by decide) h1
  obtain ⟨rfl, heap_ptr2, rfl, hlt2⟩ := kmalloc_object_grows (by decide) h2
  generalize hk3 : ({ k with heap_ptr := heap_ptr2, inode := _, file := _ } : Kernel) = k3
  have hnew : NewFile proc_root k k3 k.heap_ptr.toNat := by
    rw [← hk3]
    exact new_file (hlt1.trans hlt2) rfl (by simp) rfl rfl
  exact (h.keep hnew.toKeeps).set_fd hnew.good

/-! ## Steps -/

theorem alloc_fd_tidy {f : Nat} (h : Tidy proc_root k) (hf : Good proc_root k f) (t : Nat) :
    Tidy proc_root (alloc_fd k t f).2 := by
  unfold alloc_fd
  split
  · exact h
  · exact h.set_fd hf

theorem pipe_fds_mem {read_end write_end fd f : Nat} {files : Nat → Option Nat} {rfd : Option Nat}
    {is : List Nat} (h : (pipe_fds read_end write_end files rfd is).1 fd = some f) :
    files fd = some f ∨ f = read_end ∨ f = write_end := by
  induction is generalizing files rfd with
  | nil => exact .inl h
  | cons i is ih =>
    unfold pipe_fds at h
    split at h
    · cases rfd with
      | none =>
        rcases ih h with hold | hends
        · rw [Function.update_apply] at hold
          split_ifs at hold with hfd
          · cases hold
            exact .inr (.inl rfl)
          · exact .inl hold
        · exact .inr hends
      | some r =>
        simp only [Function.update_apply] at h
        split_ifs at h with hfd
        · cases h
          exact .inr (.inr rfl)
        · exact .inl h
    · exact ih h

theorem sys_pipe_tidy {ret : Int} {fds : Option (Nat × Nat)} (h : Tidy proc_root k)
    (hk : sys_pipe k = .ok (ret, fds, k')) : Tidy proc_root k' := by
  unfold sys_pipe at hk
  obtain ⟨⟨p, k1⟩, h1, hk1⟩ := bind_ok.mp hk
  obtain ⟨⟨read_end, k2⟩, h2, hk2⟩ := bind_ok.mp hk1
  obtain ⟨⟨write_end, k3⟩, h3, hk3⟩ := bind_ok.mp hk2
  obtain ⟨-, heap_ptr, rfl, hptr⟩ := kmalloc_object_ok (by decide) h1
  have hread : NewFile proc_root _ k2 read_end := pipe_end_new h2
  have hwrite : NewFile proc_root k2 k3 write_end := pipe_end_new h3
  have h1 :
      Tidy proc_root
        { k with heap_ptr := heap_ptr, pipe := Function.update k.pipe p RelisPipe.zero } :=
    h.keep ⟨⟨by rw [hptr]; omega, fun _ _ => ⟨rfl, rfl⟩⟩, fun _ => rfl⟩
  have h3 : Tidy proc_root k3 := (h1.keep hread.toKeeps).keep hwrite.toKeeps
  have hk' : ∀ files, (∀ fd f, files fd = some f → Good proc_root k3 f) →
      Tidy proc_root (k3.update_task k3.current_task fun t => { t with files := files }) := by
    intro files hfiles
    refine h3.table ⟨Nat.le_refl _, fun _ _ => ⟨rfl, rfl⟩⟩ k3.current_task (fun t ht => ?_)
      fun fd f hf => ?_
    · rw [task_update, if_neg ht]
    · rw [task_update, if_pos rfl] at hf
      exact (hfiles fd f hf).keep ⟨Nat.le_refl _, fun _ _ => ⟨rfl, rfl⟩⟩
  have htable := hk'
      (pipe_fds read_end write_end (k3.task k3.current_task).files none (List.range MAX_FDS)).1 <| by
    intro fd f hf
    rcases pipe_fds_mem hf with hold | rfl | rfl
    · exact h3 _ fd f hold
    · exact hread.good.keep hwrite.toKeepsFiles
    · exact hwrite.good
  simp only at hk3
  split at hk3
  · cases hk3
    exact htable
  · cases hk3
    exact htable

theorem file_step_tidy {c : Registers × FileCall} (hv : OnlyProc v proc_root) (h : Tidy proc_root k)
    (hk : file_step o v k c = .ok k') : Tidy proc_root k' := by
  obtain ⟨regs, path | fd | -⟩ := c
  · rw [open_step] at hk
    cases hopen : vfs_open v k path with
    | error e =>
      rw [hopen] at hk
      cases hk
    | ok r =>
      obtain ⟨r, k1⟩ := r
      rw [hopen] at hk
      cases hk
      rcases vfs_open_new hv hopen with ⟨rfl, rfl⟩ | ⟨f, rfl, hnew⟩
      · exact h
      · exact alloc_fd_tidy (h.keep hnew.toKeeps) hnew.good _
  · rw [close_step] at hk
    cases hk
    split
    · exact h
    · refine h.table ⟨Nat.le_refl _, fun _ _ => ⟨rfl, rfl⟩⟩ k.current_task (fun t ht => ?_)
        fun fd' f hf => ?_
      · rw [task_update, if_neg ht]
      · rw [task_update, if_pos rfl] at hf
        simp only [Function.update_apply] at hf
        split_ifs at hf
        exact (h _ fd' f hf).keep ⟨Nat.le_refl _, fun _ _ => ⟨rfl, rfl⟩⟩
  · rw [pipe_step] at hk
    cases hpipe : sys_pipe k with
    | error e =>
      rw [hpipe] at hk
      cases hk
    | ok r =>
      rw [hpipe] at hk
      cases hk
      exact sys_pipe_tidy h hpipe

theorem Tidy.new_task {p : Nat} {t : Task} (h : Tidy proc_root k)
    (ht : ∀ fd f, t.files fd = some f → Good proc_root k f) : Tidy proc_root (k.new_task p t) := by
  refine h.table ⟨Nat.le_refl _, fun _ _ => ⟨rfl, rfl⟩⟩ p (fun q hq => ?_) fun fd f hf => ?_
  · rw [task_new, if_neg hq]
  · rw [task_new, if_pos rfl] at hf
    exact (ht fd f hf).keep ⟨Nat.le_refl _, fun _ _ => ⟨rfl, rfl⟩⟩

theorem kernel_thread_tidy {fn arg : BitVec 64} {policy : BitVec 32} {ret : Int}
    (h : Tidy proc_root k) (hk : kernel_thread k fn arg policy = .ok (ret, k')) :
    Tidy proc_root k' := by
  rcases kernel_thread_ok hk with ⟨-, rfl⟩ | ⟨heap_ptr, k1, k2, k3, hptr, hstdio, h2, h3, rfl⟩
  · exact h
  have hfill : Tidy proc_root { k with heap_ptr := heap_ptr, next_pid := Bytes.u32 (k.next_pid + 1) } :=
    h.keep ⟨⟨by rw [hptr]; omega, fun _ _ => ⟨rfl, rfl⟩⟩, fun _ => rfl⟩
  have hnew := hfill.new_task (p := k.heap_ptr.toNat)
    (t := new_thread k.heap_ptr.toNat k.next_pid k.mm.cr3 fn arg policy) fun fd f hf => by
      unfold new_thread at hf
      split_ifs at hf <;> cases hf
  have hfiles : Tidy proc_root k1 := by
    unfold task_setup_stdio at hstdio
    obtain ⟨k4, h4, hstdio⟩ := bind_ok.mp hstdio
    obtain ⟨k5, h5, hstdio⟩ := bind_ok.mp hstdio
    exact setup_file_tidy (setup_file_tidy (setup_file_tidy hnew h4) h5) hstdio
  have hlisted := (hfiles.keep (enqueue_task_keeps h2)).keep (list_add_keeps h3)
  exact hlisted.keep (.log _)

theorem sys_fork_tidy {regs : Registers} {ret : Int} (h : Tidy proc_root k)
    (hk : sys_fork k regs = .ok (ret, k')) : Tidy proc_root k' := by
  rcases sys_fork_ok hk with ⟨-, -, rfl⟩ | ⟨heap_ptr, cr3, mm, k2, k3, -, -, hptr, -, h2, h3, rfl⟩
  · exact h
  have hfill :
      Tidy proc_root
        { k with heap_ptr := heap_ptr, next_pid := Bytes.u32 (k.next_pid + 1), mm := mm } :=
    h.keep ⟨⟨by rw [hptr]; omega, fun _ _ => ⟨rfl, rfl⟩⟩, fun _ => rfl⟩
  -- the child has the table of its parent
  have hnew := hfill.new_task (p := k.heap_ptr.toNat)
    (t := fork_task (k.task k.current_task) k.heap_ptr.toNat k.next_pid cr3 regs) fun fd f hf =>
      hfill _ fd f hf
  have hinit := hnew.keep (.of_relinked (.of_core (core_relinks
    (init_list_head_spec _ (.se_run_node k.heap_ptr.toNat)).2.1)))
  have hlisted := (hinit.keep (enqueue_task_keeps h2)).keep (list_add_keeps h3)
  exact (hlisted.keep (.update rfl)).keep (.log _)

theorem schedule_keeps (hk : __schedule k = .ok k') : Keeps k k' := by
  unfold __schedule at hk
  obtain ⟨⟨next, k1⟩, hpick, hk⟩ := bind_ok.mp hk
  have hcore := (pick_next_task_links (P := fun _ => True) (fun _ _ => trivial)
    (fun _ _ _ => trivial) hpick).2.2
  have hkeeps : Keeps k k1 := .of_relinked (.of_core hcore)
  simp only at hk
  split at hk
  · cases hk
    exact hkeeps.trans ((Keeps.log _).trans (.update rfl))
  · split at hk
    · cases hk
      exact ⟨⟨hkeeps.heap, hkeeps.file⟩, hkeeps.files⟩
    · cases hk
      exact ⟨⟨hkeeps.heap, hkeeps.file⟩, hkeeps.files⟩

theorem init_list_head_keeps (k : Kernel) (g : ListNode) : Keeps k (INIT_LIST_HEAD k g) :=
  .of_relinked (.of_core (core_relinks (init_list_head_spec k g).2.1))

theorem sched_init_tidy {mm : Mm} {heap_ptr : BitVec 32}
    (h : sched_init (Kernel.boot mm heap_ptr) = .ok k) : Tidy proc_root k := by
  obtain ⟨k1, heap_ptr', hk1, hcore, hptr, h⟩ := sched_init_ok h
  have hboot : Tidy proc_root (Kernel.boot mm heap_ptr) := fun _ _ _ hf => nomatch hf
  have hheads :=
    ((hboot.keep (init_list_head_keeps _ .cfs_queue)).keep (init_list_head_keeps _ .rt_queue)).keep
    (init_list_head_keeps _ .global_tasks)
  rw [← hk1] at hheads
  have hfill : Tidy proc_root { k1 with
      nr_running := 0
      clock := 0
      heap_ptr := heap_ptr'
      current_task := heap_ptr.toNat } := by
    have hheap : k1.heap_ptr = heap_ptr := (congrArg Kernel.heap_ptr hcore :)
    exact hheads.keep ⟨⟨by rw [hheap, hptr]; omega, fun _ _ => ⟨rfl, rfl⟩⟩, fun _ => rfl⟩
  refine (hfill.new_task fun _ _ hf => ?_).keep (list_add_keeps h)
  cases hf

/-! ## Runs -/

/-- The kernels that a run gets to. The parts of the kernel that are no step here change no table
and no open file, other than its position. -/
inductive Reached (v : Vfs) (proc_root : Nat) : Kernel → Prop
  | mounted {mm : Mm} {heap_ptr : BitVec 32} {disk : Bool} {k0 k1 k : Kernel}
      (hinit : sched_init (Kernel.boot mm heap_ptr) = .ok k0) (hother : Keeps k0 k1)
      (hmount : mount_all disk k1 = .ok (proc_root, v, k)) : Reached v proc_root k
  | file_call {o : Outside} {c : Registers × FileCall} {k k' : Kernel} (h : Reached v proc_root k)
      (hk : file_step o v k c = .ok k') : Reached v proc_root k'
  | kernel_thread {fn arg : BitVec 64} {policy : BitVec 32} {ret : Int} {k k' : Kernel}
    (h : Reached v proc_root k)
      (hk : Code.kernel_thread k fn arg policy = .ok (ret, k')) : Reached v proc_root k'
  | sys_fork {regs : Registers} {ret : Int} {k k' : Kernel} (h : Reached v proc_root k)
      (hk : Code.sys_fork k regs = .ok (ret, k')) : Reached v proc_root k'
  | schedule {k k' : Kernel} (h : Reached v proc_root k) (hk : __schedule k = .ok k') :
    Reached v proc_root k'
  | other {k k' : Kernel} (h : Reached v proc_root k) (hk : Keeps k k') : Reached v proc_root k'

theorem Reached.only (h : Reached v proc_root k) : OnlyProc v proc_root := by
  induction h with
  | mounted hinit hother hmount => exact (mount_all_spec hmount).1
  | file_call h hk ih => exact ih
  | kernel_thread h hk ih => exact ih
  | sys_fork h hk ih => exact ih
  | schedule h hk ih => exact ih
  | other h hk ih => exact ih

theorem Reached.tidy (h : Reached v proc_root k) : Tidy proc_root k := by
  induction h with
  | mounted hinit hother hmount =>
    exact ((sched_init_tidy hinit).keep hother).keep (mount_all_spec hmount).2
  | file_call h hk ih => exact file_step_tidy h.only ih hk
  | kernel_thread h hk ih => exact kernel_thread_tidy ih hk
  | sys_fork h hk ih => exact sys_fork_tidy ih hk
  | schedule h hk ih => exact ih.keep (schedule_keeps hk)
  | other h hk ih => exact ih.keep hk

/-! ## The two ways to a method -/

def returned (r : Except Halt Dispatched) : Except Halt (Option (BitVec 64) × Kernel) :=
  r.map fun d => (d.regs.map Registers.rax, d.kernel)

/-- `SYS_READ` and `SYS_WRITE` on the descriptor in `rdi` give what `vfs_read` and `vfs_write` give
for its file. -/
def Agrees (o : Outside) (k : Kernel) (regs : Registers) : Prop :=
  let f := fd_file (k.task k.current_task) (to_int regs.rdi)
  returned (syscall_dispatch o k { regs with rax := SYS_READ }) =
      (vfs_read o k f regs.rsi regs.rdx).map (fun r => (some r.1, r.2)) ∧
    returned (syscall_dispatch o k { regs with rax := SYS_WRITE }) =
      (vfs_write o k f regs.rsi regs.rdx).map (fun r => (some r.1, r.2))

theorem returned_eq : returned (syscall_dispatch o k regs) =
    (syscall_switch o k regs).map fun r => (some r.2.1.rax, r.2.2) := by
  unfold returned
  rw [Syscall.syscall_dispatch_eq]
  cases syscall_switch o k regs with
  | error e => rfl
  | ok r => rfl

section
variable (regs : Registers) {f : Option Nat} (hf : fd_file (k.task k.current_task) (to_int regs.rdi) = f)
include hf

theorem file_case_method (has_method : FileOperations → Bool)
    (method : FileOperations → Kernel → Nat → BitVec 64 → BitVec 64 →
      Except Halt (BitVec 64 × Kernel)) (hinode : ∀ g, f = some g → (k.file g).f_inode ≠ none) :
    (file_case has_method method k regs).map (fun r => (some r.2.1.rax, r.2.2)) =
      (vfs_method has_method method k f regs.rsi regs.rdx).map (fun r => (some r.1, r.2)) := by
  unfold file_case vfs_method
  rw [hf]
  cases f with
  | none => rfl
  | some g =>
    cases hg : (k.file g).f_inode with
    | none => exact absurd hg (hinode g rfl)
    | some inode =>
      simp only [hg]
      cases (k.inode inode).i_fop with
      | none => rfl
      | some fop =>
        simp only
        split
        · cases method fop k g regs.rsi regs.rdx with
          | error e => rfl
          | ok r => rfl
        · rfl

theorem file_case_null (has_method : FileOperations → Bool)
    (method : FileOperations → Kernel → Nat → BitVec 64 → BitVec 64 →
      Except Halt (BitVec 64 × Kernel)) {g : Nat} (hg : f = some g)
    (hnull : (k.file g).f_inode = none) :
    file_case has_method method k regs = .error .null_inode ∧
      vfs_method has_method method k f regs.rsi regs.rdx = .ok (-1, k) := by
  unfold file_case vfs_method
  rw [hf, hg]
  simp only [hnull, and_self]

end

/-- In every kernel that a run gets to, the calls on a descriptor give what `vfs_read` and `vfs_write`
give, exactly when its file was not opened on the root of `proc`. -/
theorem calls_agree_iff (h : Reached v proc_root k) (o : Outside) (regs : Registers) :
    Agrees o k regs ↔ ∀ f, fd_file (k.task k.current_task) (to_int regs.rdi) = some f →
      (k.file f).f_dentry ≠ some proc_root := by
  have hgood : ∀ f, fd_file (k.task k.current_task) (to_int regs.rdi) = some f →
      ((k.file f).f_inode = none ↔ (k.file f).f_dentry = some proc_root) := by
    intro f hf
    unfold fd_file at hf
    split_ifs at hf
    exact (h.tidy _ _ f hf).inode
  unfold Agrees vfs_read vfs_write
  rw [returned_eq, returned_eq]
  change (file_case FileOperations.has_read o.read k { regs with rax := SYS_READ }).map _ = _ ∧
    (file_case FileOperations.has_write o.write k { regs with rax := SYS_WRITE }).map _ = _ ↔ _
  constructor
  · rintro ⟨hread, -⟩ f hf hproc
    obtain ⟨hnull, hvfs⟩ := file_case_null { regs with rax := SYS_READ } hf
      FileOperations.has_read o.read rfl
      ((hgood f hf).mpr hproc)
    rw [hnull, hf] at hread
    cases hread.trans (congrArg _ hvfs)
  · intro hproc
    have hinode : ∀ f, fd_file (k.task k.current_task) (to_int regs.rdi) = some f →
        (k.file f).f_inode ≠ none := fun f hf hnone => hproc f hf ((hgood f hf).mp hnone)
    exact ⟨file_case_method { regs with rax := SYS_READ } rfl _ _ hinode,
      file_case_method { regs with rax := SYS_WRITE } rfl _ _ hinode⟩

def proc_path : CString := ⟨ascii "/proc", by decide⟩

def cpuinfo_path : CString := ⟨ascii "/proc/cpuinfo", by decide⟩

def opened (path : CString) : Except Halt (Nat × Vfs × Kernel) := do
  let k0 ← sched_init (Kernel.boot bareMm 0)
  let (proc_root, v, k) ← mount_all true k0
  let k ← file_step Syscall.refusing v k (Syscall.callRegs 0 0 0, .open path)
  return (proc_root, v, k)

theorem opened_reached {path : CString} (h : opened path = .ok (proc_root, v, k)) :
    Reached v proc_root k := by
  unfold opened at h
  obtain ⟨k0, hk0, h⟩ := bind_ok.mp h
  obtain ⟨⟨proc_root, v, k1⟩, hmount, h⟩ := bind_ok.mp h
  obtain ⟨k2, hopen, h⟩ := bind_ok.mp h
  cases h
  exact .file_call (.mounted hk0 .refl hmount) hopen

theorem calls_agree_small :
    ∃ proc_root v k f, opened cpuinfo_path = .ok (proc_root, v, k) ∧
      fd_file (k.task k.current_task) 0 = some f ∧
      Agrees Syscall.refusing k (Syscall.callRegs 0 0 0) := by
  have hok : (opened cpuinfo_path).toOption.any fun r =>
      (fd_file (r.2.2.task r.2.2.current_task) 0).any fun f => (r.2.2.file f).f_dentry != some r.1 := by
    decide +kernel
  obtain ⟨⟨proc_root, v, k⟩, hopened, htest⟩ := exists_of_any hok
  cases hf : fd_file (k.task k.current_task) 0 with
  | none => simp [hf] at htest
  | some f =>
    simp only [hf, Option.any_some, bne_iff_ne] at htest
    refine ⟨proc_root, v, k, f, hopened, hf, (calls_agree_iff (opened_reached hopened) _ _).mpr ?_⟩
    intro g hg
    cases hf.symm.trans hg
    exact htest

/-- The first task opens `/proc` and reads from it. The dispatcher follows a null pointer, where
`vfs_read` gives `-1`. -/
theorem read_proc_null :
    ∃ proc_root v k f, opened proc_path = .ok (proc_root, v, k) ∧
      fd_file (k.task k.current_task) 0 = some f ∧
      syscall_dispatch Syscall.refusing k (Syscall.callRegs SYS_READ 0 0) = .error .null_inode ∧
      vfs_read Syscall.refusing k (some f) 0 0 = .ok (-1, k) := by
  have hok : (opened proc_path).toOption.any fun r =>
      (fd_file (r.2.2.task r.2.2.current_task) 0).any fun f => (r.2.2.file f).f_inode == none := by
    decide +kernel
  obtain ⟨⟨proc_root, v, k⟩, hopened, htest⟩ := exists_of_any hok
  cases hf : fd_file (k.task k.current_task) 0 with
  | none => simp [hf] at htest
  | some f =>
    simp only [hf, Option.any_some, beq_iff_eq] at htest
    obtain ⟨hnull, hvfs⟩ := file_case_null (Syscall.callRegs SYS_READ 0 0) hf FileOperations.has_read
      Syscall.refusing.read rfl htest
    refine ⟨proc_root, v, k, f, hopened, hf, ?_, hvfs⟩
    rw [Syscall.syscall_dispatch_eq]
    change (file_case _ _ _ _).map _ = _
    rw [hnull]
    rfl

end Relis.Files
