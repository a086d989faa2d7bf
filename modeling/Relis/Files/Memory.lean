import Relis.Code.Vfs
import Relis.Syscall

/-!
# The memory behind descriptors

An open takes 32 bytes of the heap and a pipe 4240, and `kfree` gives nothing back.
-/

open Relis.Code Relis.Run Relis.Slab

namespace Relis.Files

variable {o : Outside} {v : Vfs} {k k' : Kernel} {regs : Registers} {c : FileCall} {α β : Type}

/-! ## Code that takes memory -/

/-- Code that stores into objects up to `reach` bytes behind the heap's end, and takes `use` bytes
from it. It stores to null when the heap is too short. -/
def Takes (kernel : α → Kernel) (k : Kernel) (reach use : Nat) (r : Except Halt α) : Prop :=
  (4194304 < k.heap_ptr.toNat + reach ∧ r = .error .null_object) ∨
    (k.heap_ptr.toNat + reach ≤ 4194304 ∧ ∃ a, r = .ok a ∧
      (kernel a).heap_ptr.toNat = k.heap_ptr.toNat + use)

theorem kmalloc_object_takes (k : Kernel) (size : BitVec 64) (hsize : size.toNat < 4294967296) :
    Takes Prod.snd k size.toNat ((size.toNat + 15) / 16 * 16) (kmalloc_object k size) := by
  rcases kmalloc_object_room k size hsize with ⟨hk, hfull⟩ | ⟨heap_ptr, hk, hroom, hptr⟩
  · exact .inl ⟨hfull, hk⟩
  · exact .inr ⟨hroom, _, hk, hptr⟩

variable {kernel : α → Kernel} {kernel' : β → Kernel} {reach use : Nat} {x : Except Halt α}

theorem Takes.bind {f : α → Except Halt β} (hx : Takes kernel k reach use x) (reach' use' : Nat)
    (hf : ∀ a, Takes kernel' (kernel a) reach' use' (f a)) (hreach : reach ≤ use + reach') :
    Takes kernel' k (use + reach') (use + use') (x >>= f) := by
  rcases hx with ⟨hfull, rfl⟩ | ⟨hroom, a, rfl, ha⟩
  · exact .inl ⟨by omega, rfl⟩
  rcases hf a with ⟨hfull, hfa⟩ | ⟨hroom', b, hfa, hb⟩
  · exact .inl ⟨by omega, hfa⟩
  · exact .inr ⟨by omega, b, hfa, by omega⟩

theorem Takes.ends {f : α → Except Halt β} (hx : Takes kernel k reach use x)
    (hf : ∀ a, ∃ b, f a = .ok b ∧ (kernel' b).heap_ptr = (kernel a).heap_ptr) :
    Takes kernel' k reach use (x >>= f) := by
  rcases hx with ⟨hfull, rfl⟩ | ⟨hroom, a, rfl, ha⟩
  · exact .inl ⟨hfull, rfl⟩
  obtain ⟨b, hfa, hb⟩ := hf a
  exact .inr ⟨hroom, b, hfa, by rw [hb, ha]⟩

/-! ## The calls -/

theorem heap_alloc_fd (k : Kernel) (t f : Nat) : (alloc_fd k t f).2.heap_ptr = k.heap_ptr := by
  unfold alloc_fd
  split <;> rfl

theorem vfs_open_takes {path : CString} {d : Nat} (hd : vfs_lookup v path = .ok (some d)) :
    Takes Prod.snd k 24 32 (vfs_open v k path) := by
  unfold vfs_open
  rw [hd]
  exact (kmalloc_object_takes k sizeof_file (by decide)).ends fun a => ⟨_, rfl, rfl⟩

theorem pipe_end_takes (k : Kernel) (p : Nat) (fop : FileOperations) :
    Takes Prod.snd k 64 64 (pipe_end k p fop) := by
  unfold pipe_end
  refine (kmalloc_object_takes k sizeof_file (by decide)).bind 32 32 (fun a => ?_) (by decide)
  exact (kmalloc_object_takes a.2 sizeof_inode (by decide)).ends fun b => ⟨_, rfl, rfl⟩

theorem sys_pipe_takes (k : Kernel) : Takes (fun r => r.2.2) k 4240 4240 (sys_pipe k) := by
  unfold sys_pipe
  refine (kmalloc_object_takes k sizeof_relis_pipe (by decide)).bind 128 128 (fun a => ?_) (by decide)
  obtain ⟨p, k1⟩ := a
  change Takes _ { k1 with pipe := Function.update k1.pipe p RelisPipe.zero } 128 128 _
  refine (pipe_end_takes _ _ _).bind 64 64 (fun b => ?_) (by decide)
  refine (pipe_end_takes _ _ _).ends fun c => ?_
  obtain ⟨write_end, k'⟩ := c
  simp only
  split
  · exact ⟨_, rfl, rfl⟩
  · exact ⟨_, rfl, rfl⟩

/-! ## A call -/

def used : FileCall → Nat
  | .open _ => 32
  | .close _ => 0
  | .pipe => 4240

def Room (k : Kernel) : FileCall → Prop
  | .open _ => k.heap_ptr.toNat + 24 ≤ 4194304
  | .close _ => True
  | .pipe => k.heap_ptr.toNat + 4240 ≤ 4194304

def PathExists (v : Vfs) : FileCall → Prop
  | .open path => ∃ d, vfs_lookup v path = .ok (some d)
  | _ => True

def file_step (o : Outside) (v : Vfs) (k : Kernel) (c : Registers × FileCall) : Except Halt Kernel :=
  (c.2.dispatch o v c.1 k).map Dispatched.kernel

theorem open_step (path : CString) : file_step o v k (regs, .open path) =
    (vfs_open v k path).map fun r =>
      match r.1 with
      | none => r.2
      | some f => (alloc_fd r.2 k.current_task f).2 := by
  unfold file_step FileCall.dispatch
  simp only [Syscall.syscall_dispatch_eq]
  change (((open_case _ k _).map _).map _) = _
  unfold open_case
  simp only
  cases vfs_open v k path with
  | error e => rfl
  | ok r =>
    obtain ⟨f | f, k'⟩ := r
    · rfl
    · rfl

theorem close_step (fd : BitVec 64) : file_step o v k (regs, .close fd) = .ok
    (match fd_file (k.task k.current_task) (to_int fd) with
      | none => k
      | some _ => k.update_task k.current_task fun t => { t with
          files := Function.update t.files (to_int fd).toNat none }) := by
  unfold file_step FileCall.dispatch
  simp only [Syscall.syscall_dispatch_eq]
  change (((close_case k _).map _).map _) = _
  unfold close_case
  simp only
  cases fd_file (k.task k.current_task) (to_int fd) with
  | none => rfl
  | some f => rfl

theorem pipe_step : file_step o v k (regs, .pipe) = (sys_pipe k).map fun r => r.2.2 := by
  unfold file_step FileCall.dispatch
  simp only [Syscall.syscall_dispatch_eq]
  change ((((sys_pipe k) >>= _).map _).map _) = _
  cases sys_pipe k with
  | error e => rfl
  | ok r => rfl

theorem file_step_takes (c : Registers × FileCall) (hc : PathExists v c.2) :
    (¬ Room k c.2 ∧ file_step o v k c = .error .null_object) ∨
    (Room k c.2 ∧ ∃ k', file_step o v k c = .ok k' ∧
      k'.heap_ptr.toNat = k.heap_ptr.toNat + used c.2) := by
  obtain ⟨regs, path | fd | -⟩ := c
  · obtain ⟨d, hd⟩ := hc
    rw [open_step]
    rcases vfs_open_takes hd with ⟨hfull, h⟩ | ⟨hroom, ⟨f, k'⟩, h, hk'⟩
    · rw [h]
      exact .inl ⟨Nat.not_le.mpr hfull, rfl⟩
    · rw [h]
      refine .inr ⟨hroom, _, rfl, ?_⟩
      cases f with
      | none => exact hk'
      | some f =>
        simp only [heap_alloc_fd]
        exact hk'
  · rw [close_step]
    refine .inr ⟨trivial, _, rfl, ?_⟩
    split
    · rfl
    · rfl
  · rw [pipe_step]
    rcases sys_pipe_takes k with ⟨hfull, h⟩ | ⟨hroom, r, h, hr⟩
    · rw [h]
      exact .inl ⟨Nat.not_le.mpr hfull, rfl⟩
    · rw [h]
      exact .inr ⟨hroom, _, rfl, hr⟩

/-! ## Runs of calls -/

theorem file_run_error {calls : List (Registers × FileCall)}
    (hpaths : ∀ c ∈ calls, PathExists v c.2) {e : Halt}
    (hrun : run (file_step o v) k calls = .error e) : e = .null_object := by
  refine run_error (· = .null_object) (fun c hc k e he => ?_) hrun
  rcases file_step_takes (k := k) (o := o) c (hpaths c hc) with ⟨-, h⟩ | ⟨-, k', h, -⟩
  · cases h.symm.trans he
    rfl
  · cases h.symm.trans he

/-- No call of a run stores to null exactly when each of them finds room in the heap that the calls
before it have left. -/
theorem objects_from_kmalloc_iff (calls : List (Registers × FileCall))
    (hpaths : ∀ c ∈ calls, PathExists v c.2) :
    run (file_step o v) k calls ≠ .error .null_object ↔
      ∀ before c after k', calls = before ++ c :: after → run (file_step o v) k before = .ok k' →
        Room k' c.2 := by
  have hends : run (file_step o v) k calls ≠ .error .null_object ↔
      ∃ k', run (file_step o v) k calls = .ok k' := by
    cases hrun : run (file_step o v) k calls with
    | ok k' => simp
    | error e => simp [file_run_error hpaths hrun]
  rw [hends, run_ok_iff]
  constructor
  · intro hall before c after k' hcalls hrun
    obtain ⟨k'', hstep⟩ := hall before c after k' hcalls hrun
    rcases file_step_takes (k := k') (o := o) c (hpaths c (by simp [hcalls])) with ⟨-, h⟩ | ⟨hroom, -⟩
    · cases h.symm.trans hstep
    · exact hroom
  · intro hall before c after k' hcalls hrun
    rcases file_step_takes (k := k') (o := o) c (hpaths c (by simp [hcalls])) with
      ⟨hfull, -⟩ | ⟨-, k'', h, -⟩
    · exact absurd (hall before c after k' hcalls hrun) hfull
    · exact ⟨k'', h⟩

theorem small_mount : ∃ k0 proc_root v k root, sched_init (Kernel.boot Sched.bareMm 0) = .ok k0 ∧
    mount_all true k0 = .ok (proc_root, v, k) ∧ v.root_dentry = some root ∧
      k.heap_ptr.toNat ≤ 4194304 := by
  have hok : (sched_init (Kernel.boot Sched.bareMm 0) >>= mount_all true).toOption.any fun r =>
      r.2.1.root_dentry.isSome && decide (r.2.2.heap_ptr.toNat ≤ 4194304) := by
    decide +kernel
  obtain ⟨⟨proc_root, v, k⟩, hmount, htest⟩ := exists_of_any hok
  obtain ⟨k0, hk0, hmount⟩ := bind_ok.mp hmount
  simp only [Bool.and_eq_true, Option.isSome_iff_exists, decide_eq_true_eq] at htest
  obtain ⟨⟨root, hroot⟩, hheap⟩ := htest
  exact ⟨k0, proc_root, v, k, root, hk0, hmount, hroot, hheap⟩

def slash : CString := ⟨ascii "/", by decide⟩

theorem lookup_slash {root : Nat} (hroot : v.root_dentry = some root) :
    vfs_lookup v slash = .ok (some root) := by
  unfold vfs_lookup
  rw [hroot]
  rfl

def open_close : List (Registers × FileCall) :=
  [(Syscall.callRegs 0 0 0, .open slash), (Syscall.callRegs 0 0 0, .close 0)]

theorem open_close_paths {root : Nat} (hroot : v.root_dentry = some root) (n : Nat) :
    ∀ c ∈ (List.replicate n open_close).flatten, PathExists v c.2 := by
  intro c hc
  obtain ⟨l, hl, hc⟩ := List.mem_flatten.mp hc
  rw [List.eq_of_mem_replicate hl] at hc
  simp only [open_close, List.mem_cons, List.not_mem_nil, or_false] at hc
  rcases hc with rfl | rfl
  · exact ⟨root, lookup_slash hroot⟩
  · trivial

theorem objects_from_kmalloc_small :
    ∃ v k k', run (file_step Syscall.refusing v) k open_close = .ok k' ∧
      run (file_step Syscall.refusing v) k (open_close ++ open_close) ≠ .error .null_object ∧
      Room k' (.open slash) := by
  obtain ⟨k0, proc_root, v, k, root, hk0, hmount, hroot, -⟩ := small_mount
  have hok : (sched_init (Kernel.boot Sched.bareMm 0) >>= mount_all true >>= fun r =>
      run (file_step Syscall.refusing r.2.1) r.2.2 open_close >>= fun k' =>
      run (file_step Syscall.refusing r.2.1) r.2.2 (open_close ++ open_close)).toOption.any
        fun _ => true := by
    decide +kernel
  obtain ⟨k2, h2, -⟩ := exists_of_any hok
  rw [hk0] at h2
  simp only [bind_ok, Except.ok.injEq, exists_eq_left', hmount] at h2
  obtain ⟨k', h1, h2⟩ := h2
  have hok : run (file_step Syscall.refusing v) k (open_close ++ open_close) ≠ .error .null_object := by
    simp [h2]
  exact ⟨v, k, k', h1, hok, (objects_from_kmalloc_iff _ (open_close_paths hroot 2)).mp hok
    open_close _ _ k' rfl h1⟩

/-! ## The end of the heap -/

theorem heap_run {calls : List (Registers × FileCall)} (hpaths : ∀ c ∈ calls, PathExists v c.2)
    (hrun : run (file_step o v) k calls = .ok k') :
    k'.heap_ptr.toNat = k.heap_ptr.toNat + (calls.map fun c => used c.2).sum := by
  induction calls generalizing k with
  | nil =>
    cases hrun
    rfl
  | cons c calls ih =>
    obtain ⟨k1, h1, hrun⟩ := bind_ok.mp hrun
    rcases file_step_takes (k := k) (o := o) c (hpaths c List.mem_cons_self) with
      ⟨-, h⟩ | ⟨-, k2, h, hheap⟩
    · cases h.symm.trans h1
    · cases h.symm.trans h1
      rw [ih (fun c hc => hpaths c (List.mem_cons_of_mem _ hc)) hrun, hheap, List.map_cons,
        List.sum_cons]
      omega

theorem heap_bounded {calls : List (Registers × FileCall)} (hpaths : ∀ c ∈ calls, PathExists v c.2)
    (hk : k.heap_ptr.toNat ≤ 4194319) (hrun : run (file_step o v) k calls = .ok k') :
    k'.heap_ptr.toNat ≤ 4194319 := by
  refine run_inv (fun k => k.heap_ptr.toNat ≤ 4194319) (fun c hc k k' hk hstep => ?_) hk hrun
  rcases file_step_takes (k := k) (o := o) c (hpaths c hc) with ⟨-, h⟩ | ⟨hroom, k2, h, hheap⟩
  · cases h.symm.trans hstep
  cases h.symm.trans hstep
  obtain ⟨regs, path | fd | -⟩ := c <;> simp only [Room, used] at hroom hheap <;> omega

/-- Whoever opens and closes the root often enough gets a file at null. -/
theorem open_close_exhausts :
    ∃ k0 proc_root v k, sched_init (Kernel.boot Sched.bareMm 0) = .ok k0 ∧
      mount_all true k0 = .ok (proc_root, v, k) ∧
      (∀ c ∈ (List.replicate 131073 open_close).flatten, PathExists v c.2) ∧
      run (file_step Syscall.refusing v) k (List.replicate 131073 open_close).flatten =
        .error .null_object := by
  obtain ⟨k0, proc_root, v, k, root, hk0, hmount, hroot, hheap⟩ := small_mount
  have hpaths := open_close_paths hroot 131073
  refine ⟨k0, proc_root, v, k, hk0, hmount, hpaths, ?_⟩
  generalize hcalls : (List.replicate 131073 open_close).flatten = calls at hpaths ⊢
  have hsum : (calls.map fun c => used c.2).sum = 131073 * 32 := by
    rw [← hcalls, List.map_flatten, List.sum_flatten, List.map_replicate, List.map_replicate,
      List.sum_replicate]
    rfl
  cases hrun : run (file_step Syscall.refusing v) k calls with
  | ok k' =>
    have hused := heap_run hpaths hrun
    have hbounded := heap_bounded hpaths (by omega) hrun
    omega
  | error e => rw [file_run_error hpaths hrun]

end Relis.Files
