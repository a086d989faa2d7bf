import Relis.Files.Path
import Relis.Files.Memory
import Relis.Pipe

/-!
# Descriptor tables

`SYS_OPEN` takes one slot of the table and `SYS_PIPE` takes two in one pass over it.
-/

open Relis.Code Relis.Run Relis.Slab Relis.Pipe

namespace Relis.Files

variable {o : Outside} {v : Vfs} {k k' : Kernel} {regs : Registers} {files files' : Nat → Option Nat}
  {fd r w : Nat} {path : CString}

/-! ## The lowest empty slot -/

structure Lowest (files : Nat → Option Nat) (fd : Nat) : Prop where
  lt : fd < MAX_FDS
  empty : files fd = none
  below : ∀ j < fd, files j ≠ none

def Full (files : Nat → Option Nat) : Prop := ∀ fd < MAX_FDS, files fd ≠ none

def lowest (files : Nat → Option Nat) : Option Nat :=
  (List.range MAX_FDS).find? fun i => (files i).isNone

theorem lowest_eq_some : lowest files = some fd ↔ Lowest files fd := by
  simp only [lowest, List.find?_range_eq_some, Option.isNone_iff_eq_none, List.mem_range,
    Option.not_isNone, Option.isSome_iff_ne_none]
  exact ⟨fun ⟨hempty, hlt, hbelow⟩ => ⟨hlt, hempty, hbelow⟩,
    fun ⟨hlt, hempty, hbelow⟩ => ⟨hempty, hlt, hbelow⟩⟩

theorem lowest_eq_none : lowest files = none ↔ Full files := by
  simp [lowest, Full]

theorem lowest_cases (files : Nat → Option Nat) :
    (Full files ∧ lowest files = none) ∨ ∃ fd, Lowest files fd ∧ lowest files = some fd := by
  cases h : lowest files with
  | none => exact .inl ⟨lowest_eq_none.mp h, rfl⟩
  | some fd => exact .inr ⟨fd, lowest_eq_some.mp h, rfl⟩

theorem alloc_fd_cases (k : Kernel) (t f : Nat) :
    (Full (k.task t).files ∧ alloc_fd k t f = (-1, k)) ∨
    ∃ fd : Nat, Lowest (k.task t).files fd ∧ alloc_fd k t f =
      ((fd : Int),
        k.update_task t fun t => { t with files := Function.update t.files fd (some f) }) := by
  unfold alloc_fd
  rcases lowest_cases (k.task t).files with ⟨hfull, h⟩ | ⟨fd, hfd, h⟩
  · rw [lowest] at h
    exact .inl ⟨hfull, by rw [h]⟩
  · rw [lowest] at h
    exact .inr ⟨fd, hfd, by rw [h]⟩

/-! ## The loop of `sys_pipe` -/

theorem pipe_fds_some (is : List Nat) (a : Nat) : pipe_fds r w files (some a) is =
    match is.find? fun i => (files i).isNone with
    | none => (files, some a, none)
    | some i => (Function.update files i (some w), some a, some i) := by
  induction is with
  | nil => rfl
  | cons i is ih =>
    rw [pipe_fds, List.find?_cons]
    cases hi : files i with
    | none => simp
    | some f => simpa using ih

theorem pipe_fds_none (is : List Nat) : pipe_fds r w files none is =
    match is.find? fun i => (files i).isNone with
    | none => (files, none, none)
    | some i => pipe_fds r w (Function.update files i (some r)) (some i) is := by
  induction is with
  | nil => rfl
  | cons i is ih =>
    rw [pipe_fds, List.find?_cons]
    cases hi : files i with
    | none => simp [pipe_fds]
    | some f =>
      simp only [reduceCtorEq, if_false, Option.isNone_some, ih]
      cases is.find? fun i => (files i).isNone with
      | none => rfl
      | some j =>
        have hi' : Function.update files j (some r) i ≠ none := by
          rw [Function.update_apply]
          split_ifs <;> simp [hi]
        simp [pipe_fds, hi']

theorem pipe_fds_range : pipe_fds r w files none (List.range MAX_FDS) =
    match lowest files with
    | none => (files, none, none)
    | some i =>
      match lowest (Function.update files i (some r)) with
      | none => (Function.update files i (some r), some i, none)
      | some j => (Function.update (Function.update files i (some r)) j (some w),
        some i, some j) := by
  rw [pipe_fds_none]
  simp only [pipe_fds_some]
  rfl

/-! ## The tables after a call -/

def tables (k : Kernel) (t : Nat) : Nat → Option Nat := (k.task t).files

def TableSet (k k' : Kernel) (files : Nat → Option Nat) : Prop :=
  tables k' = Function.update (tables k) k.current_task files

theorem tables_update (p : Nat) (g : Task → Task) :
    tables (k.update_task p g) = Function.update (tables k) p (g (k.task p)).files := by
  funext t
  by_cases ht : t = p
  · subst ht
    simp [tables, Kernel.update_task]
  · simp [tables, Kernel.update_task, ht]

theorem tables_congr (h : k'.task = k.task) : tables k' = tables k := by
  funext t
  rw [tables, h, tables]

def New (k : Kernel) (p : Nat) : Prop := k.heap_ptr.toNat ≤ p

structure OpenLaw (v : Vfs) (path : CString) (k k' : Kernel) (rax : BitVec 64) : Prop where
  failed : rax = -1 → tables k' = tables k
  opened : rax ≠ -1 → ∃ fd f d, rax = BitVec.ofNat 64 fd ∧ Lowest (tables k k.current_task) fd ∧
    vfs_lookup v path = .ok (some d) ∧ New k f ∧ k'.file f = ⟨some d, (v.dentry d).d_inode, 0⟩ ∧
    TableSet k k' (Function.update (tables k k.current_task) fd (some f))

def EndOf (k : Kernel) (p f : Nat) (fop : FileOperations) : Prop :=
  ∃ i, (k.file f).f_inode = some i ∧ k.inode i = ⟨some p, some fop⟩

structure PipeLaw (k k' : Kernel) (rax : BitVec 64) (fds : Option (Nat × Nat)) : Prop where
  failed : rax = -1 → tables k' = tables k
  opened : rax ≠ -1 → ∃ rfd wfd r w p, fds = some (rfd, wfd) ∧ Lowest (tables k k.current_task) rfd ∧
    Lowest (Function.update (tables k k.current_task) rfd (some r)) wfd ∧ rfd < wfd ∧
    New k r ∧ New k w ∧ New k p ∧ EndOf k' p r .pipe_read_fops ∧ EndOf k' p w .pipe_write_fops ∧
    k'.pipe p = RelisPipe.zero ∧
    TableSet k k' (Function.update (Function.update (tables k k.current_task) rfd (some r)) wfd (some w))

/-- The law for a call. A close is no part of it. -/
def FdLaw (v : Vfs) (k k' : Kernel) (rax : BitVec 64) : FileCall → Prop
  | .open path => OpenLaw v path k k' rax
  | .pipe => ∃ ret fds, sys_pipe k = .ok (ret, fds, k') ∧ PipeLaw k k' rax fds
  | .close _ => True

/-! ## `SYS_OPEN` -/

theorem fd_ne_neg_one (h : fd < MAX_FDS) : BitVec.ofNat 64 fd ≠ -1 := by
  intro heq
  have := congrArg BitVec.toNat heq
  simp [MAX_FDS] at this h
  omega

theorem alloc_fd_law {d f : Nat} {k1 : Kernel} (hlookup : vfs_lookup v path = .ok (some d))
    (hnew : New k f) (hfile : k1.file f = ⟨some d, (v.dentry d).d_inode, 0⟩)
    (htask : k1.task = k.task) :
    OpenLaw v path k (alloc_fd k1 k.current_task f).2
      (BitVec.ofInt 64 (alloc_fd k1 k.current_task f).1) := by
  rcases alloc_fd_cases k1 k.current_task f with ⟨-, h⟩ | ⟨fd, hfd, h⟩
  · rw [h]
    exact ⟨fun _ => tables_congr htask, fun hne => absurd rfl hne⟩
  · rw [h]
    have hrax : BitVec.ofInt 64 (fd : Int) = BitVec.ofNat 64 fd := BitVec.ofInt_natCast ..
    have hfiles : (k1.task k.current_task).files = tables k k.current_task := by rw [htask, tables]
    rw [hfiles] at hfd
    refine ⟨fun heq => absurd (hrax.symm.trans heq) (fd_ne_neg_one hfd.lt), fun _ => ?_⟩
    refine ⟨fd, f, d, hrax, hfd, hlookup, hnew, hfile, ?_⟩
    rw [TableSet, tables_update, tables_congr htask, hfiles]

theorem open_law {d : Dispatched} (h : (FileCall.open path).dispatch o v regs k = .ok d) :
    ∃ regs', d.regs = some regs' ∧ OpenLaw v path k d.kernel regs'.rax := by
  unfold FileCall.dispatch at h
  simp only [Syscall.syscall_dispatch_eq] at h
  change (open_case _ k _).map _ = _ at h
  unfold open_case vfs_open at h
  simp only at h
  cases hlookup : vfs_lookup v path with
  | error e =>
    rw [hlookup] at h
    cases h
  | ok r =>
    cases r with
    | none =>
      rw [hlookup] at h
      cases h
      exact ⟨_, rfl, fun _ => rfl, fun hne => absurd rfl hne⟩
    | some e =>
      rw [hlookup] at h
      cases hmem : kmalloc_object k sizeof_file with
      | error e =>
        rw [hmem] at h
        cases h
      | ok r =>
        obtain ⟨f, k1⟩ := r
        rw [hmem] at h
        cases h
        obtain ⟨rfl, heap_ptr, rfl, -⟩ := kmalloc_object_ok (by decide) hmem
        refine ⟨_, rfl, ?_⟩
        exact alloc_fd_law hlookup (Nat.le_refl _) (Function.update_self ..) rfl

/-! ## `SYS_PIPE` -/

theorem pipe_end_at {p f : Nat} {fop : FileOperations} (h : pipe_end k p fop = .ok (f, k')) :
    f = k.heap_ptr.toNat ∧ k.heap_ptr.toNat ≤ k'.heap_ptr.toNat ∧
      k'.current_task = k.current_task := by
  unfold pipe_end at h
  obtain ⟨⟨f', k1⟩, h1, h⟩ := bind_ok.mp h
  obtain ⟨⟨inode, k2⟩, h2, h⟩ := bind_ok.mp h
  cases h
  obtain ⟨rfl, heap_ptr1, rfl, hptr1⟩ := kmalloc_object_ok (by decide) h1
  obtain ⟨rfl, heap_ptr2, rfl, hptr2⟩ := kmalloc_object_ok (by decide) h2
  refine ⟨rfl, ?_, rfl⟩
  change k.heap_ptr.toNat ≤ heap_ptr2.toNat
  rw [hptr2]
  change k.heap_ptr.toNat ≤ heap_ptr1.toNat + _
  omega

structure Made (k k' : Kernel) (p r w : Nat) : Prop where
  new : New k r ∧ New k w ∧ New k p
  read_end : EndOf k' p r .pipe_read_fops
  write_end : EndOf k' p w .pipe_write_fops
  empty : k'.pipe p = RelisPipe.zero
  task : k'.task = k.task
  current : k'.current_task = k.current_task

theorem sys_pipe_made {ret : Int} {fds : Option (Nat × Nat)} (h : sys_pipe k = .ok (ret, fds, k')) :
    ∃ p r w k1, Made k k1 p r w ∧
      let x := pipe_fds r w (tables k k.current_task) none (List.range MAX_FDS)
      k' = k1.update_task k.current_task (fun t => { t with files := x.1 }) ∧
      (ret, fds) = match x.2 with
        | (some rfd, some wfd) => (0, some (rfd, wfd))
        | _ => (-1, none) := by
  unfold sys_pipe at h
  obtain ⟨⟨p, k1⟩, h1, hk1⟩ := bind_ok.mp h
  obtain ⟨⟨r, k2⟩, h2, hk2⟩ := bind_ok.mp hk1
  obtain ⟨⟨w, k3⟩, h3, hk3⟩ := bind_ok.mp hk2
  obtain ⟨rfl, heap_ptr, rfl, hptr⟩ := kmalloc_object_ok (by decide) h1
  have hread := pipe_end_spec h2
  have hwrite := pipe_end_spec h3
  obtain ⟨hr, hle2, hcurrent2⟩ := pipe_end_at h2
  obtain ⟨hw, hle3, hcurrent3⟩ := pipe_end_at h3
  obtain ⟨i, hi, hfile, hinode⟩ := hread.inode
  obtain ⟨j, -, hfile', hinode'⟩ := hwrite.inode
  have hheap : k.heap_ptr.toNat ≤ heap_ptr.toNat := by omega
  change r = heap_ptr.toNat at hr
  change heap_ptr.toNat ≤ k2.heap_ptr.toNat at hle2
  have hmade : Made k k3 k.heap_ptr.toNat r w := by
    refine ⟨⟨?_, ?_, Nat.le_refl _⟩, ⟨i, ?_, ?_⟩, ⟨j, hfile', hinode'⟩, ?_, ?_, ?_⟩
    · rwa [New, hr]
    · rw [New, hw]
      exact hheap.trans hle2
    · rw [(hwrite.old _ hread.inside).1, hfile]
    · rw [(hwrite.old _ hi).2, hinode]
    · rw [hwrite.pipe, hread.pipe]
      exact Function.update_self ..
    · rw [hwrite.task, hread.task]
    · rw [hcurrent3, hcurrent2]
  refine ⟨_, r, w, k3, hmade, ?_⟩
  have hfiles : (k3.task k3.current_task).files = tables k k.current_task := by
    rw [hmade.task, hmade.current, tables]
  dsimp only at hk3
  rw [hfiles, hmade.current] at hk3
  generalize pipe_fds r w (tables k k.current_task) none (List.range MAX_FDS) = x at hk3 ⊢
  obtain ⟨files, rfd, wfd⟩ := x
  cases rfd <;> cases wfd <;> cases hk3 <;> exact ⟨rfl, rfl⟩

def OneEmpty (files : Nat → Option Nat) : Prop := ∃! fd, fd < MAX_FDS ∧ files fd = none

theorem oneEmpty_iff (hfd : Lowest files fd) :
    OneEmpty files ↔ Full (Function.update files fd (some r)) := by
  constructor
  · intro hone j hj
    by_cases hjfd : j = fd
    · simp [hjfd]
    · rw [Function.update_of_ne hjfd]
      exact fun hempty => hjfd (hone.unique ⟨hj, hempty⟩ ⟨hfd.lt, hfd.empty⟩)
  · intro hfull
    refine ⟨fd, ⟨hfd.lt, hfd.empty⟩, fun j ⟨hj, hempty⟩ => ?_⟩
    by_contra hjfd
    have := hfull j hj
    rw [Function.update_of_ne hjfd] at this
    exact this hempty

theorem not_oneEmpty_of_full (hfull : Full files) : ¬ OneEmpty files := by
  rintro ⟨fd, ⟨hlt, hempty⟩, -⟩
  exact hfull fd hlt hempty

theorem Lowest.lt_second {rfd wfd : Nat} (h1 : Lowest files rfd)
    (h2 : Lowest (Function.update files rfd (some r)) wfd) : rfd < wfd := by
  have hne : wfd ≠ rfd := by
    rintro rfl
    have := h2.empty
    rw [Function.update_self] at this
    cases this
  have hempty : files wfd = none := by
    rw [← Function.update_of_ne hne (some r) files]
    exact h2.empty
  by_contra hle
  exact h1.below wfd (by omega) hempty

theorem Made.tables_update {p : Nat} {k1 : Kernel} (h : Made k k1 p r w) (files : Nat → Option Nat) :
    tables (k1.update_task k.current_task fun t => { t with files := files }) =
      Function.update (tables k) k.current_task files := by
  rw [Files.tables_update, tables_congr h.task]

theorem pipe_law_iff {ret : Int} {fds : Option (Nat × Nat)} (h : sys_pipe k = .ok (ret, fds, k')) :
    PipeLaw k k' (BitVec.ofInt 64 ret) fds ↔ ¬ OneEmpty (tables k k.current_task) := by
  obtain ⟨p, r, w, k1, hmade, hk', hret⟩ := sys_pipe_made h
  rw [pipe_fds_range] at hk' hret
  rcases lowest_cases (tables k k.current_task) with ⟨hfull, hnone⟩ | ⟨rfd, hrfd, hsome⟩
  · -- no slot: the table is stored as it was
    rw [hnone] at hk' hret
    cases hret
    refine iff_of_true ⟨fun _ => ?_, fun hne => absurd rfl hne⟩ (not_oneEmpty_of_full hfull)
    rw [hk', hmade.tables_update, Function.update_eq_self]
  · rw [hsome] at hk' hret
    rcases lowest_cases (Function.update (tables k k.current_task) rfd (some r)) with
      ⟨hfull, hnone⟩ | ⟨wfd, hwfd, hsome'⟩
    · -- one slot: it keeps the file of the read end
      simp only [hnone] at hk' hret
      cases hret
      refine iff_of_false (fun hlaw => ?_) (not_not.mpr ((oneEmpty_iff hrfd).mpr hfull))
      have hsame := congrFun (congrFun (hlaw.failed rfl) k.current_task) rfd
      rw [hk', hmade.tables_update, Function.update_self, Function.update_self, hrfd.empty] at hsame
      cases hsame
    · simp only [hsome'] at hk' hret
      cases hret
      have hone : ¬ OneEmpty (tables k k.current_task) := by
        rw [oneEmpty_iff (r := r) hrfd]
        exact fun hfull => hfull wfd hwfd.lt hwfd.empty
      refine iff_of_true ⟨fun heq => absurd heq (by decide), fun _ => ?_⟩ hone
      obtain ⟨hr, hw, hp⟩ := hmade.new
      rw [hk']
      exact ⟨rfd, wfd, r, w, p, rfl, hrfd, hwfd, hrfd.lt_second hwfd, hr, hw, hp, hmade.read_end,
        hmade.write_end, hmade.empty, hmade.tables_update _⟩

theorem pipe_dispatch {d : Dispatched} (h : FileCall.pipe.dispatch o v regs k = .ok d) :
    ∃ ret fds regs', sys_pipe k = .ok (ret, fds, d.kernel) ∧ d.regs = some regs' ∧
      regs'.rax = BitVec.ofInt 64 ret := by
  unfold FileCall.dispatch at h
  simp only [Syscall.syscall_dispatch_eq] at h
  change (sys_pipe k >>= _).map _ = _ at h
  cases hpipe : sys_pipe k with
  | error e =>
    rw [hpipe] at h
    cases h
  | ok r =>
    obtain ⟨ret, fds, k'⟩ := r
    rw [hpipe] at h
    cases h
    exact ⟨ret, fds, _, rfl, rfl, rfl⟩

/-- For every table and every call that comes back. The law of the call holds exactly when it is not a
`SYS_PIPE` on a table with one empty slot. -/
theorem fdLaw_iff (c : FileCall) {d : Dispatched} (h : c.dispatch o v regs k = .ok d) :
    (∃ regs', d.regs = some regs' ∧ FdLaw v k d.kernel regs'.rax c) ↔
      ¬ (c = .pipe ∧ OneEmpty (tables k k.current_task)) := by
  cases c with
  | «open» path => exact iff_of_true (open_law h) (by simp)
  | close fd => exact iff_of_true ⟨_, (Syscall.syscall_dispatch_spec h).2.1, trivial⟩ (by simp)
  | pipe =>
    obtain ⟨ret, fds, regs', hpipe, hregs, hrax⟩ := pipe_dispatch h
    rw [hregs]
    simp only [Option.some.injEq, exists_eq_left', FdLaw, hrax, true_and]
    rw [← pipe_law_iff hpipe]
    constructor
    · rintro ⟨ret', fds', hpipe', hlaw⟩
      cases hpipe.symm.trans hpipe'
      exact hlaw
    · intro hlaw
      exact ⟨ret, fds, hpipe, hlaw⟩

def taken (n : Nat) : Except Halt Kernel := do
  let k ← sched_init (Kernel.boot Sched.bareMm 0)
  return k.update_task k.current_task fun t =>
    { t with files := fun fd => if fd < n then some 0 else none }

theorem taken_tables {n : Nat} (h : taken n = .ok k) :
    tables k k.current_task = fun fd => if fd < n then some 0 else none := by
  obtain ⟨k0, -, h⟩ := bind_ok.mp h
  cases h
  rw [tables_update]
  exact Function.update_self ..

/-- With two empty slots the pipe gets both. -/
theorem fdLaw_two_empty : ∃ k d regs', taken 30 = .ok k ∧
    FileCall.pipe.dispatch Syscall.refusing smallVfs (Syscall.callRegs 0 0 0) k = .ok d ∧
    d.regs = some regs' ∧ FdLaw smallVfs k d.kernel regs'.rax .pipe := by
  have hok : (taken 30 >>= fun k =>
      FileCall.pipe.dispatch Syscall.refusing smallVfs (Syscall.callRegs 0 0 0) k).toOption.any
        fun _ => true := by
    decide +kernel
  obtain ⟨d, hd, -⟩ := exists_of_any hok
  obtain ⟨k, hk, hd⟩ := bind_ok.mp hd
  have hone : ¬ (FileCall.pipe = .pipe ∧ OneEmpty (tables k k.current_task)) := by
    rintro ⟨-, hone⟩
    rw [taken_tables hk] at hone
    have heq : (30 : Nat) = 31 := hone.unique (by decide) (by decide)
    omega
  obtain ⟨regs', hregs, hlaw⟩ := (fdLaw_iff .pipe hd).mpr hone
  exact ⟨k, d, regs', hk, hd, hregs, hlaw⟩

/-- With one empty slot the pipe fails and leaves its read end there. -/
theorem pipe_leaves_read_end : ∃ k k', taken 31 = .ok k ∧ sys_pipe k = .ok (-1, none, k') ∧
    tables k k.current_task 31 = none ∧ tables k' k.current_task 31 ≠ none := by
  have hok : (taken 31 >>= fun k => sys_pipe k >>= fun r => pure (k, r)).toOption.any fun x =>
      x.2.1 = -1 && x.2.2.1.isNone && (tables x.2.2.2 x.1.current_task 31).isSome := by
    decide +kernel
  obtain ⟨⟨k, ret, fds, k'⟩, hrun, htest⟩ := exists_of_any hok
  obtain ⟨k0, hk, hrun⟩ := bind_ok.mp hrun
  obtain ⟨r, hpipe, hr⟩ := bind_ok.mp hrun
  cases hr
  simp only [Bool.and_eq_true, decide_eq_true_eq, Option.isNone_iff_eq_none] at htest
  obtain ⟨⟨rfl, rfl⟩, hsome⟩ := htest
  refine ⟨k, k', hk, hpipe, by rw [taken_tables hk]; rfl, Option.isSome_iff_ne_none.mp hsome⟩

end Relis.Files
