import Relis.Vmalloc.Count

/-!
# The range of addresses for `vmalloc`

The next address only grows, and nothing compares it with `VMALLOC_END`. So what counts is
the sum of all requests since boot.
-/

open Relis.Bytes Relis.Run Relis.Code Relis.PageAlloc Relis.Paging Relis.Lists Relis.Slab

namespace Relis.Vmalloc

variable {k k' : Vm} {size ptr : BitVec 64} {n : Nat}

/-! ## The next address -/

theorem vmalloc_page_ptr (h : vmalloc_page k = .ok k') : k'.vmalloc_ptr = k.vmalloc_ptr + 4096 := by
  unfold vmalloc_page at h
  obtain ⟨⟨phys, mm1⟩, -, h⟩ := bind_ok.mp h
  obtain ⟨mm2, -, h⟩ := bind_ok.mp h
  cases h
  rfl

theorem vmalloc_loop_ptr {count : Nat} (hptr : k.vmalloc_ptr = windowPage n)
    (h : loop 0 count (fun _ k => vmalloc_page k) k = .ok k') :
    k'.vmalloc_ptr = windowPage (n + count) := by
  have hinv := loop_inv (fun i k => k.vmalloc_ptr = windowPage (n + i))
    (fun i k k' _ _ hk hbody => ?_) hptr h
  · rwa [Nat.zero_add] at hinv
  · rw [vmalloc_page_ptr hbody, hk, windowPage_succ]
    rfl

theorem list_add_ptr {a b : VmNode} (h : list_add k a b = .ok k') : k'.vmalloc_ptr = k.vmalloc_ptr :=
  (sameBut_of_relinks
    (list_add_links (P := fun _ => True) (fun _ _ _ => trivial) trivial trivial h).2).vmalloc_ptr

theorem list_del_ptr {a : VmNode} (h : list_del k a = .ok k') : k'.vmalloc_ptr = k.vmalloc_ptr :=
  (sameBut_of_relinks (list_del_links (P := fun _ => True) (fun _ _ _ => trivial) h).2).vmalloc_ptr

theorem vmalloc_ptr_spec (hsize : size ≠ 0) (hptr : k.vmalloc_ptr = windowPage n)
    (h : vmalloc k size = .ok (ptr, k')) :
    ptr = windowPage n ∧ k'.vmalloc_ptr = windowPage (n + pages_needed size) := by
  unfold vmalloc at h
  rw [if_neg hsize] at h
  obtain ⟨k1, hloop, h⟩ := bind_ok.mp h
  have hptr1 := vmalloc_loop_ptr hptr hloop
  dsimp only at h
  split at h
  · cases h
    exact ⟨hptr, hptr1⟩
  · obtain ⟨k2, hadd, h⟩ := bind_ok.mp h
    cases h
    exact ⟨hptr, (list_add_ptr hadd).trans hptr1⟩

theorem vfree_ptr_spec (h : vfree k ptr = .ok k') : k'.vmalloc_ptr = k.vmalloc_ptr := by
  unfold vfree at h
  split_ifs at h
  · cases h
    rfl
  · obtain ⟨found, -, h⟩ := bind_ok.mp h
    cases found with
    | none =>
      cases h
      rfl
    | some entry =>
      have hdel := list_del_ptr h
      exact hdel

/-! ## Runs -/

structure Given where
  vm : Vm
  ranges : List (BitVec 64 × BitVec 64)

def Given.step (g : Given) : VmOp → Except Halt Given
  | .vmalloc size => do
    let (ptr, k) ← Code.vmalloc g.vm size
    return ⟨k, if ptr = 0 then g.ranges else (ptr, size) :: g.ranges⟩
  | .vfree ptr => do
    let k ← Code.vfree g.vm ptr
    return { g with vm := k }

def InBounds (x : BitVec 64 × BitVec 64) : Prop :=
  VMALLOC_START.toNat ≤ x.1.toNat ∧ x.1.toNat + x.2.toNat ≤ VMALLOC_END.toNat

def requestedPages : List VmOp → Nat
  | [] => 0
  | .vmalloc size :: ops => pageCount size + requestedPages ops
  | .vfree _ :: ops => requestedPages ops

theorem inBounds_iff (hn : n ≤ 262144) :
    InBounds (windowPage n, size) ↔ n + pageCount size ≤ 262144 := by
  have hstart : VMALLOC_START.toNat = 0xFFFFC90000000000 := rfl
  have hend : VMALLOC_END.toNat = 0xFFFFC90040000000 := rfl
  unfold InBounds pageCount
  dsimp only
  rw [toNat_windowPage (by unfold windowPages; omega), hstart, hend]
  omega

theorem small_size (h : n + pageCount size ≤ 262144) : pages_needed size = pageCount size := by
  apply pages_needed_eq
  unfold pageCount at h
  omega

theorem ranges_kept {ops : List VmOp} {g g' : Given} {x : BitVec 64 × BitVec 64} (hx : x ∈ g.ranges)
    (hrun : run Given.step g ops = .ok g') : x ∈ g'.ranges := by
  refine run_inv (fun g => x ∈ g.ranges) ?_ hx hrun
  intro op _ g g' hg hstep
  cases op with
  | vfree ptr =>
    obtain ⟨k, -, hstep⟩ := bind_ok.mp hstep
    cases hstep
    exact hg
  | vmalloc size =>
    obtain ⟨⟨ptr, k⟩, -, hstep⟩ := bind_ok.mp hstep
    cases hstep
    dsimp only
    split_ifs
    · exact hg
    · exact List.mem_cons_of_mem _ hg

theorem ranges_iff {ops : List VmOp} {g g' : Given} (hn : n ≤ 262144)
    (hptr : g.vm.vmalloc_ptr = windowPage n) (hrun : run Given.step g ops = .ok g') :
    (∀ x ∈ g'.ranges, InBounds x) ↔ (∀ x ∈ g.ranges, InBounds x) ∧
      n + requestedPages ops ≤ 262144 := by
  induction ops generalizing g n with
  | nil =>
    cases hrun
    exact ⟨fun h => ⟨h, hn⟩, And.left⟩
  | cons op ops ih =>
    rw [run_cons, bind_ok] at hrun
    obtain ⟨g1, hstep, hrun⟩ := hrun
    cases op with
    | vfree ptr =>
      obtain ⟨k, hfree, hstep⟩ := bind_ok.mp hstep
      cases hstep
      have hptr1 := (vfree_ptr_spec hfree).trans hptr
      exact ih (g := { g with vm := k }) hn hptr1 hrun
    | vmalloc size =>
      obtain ⟨⟨ptr, k⟩, hv, hstep⟩ := bind_ok.mp hstep
      cases hstep
      by_cases hsize : size = 0
      · -- a request for nothing returns null
        subst hsize
        cases hv
        have hzero : requestedPages (.vmalloc 0 :: ops) = requestedPages ops := Nat.zero_add _
        rw [hzero]
        exact ih hn hptr hrun
      · obtain ⟨rfl, hptr1⟩ := vmalloc_ptr_spec hsize hptr hv
        have hne : windowPage n ≠ 0 := windowPage_ne_zero (by unfold windowPages; omega)
        rw [if_neg hne] at hrun
        have hsum : n + requestedPages (.vmalloc size :: ops) =
            n + pageCount size + requestedPages ops := (Nat.add_assoc _ _ _).symm
        rw [hsum]
        by_cases hfit : n + pageCount size ≤ 262144
        · rw [small_size hfit] at hptr1
          rw [ih hfit hptr1 hrun, List.forall_mem_cons]
          have hin : InBounds (windowPage n, size) := (inBounds_iff hn).mpr hfit
          tauto
        · -- the range of this request is in the list at the end
          refine iff_of_false (fun h => ?_) (by omega)
          have hmem := ranges_kept (x := (windowPage n, size)) List.mem_cons_self hrun
          exact hfit ((inBounds_iff hn).mp (h _ hmem))

/-- The ranges of a run stay in the window as long as all requests together take no more than its
262144 pages. -/
theorem vmalloc_ranges_iff {mm : Mm} {heap_ptr : BitVec 32} {ops : List VmOp} {g : Given}
    (hrun : run Given.step ⟨Vm.start mm heap_ptr, []⟩ ops = .ok g) :
    (∀ x ∈ g.ranges, InBounds x) ↔ requestedPages ops ≤ 262144 := by
  have hstart : (Vm.start mm heap_ptr).vmalloc_ptr = windowPage 0 :=
    show VMALLOC_START = windowPage 0 by decide
  rw [ranges_iff (by omega) hstart hrun, Nat.zero_add]
  simp

/-! ## A run that leaves the window -/

structure Idle (k : Vm) (r : BitVec 64) (c m : Nat) : Prop where
  mapping : Mapping SmallPath k.mm r (512 * c) []
  records : Records k []
  current_pgd : k.mm.current_pgd = some r
  vmalloc_ptr : k.vmalloc_ptr = windowPage (512 * c)
  pool : Pool m k.mm

theorem Idle.round {r : BitVec 64} {c m : Nat} (h : Idle k r c (m + 515))
    (hc : 512 * (c + 1) ≤ windowPages) (hheap : k.heap_ptr.toNat + 32 ≤ 4194304) :
    ∃ k1 k2, vmalloc k 0x200000 = .ok (windowPage (512 * c), k1) ∧
      vfree k1 (windowPage (512 * c)) = .ok k2 ∧
      Idle k2 r (c + 1) (m + 512) ∧ k2.heap_ptr.toNat = k.heap_ptr.toNat + 32 := by
  have hpages : pages_needed 0x200000 = 512 := by decide
  obtain ⟨k0, hloop, hheap0, hvm0, hlist0, hpool0⟩ :=
    vmalloc_block_pool h.mapping hc h.current_pgd h.vmalloc_ptr h.pool
  rw [← hpages] at hloop
  obtain ⟨ptr, k1, hv, hmm⟩ := vmalloc_of_loop (by decide) hloop
    (h.records.of_same hlist0 hvm0 hheap0) h.vmalloc_ptr
  obtain ⟨rfl, a, hlen, hvm⟩ := vmalloc_spec h.mapping h.records (.inl h.current_pgd)
    (currentUsed_of_forest h.mapping.tables h.current_pgd) h.vmalloc_ptr (by rw [hpages]; omega)
      (by decide) hv
  rw [hpages] at hlen
  have hstop : a.stop = 512 * (c + 1) := by rw [Area.stop, hvm.first, hlen, Nat.mul_add_one]
  obtain ⟨hfull, -⟩ | ⟨-, hheap1, hrec⟩ := hvm.records
  · omega
  have hfound : findArea [a] (windowPage (512 * c)) = some a := by simp [findArea, hvm.first]
  have hne : windowPage (512 * c) ≠ 0 := windowPage_ne_zero (by omega)
  obtain ⟨A, B, k2, hsplit, -, -, hfree, hrec2, hmm2, hheap2, hptr2⟩ := vfree_some hrec
    (fun b hb => hvm.mapping.length_le hb) hne hfound
  obtain ⟨rfl, rfl⟩ : A = [] ∧ B = [] := by
    have := congrArg List.length hsplit
    simp only [List.length_append, List.length_cons, List.length_nil] at this
    exact ⟨List.length_eq_zero_iff.mp (by omega), List.length_eq_zero_iff.mp (by omega)⟩
  have hpgd1 := hvm.grown.only.current_pgd.trans h.current_pgd
  have hret := hvm.mapping.returned List.mem_cons_self (.inl hpgd1) (hstop ▸ hc) le_rfl
  rw [← hmm2] at hret
  have hmap2 := Mapping.remove (A := []) (B := []) hvm.mapping (hstop ▸ hc) hret
  rw [hstop] at hmap2
  refine ⟨k1, k2, hv, hfree,
    ⟨hmap2, hrec2, hret.current_pgd.trans hpgd1, ?_, ?_⟩, by rw [hheap2, hheap1]⟩
  · rw [hptr2, hvm.vmalloc_ptr, hstop]
  · have hinv : Inv k2.mm.pmm := by
      rw [hmm2]
      exact vfree_pages_inv (hmm ▸ hpool0.inv) _ _
    apply Pool.of_card hinv
    rw [hret.free_card hvm.mapping List.mem_cons_self, hlen, hmm]
    have := hpool0.card
    omega

def rounds : Nat → List VmOp
  | 0 => []
  | c + 1 => rounds c ++ [.vmalloc 0x200000, .vfree (windowPage (512 * c))]

theorem requestedPages_append (ops ops' : List VmOp) :
    requestedPages (ops ++ ops') = requestedPages ops + requestedPages ops' := by
  induction ops with
  | nil => exact (Nat.zero_add _).symm
  | cons op ops ih =>
    cases op with
    | vmalloc size => simp only [List.cons_append, requestedPages, ih, Nat.add_assoc]
    | vfree ptr => simpa only [List.cons_append, requestedPages] using ih

theorem requestedPages_rounds (c : Nat) : requestedPages (rounds c) = 512 * c := by
  induction c with
  | zero => rfl
  | succ c ih =>
    rw [rounds, requestedPages_append, ih, Nat.mul_add_one]
    rfl

theorem run_rounds {k : Vm} {r : BitVec 64} (h : Idle k r 0 65018) (hheap : k.heap_ptr = 0)
    {c : Nat} (hc : c ≤ 513) :
    ∃ g, run Given.step ⟨k, []⟩ (rounds c) = .ok g ∧ Idle g.vm r c (65018 - 3 * c) ∧
      g.vm.heap_ptr.toNat = 32 * c := by
  induction c with
  | zero => exact ⟨_, rfl, h, by rw [hheap]; rfl⟩
  | succ c ih =>
    obtain ⟨g, hrun, hidle, hptr⟩ := ih (by omega)
    have hsplit : 65018 - 3 * c = 64503 - 3 * c + 515 := by omega
    rw [hsplit] at hidle
    obtain ⟨k1, k2, hv, hfree, hidle2, hptr2⟩ := hidle.round (by unfold windowPages; omega) (by omega)
    rw [show 64503 - 3 * c + 512 = 65018 - 3 * (c + 1) by omega] at hidle2
    obtain ⟨ranges, hstep⟩ : ∃ ranges, Given.step g (.vmalloc 0x200000) = .ok ⟨k1, ranges⟩ :=
      ⟨_, bind_ok.mpr ⟨_, hv, rfl⟩⟩
    refine ⟨⟨k2, ranges⟩, ?_, hidle2, by dsimp only; omega⟩
    rw [rounds, run_append, bind_ok]
    exact ⟨g, hrun, bind_ok.mpr ⟨_, hstep, bind_ok.mpr ⟨_, bind_ok.mpr ⟨_, hfree, rfl⟩, rfl⟩⟩⟩

theorem small_idle :
    ∃ mm, arch_paging_init (start_mm 0x110000 (fun _ => 0) 0xFFFFFFFF80200000) = .ok mm ∧
    Idle (Vm.start mm 0) 0x110000 0 65018 := by
  obtain ⟨mm, hinit, hpool⟩ := arch_paging_init_pool (n := 65018) small_pool
  have hstart := holds_start (booted small_layout hinit).1 0
  exact ⟨mm, hinit, hstart.mapping, hstart.records, hstart.current_pgd, hstart.vmalloc_ptr, hpool⟩

/-- The first two megabytes. -/
theorem vmalloc_ranges_small :
    ∃ mm g, arch_paging_init (start_mm 0x110000 (fun _ => 0) 0xFFFFFFFF80200000) = .ok mm ∧
    run Given.step ⟨Vm.start mm 0, []⟩ (rounds 1) = .ok g ∧ ∀ x ∈ g.ranges, InBounds x := by
  obtain ⟨mm, hinit, hidle⟩ := small_idle
  obtain ⟨g, hrun, -⟩ := run_rounds hidle rfl (by omega : 1 ≤ 513)
  refine ⟨mm, g, hinit, hrun, (vmalloc_ranges_iff hrun).mpr ?_⟩
  rw [requestedPages_rounds]
  omega

/-- With one range of two megabytes at a time, the range of the 513th begins at the end of the
window. -/
theorem vmalloc_leaves_window :
    ∃ mm g, arch_paging_init (start_mm 0x110000 (fun _ => 0) 0xFFFFFFFF80200000) = .ok mm ∧
    run Given.step ⟨Vm.start mm 0, []⟩ (rounds 513) = .ok g ∧ ¬ ∀ x ∈ g.ranges, InBounds x := by
  obtain ⟨mm, hinit, hidle⟩ := small_idle
  obtain ⟨g, hrun, -⟩ := run_rounds hidle rfl (le_refl 513)
  refine ⟨mm, g, hinit, hrun, fun hall => ?_⟩
  rw [ranges_iff (Nat.zero_le _) hidle.vmalloc_ptr hrun, requestedPages_rounds] at hall
  omega

end Relis.Vmalloc
