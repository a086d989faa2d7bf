import Relis.Paging.Boot
import Relis.Paging.Refine
import Relis.Vmalloc.Areas

/-!
# Runs of `vmalloc` and `vfree`

From the boot tables and the two windows on, every page of a live area has a frame of its
own.
-/

open Relis.Bytes Relis.Run Relis.Code Relis.PageAlloc Relis.Paging Relis.Slab

namespace Relis.Vmalloc

variable {s s' : Mm} {r : BitVec 64} {n : Nat} {size v : BitVec 64} {k : Vm} {i : Nat}

/-! ## The whole address space -/

theorem pathOf_head? (v : BitVec 64) (n : Nat) : (pathOf v (n + 1)).head? = some (pgd_index v) := by
  simp [pathOf, List.range_succ_eq_map, indexOf]

instance : WindowKind SmallPath where
  window n hn := by
    have hfirst := pgd_index_window hn
    unfold windowPages at hn
    have hlen : ∀ {l : List Nat} {i : Nat}, i :: l <+: pathOf (windowPage n) 4 →
        i = pgd_index (windowPage n) := by
      rintro l i ⟨t, ht⟩
      have hhead := congrArg List.head? ht
      rw [pathOf_head?] at hhead
      simpa using hhead
    refine ⟨?_, ?_, fun j => ⟨?_, ?_⟩⟩
    · intro j hj
      obtain ⟨d, -, rfl⟩ := List.mem_map.mp hj
      exact indexOf_lt _ d
    · intro h
      have := hlen h
      omega
    · intro h
      have := hlen h
      omega
    · intro h
      have := hlen h
      omega

theorem huge_way (h : ¬ SmallPath (pathOf v 4)) :
    SmallPath (pathOf v 2) ∧ ¬ SmallPath (pathOf v 3) ∧
      (pgd_index v = 0 ∨ pgd_index v = 511 ∨ pgd_index v = 256) := by
  have htwo : SmallPath (pathOf v 2) := by
    have hshort : ∀ {a b c : Nat}, ¬ [a, b, c] <+: pathOf v 2 := by
      intro a b c hpre
      have := hpre.length_le
      simp at this
    refine ⟨fun j hj => ?_, hshort, fun j => ⟨hshort, hshort⟩⟩
    obtain ⟨d, -, rfl⟩ := List.mem_map.mp hj
    exact indexOf_lt _ d
  have hthree : ¬ SmallPath (pathOf v 3) := by
    intro hsmall
    rw [pathOf_four] at h
    have hlen : (pathOf v 3).length = 2 := by
      rcases hugePath_cases hsmall (indexOf_lt _ _) h with ⟨h, -⟩ | h | h <;> rw [h] <;> rfl
    simp at hlen
  refine ⟨htwo, hthree, ?_⟩
  rw [pathOf_succ] at hthree
  have hpath : pathOf v 2 = [pgd_index v, pud_index v] := rfl
  rcases hugePath_cases htwo (indexOf_lt _ _) hthree with ⟨h, -⟩ | h | h
  · rw [hpath] at h
    exact .inl (List.cons.inj h).1
  · rw [hpath] at h
    exact .inr (.inl (List.cons.inj h).1)
  · rw [hpath] at h
    exact .inr (.inr (List.cons.inj h).1)

theorem SlotsOff.outside {pages : Nat → Prop} {q : List Nat} {j x : Nat}
    (h : SlotsOff SmallPath s s' r pages) (hq : SmallPath q) (hn : q.length ≤ 3) (hj : j < 512)
    (hx : (q ++ [j]).head? = some x) (hout : x < 402 ∨ 511 ≤ x) :
    slot s'.mem r q j = slot s.mem r q j := by
  apply h q j hq hn hj
  intro k hk _ heq
  rw [heq, pathOf_head?, Option.some.injEq, pgd_index_window hk] at hx
  unfold windowPages at hk
  omega

theorem closed_of_slots {pages : Nat → Prop} (hc : Closed s.mem r)
    (h : SlotsOff SmallPath s s' r pages) : Closed s'.mem r := by
  intro p i hp hi hnot
  rw [← hc p i hp hi hnot, node_of_slot, node_of_slot]
  rcases hugePath_cases hp hi hnot with ⟨rfl, -⟩ | rfl | rfl
  · rw [h.outside (x := 0) hp (by simp) hi rfl (by omega)]
  · rw [h.outside (x := 511) hp (by simp) hi rfl (by omega)]
  · rw [h.outside (x := 256) hp (by simp) hi rfl (by omega)]

theorem translate_off {pages : Nat → Prop} (hT : Forest SmallPath s {r})
    (hT' : Forest SmallPath s' {r}) (hc : Closed s.mem r) (h : SlotsOff SmallPath s s' r pages)
    (hoff : ∀ n < windowPages, pages n → pathOf v 4 ≠ pathOf (windowPage n) 4) :
    translate s'.mem r v = translate s.mem r v := by
  by_cases hv : SmallPath (pathOf v 4)
  · rw [hT.translate_eq rfl hv, hT'.translate_eq rfl hv]
    have hleaf := h.leaf hv hoff
    unfold leaf at hleaf
    rw [hleaf]
  · obtain ⟨htwo, hthree, hfirst⟩ := huge_way hv
    apply translate_congr
    intro n hn
    rcases Nat.lt_or_ge n 3 with hlt | hge
    · have hpre : SmallPath (pathOf v n) := by
        apply PathKind.of_prefix _ (pathOf v 2) _ htwo
        unfold pathOf
        rw [show 2 = n + (2 - n) by omega, List.range_add, List.map_append]
        exact List.prefix_append _ _
      apply h.outside (x := pgd_index v) hpre (by simp; omega) (indexOf_lt _ _) _ (by omega)
      rw [← pathOf_succ, pathOf_head?]
    · -- There is no table below the huge page.
      obtain rfl : n = 3 := by omega
      rw [pathOf_succ] at hthree
      rw [pathOf_succ, slot_of_none (hc _ _ htwo (indexOf_lt _ _) hthree),
        slot_of_none (closed_of_slots hc h _ _ htwo (indexOf_lt _ _) hthree)]

/-! ## The start -/

structure Booted (s : Mm) (r : BitVec 64) : Prop where
  tables : Forest SmallPath s {r}
  closed : Closed s.mem r
  current_pgd : s.current_pgd = some r
  cr3 : s.cr3 = r

def apicFlags : BitVec 64 := PTE_WRITABLE ||| PTE_PCD ||| PTE_GLOBAL

theorem arch_paging_init_spec {V : List Nat → Prop} [WindowKind V] (hT : Forest V s {r})
    (hcr3 : s.cr3 = r) (haddr : pte_addr r = r) (h : arch_paging_init s = .ok s') :
    Forest V s' {r} ∧ Grown V (reroot r s) s' r (· < 2) ∧
      leaf s'.mem r LAPIC_VADDR = pageEntry LAPIC_BASE_PHYS apicFlags ∧
      leaf s'.mem r IOAPIC_VADDR = pageEntry IOAPIC_BASE_PHYS apicFlags := by
  have hstart : ({ s with current_pgd := some (pte_addr s.cr3) } : Mm) = reroot r s := by
    unfold reroot
    rw [hcr3, haddr]
  unfold arch_paging_init at h
  obtain ⟨s1, h1, h2⟩ := bind_ok.mp h
  rw [hstart] at h1
  rw [show LAPIC_VADDR = windowPage 0 by decide] at h1 ⊢
  rw [show IOAPIC_VADDR = windowPage 1 by decide] at h2 ⊢
  obtain ⟨hT1, hleaf1, hg1⟩ := map_window_root (forest_reroot hT r) rfl (by decide) (by decide) h1
  obtain ⟨hT2, hleaf2, hg2⟩ := map_window_root hT1 hg1.only.current_pgd (by decide) (by decide) h2
  refine ⟨hT2, (hg1.mono (by omega)).trans (hg2.mono (by omega)), ?_, hleaf2⟩
  rw [hg2.slots.window (by decide) (by omega)]
  exact hleaf1

theorem booted {p4 kernel_end : BitVec 64} {m : Mem} (h : Layout p4 m kernel_end)
    (hinit : arch_paging_init (start_mm p4 m kernel_end) = .ok s) :
    Booted s p4 ∧ leaf s.mem p4 LAPIC_VADDR = pageEntry LAPIC_BASE_PHYS apicFlags ∧
      leaf s.mem p4 IOAPIC_VADDR = pageEntry IOAPIC_BASE_PHYS apicFlags := by
  have haddr := h.addr_table (n := 0) (by omega)
  rw [boot_table_zero] at haddr
  obtain ⟨hT, hg, hleaves⟩ := arch_paging_init_spec h.forest (start_mm_cr3 _ _ _) haddr hinit
  have hc : Closed (reroot p4 (start_mm p4 m kernel_end)).mem p4 := by
    rw [reroot_mem]
    exact h.closed
  exact ⟨⟨hT, closed_of_slots hc hg.slots, hg.only.current_pgd.trans (reroot_pgd _ _),
    hg.only.cr3.trans ((reroot_cr3 _ _).trans (start_mm_cr3 _ _ _))⟩, hleaves⟩

/-! ## Runs -/

/-- The state of a run, with the pointers that are not freed yet and their numbers of pages, and the
pointers that were freed. -/
structure Traced where
  vm : Vm
  live : List (BitVec 64 × Nat)
  freed : List (BitVec 64)

inductive VmOp
  | vmalloc (size : BitVec 64)
  | vfree (ptr : BitVec 64)

def pageCount (size : BitVec 64) : Nat := (size.toNat + 4095) / 4096

def heapSuffices (k : Vm) (size : BitVec 64) : Bool :=
  size == 0 || (kmalloc k.heap_ptr sizeof_vm_struct).1.isSome

/-- Sizes are below 2^44 - 4096, and the heap suffices. -/
def VmOp.step (t : Traced) : VmOp → Except Halt Traced
  | .vmalloc size =>
    if size.toNat < 0x100000000000 - 4096 ∧ heapSuffices t.vm size then do
      let (ptr, k) ← Code.vmalloc t.vm size
      return ⟨k, if size = 0 then t.live else (ptr, pageCount size) :: t.live, t.freed⟩
    else .error .null_object
  | .vfree ptr => do
    let k ← Code.vfree t.vm ptr
    return ⟨k, t.live.filter (·.1 ≠ ptr), (t.live.filter (·.1 = ptr)).map (·.1) ++ t.freed⟩

def Area.range (a : Area) : BitVec 64 × Nat := (windowPage a.first, a.frames.length)

/-- The live pointers are those of the areas. The heap bounds the pages that were ever given out. -/
structure Holds (t : Traced) (r : BitVec 64) (n : Nat) (areas : List Area) : Prop where
  mapping : Mapping SmallPath t.vm.mm r n areas
  closed : Closed t.vm.mm.mem r
  records : Records t.vm areas
  current_pgd : t.vm.mm.current_pgd = some r
  vmalloc_ptr : t.vm.vmalloc_ptr = windowPage n
  heap : n ≤ 2048 * t.vm.heap_ptr.toNat
  bound : n ≤ 8589934592
  pos : ∀ a ∈ areas, 0 < a.frames.length
  live : t.live = areas.map Area.range
  freed : ∀ p ∈ t.freed, (∃ k < n, p = windowPage k) ∧ ∀ a ∈ areas, windowPage a.first ≠ p

variable {t t' : Traced} {areas : List Area} {a : Area}

theorem pages_needed_eq (h : size.toNat ≤ 0x100000000000 - 4096) :
    pages_needed size = pageCount size := by
  unfold pages_needed pageCount u32
  rw [BitVec.toNat_udiv, BitVec.toNat_add, show (4095 : BitVec 64).toNat = 4095 from rfl,
    show (4096 : BitVec 64).toNat = 4096 from rfl]
  omega

theorem heapSuffices_iff (hsize : size ≠ 0) :
    heapSuffices k size = true ↔ k.heap_ptr.toNat + 32 ≤ 4194304 := by
  have hsz : sizeof_vm_struct.toNat = 32 := rfl
  have hne : (size == 0) = false := beq_eq_false_iff_ne.mpr hsize
  unfold heapSuffices
  rw [hne, Bool.false_or]
  rcases kmalloc_spec k.heap_ptr sizeof_vm_struct (by decide) with ⟨hk, hfull⟩ | ⟨heap_ptr, hk, hle, -⟩
  · rw [hk]
    simp only [Option.isSome_none, Bool.false_eq_true, false_iff]
    omega
  · rw [hk]
    simp only [Option.isSome_some, true_iff]
    omega

theorem windowPage_inj {k : Nat} (hn : n < windowPages) (hk : k < windowPages)
    (h : windowPage n = windowPage k) : n = k := by
  have htoNat := congrArg BitVec.toNat h
  rw [toNat_windowPage hn, toNat_windowPage hk] at htoNat
  omega

theorem Holds.vmalloc {ptr : BitVec 64} (h : Holds t r n areas) (hsize : size ≠ 0)
    (hlt : size.toNat < 0x100000000000 - 4096) (hheap : heapSuffices t.vm size = true)
    (hv : Code.vmalloc t.vm size = .ok (ptr, k)) :
    ∃ n' a, Holds ⟨k, (ptr, pageCount size) :: t.live, t.freed⟩ r n' (a :: areas) := by
  rw [heapSuffices_iff hsize] at hheap
  have hpages := pages_needed_eq hlt.le
  have hpos : 0 < pageCount size ∧ pageCount size < 4294967296 := by
    have : size.toNat ≠ 0 := fun h0 => hsize (BitVec.eq_of_toNat_eq h0)
    unfold pageCount
    omega
  have hbound := h.heap
  obtain ⟨rfl, a, hlen, hvm⟩ := vmalloc_spec h.mapping h.records (.inl h.current_pgd)
    (currentUsed_of_forest h.mapping.tables h.current_pgd) h.vmalloc_ptr
      (by rw [hpages]; unfold windowPages; omega) hsize hv
  rw [hpages] at hlen
  have hframes := hvm.mapping.length_le List.mem_cons_self
  have hfirst := hvm.first
  have hstop : a.stop = n + a.frames.length := by rw [Area.stop, hfirst]
  obtain ⟨hfull, -⟩ | ⟨-, hheap', hrec⟩ := hvm.records
  · omega
  refine ⟨a.stop, a, hvm.mapping, closed_of_slots h.closed hvm.grown.slots, hrec,
    hvm.grown.only.current_pgd.trans h.current_pgd, hvm.vmalloc_ptr, ?_, ?_, ?_, ?_, ?_⟩
  · simp only [hheap', hstop]
    omega
  · omega
  · intro b hb
    rcases List.mem_cons.mp hb with rfl | hb
    · omega
    · exact h.pos b hb
  · simp only [List.map_cons, Area.range, hvm.first, hlen, h.live]
  · -- What was freed lies below the new area.
    intro p hp
    obtain ⟨⟨k, hk, rfl⟩, hother⟩ := h.freed p hp
    refine ⟨⟨k, by omega, rfl⟩, fun b hb => ?_⟩
    rcases List.mem_cons.mp hb with rfl | hb
    · intro heq
      have := windowPage_inj (by unfold windowPages; omega) (by unfold windowPages; omega) heq
      omega
    · exact hother b hb

theorem Holds.first_lt (h : Holds t r n areas) (ha : a ∈ areas) : a.first < windowPages := by
  have hbelow : a.first + a.frames.length ≤ n := h.mapping.below a ha
  have hpos := h.pos a ha
  have hbound := h.bound
  unfold windowPages
  omega

theorem Holds.first_inj {b : Area} {A B : List Area} (h : Holds t r n (A ++ a :: B))
    (hb : b ∈ A ++ B) : windowPage b.first ≠ windowPage a.first := by
  intro heq
  have hmem : b ∈ A ++ a :: B := ((List.sublist_cons_self a B).append_left A).subset hb
  have hfirst := windowPage_inj (h.first_lt hmem) (h.first_lt (by simp)) heq
  have hb' := h.pos b hmem
  have ha' := h.pos a (by simp)
  obtain ⟨-, hB, hA⟩ := List.pairwise_append.mp h.mapping.order
  rcases List.mem_append.mp hb with hb | hb
  · have := hA b hb a List.mem_cons_self
    unfold Area.stop at this
    omega
  · have := (List.pairwise_cons.mp hB).1 b hb
    unfold Area.stop at this
    omega

theorem windowPage_ne_zero (hn : n < windowPages) : windowPage n ≠ 0 := by
  intro h
  have htoNat := congrArg BitVec.toNat h
  rw [toNat_windowPage hn, show (0 : BitVec 64).toNat = 0 from rfl] at htoNat
  omega

structure Vfreed (t t' : Traced) (r : BitVec 64) (n : Nat) (areas : List Area) (a : Area) : Prop where
  mem : a ∈ areas
  returned : Returned SmallPath t.vm.mm t'.vm.mm r a a.frames.length
  holds : ∃ rest, Holds t' r n rest

theorem Holds.vfree_live {ptr : BitVec 64} (h : Holds t r n areas) (ha : a ∈ areas)
    (hptr : windowPage a.first = ptr) :
    ∃ k, Code.vfree t.vm ptr = .ok k ∧
      Vfreed t ⟨k, t.live.filter (·.1 ≠ ptr), (t.live.filter (·.1 = ptr)).map (·.1) ++ t.freed⟩ r
        n areas a := by
  have hwin : n ≤ windowPages := by
    have := h.bound
    unfold windowPages
    omega
  cases hfind : findArea areas ptr with
  | none =>
    have := List.find?_eq_none.mp hfind a ha
    simp [hptr] at this
  | some b =>
    obtain ⟨A, B, k, rfl, -, hb, hfree, hrec, hmm, hheap, hvptr⟩ := vfree_some h.records
      (fun _ => h.mapping.length_le) (hptr ▸ windowPage_ne_zero (h.first_lt ha)) hfind
    -- The area that is found is the one with this pointer.
    obtain rfl : a = b := by
      by_contra hne
      have hmem : a ∈ A ++ B := by
        simp only [List.mem_append, List.mem_cons] at ha ⊢
        tauto
      exact h.first_inj hmem (hptr.trans hb.symm)
    have hret := h.mapping.returned ha (.inl h.current_pgd) hwin (le_refl _)
    rw [← hmm] at hret
    refine ⟨k, hfree, ha, hret, A ++ B, h.mapping.remove hwin hret,
      closed_of_slots h.closed hret.slots, hrec, hret.current_pgd.trans h.current_pgd,
      hvptr.trans h.vmalloc_ptr, ?_, h.bound, ?_, ?_, ?_⟩
    · simp only [hheap]
      exact h.heap
    · intro c hc
      exact h.pos c (((List.sublist_cons_self a B).append_left A).subset hc)
    · have hkeep : ∀ c ∈ A ++ B, windowPage c.first ≠ ptr :=
        fun c hc heq => h.first_inj hc (heq.trans hb.symm)
      have hA : (A.map Area.range).filter (·.1 ≠ ptr) = A.map Area.range := by
        rw [List.filter_eq_self]
        intro x hx
        obtain ⟨c, hc, rfl⟩ := List.mem_map.mp hx
        exact decide_eq_true (hkeep c (List.mem_append_left _ hc))
      have hB : (B.map Area.range).filter (·.1 ≠ ptr) = B.map Area.range := by
        rw [List.filter_eq_self]
        intro x hx
        obtain ⟨c, hc, rfl⟩ := List.mem_map.mp hx
        exact decide_eq_true (hkeep c (List.mem_append_right _ hc))
      dsimp only
      rw [h.live, List.map_append, List.map_cons, List.filter_append, List.filter_cons, hA, hB,
        if_neg (by simp [Area.range, hb]), List.map_append]
    · intro p hp
      rcases List.mem_append.mp hp with hp | hp
      · obtain ⟨x, hx, rfl⟩ := List.mem_map.mp hp
        obtain hx := of_decide_eq_true (List.mem_filter.mp hx).2
        rw [hx, ← hb]
        refine ⟨⟨a.first, ?_, rfl⟩, fun c hc => h.first_inj hc⟩
        have hbelow : a.first + a.frames.length ≤ n := h.mapping.below a ha
        have hpos := h.pos a ha
        omega
      · obtain ⟨hlt, hother⟩ := h.freed p hp
        exact ⟨hlt, fun c hc => hother c (((List.sublist_cons_self a B).append_left A).subset hc)⟩

theorem Holds.vfree_unknown {ptr : BitVec 64} (h : Holds t r n areas)
    (hptr : ∀ x ∈ t.live, x.1 ≠ ptr) :
    Code.vfree t.vm ptr = .ok t.vm ∧ t.live.filter (·.1 ≠ ptr) = t.live ∧
      t.live.filter (·.1 = ptr) = [] := by
  refine ⟨vfree_none h.records ?_, ?_, ?_⟩
  · apply List.find?_eq_none.mpr
    intro a ha
    rw [decide_eq_true_eq]
    exact hptr a.range (h.live ▸ List.mem_map_of_mem ha)
  · rw [List.filter_eq_self]
    exact fun x hx => decide_eq_true (hptr x hx)
  · rw [List.filter_eq_nil_iff]
    exact fun x hx => by simpa using hptr x hx

theorem holds_step {op : VmOp} (h : ∃ n areas, Holds t r n areas) (hstep : op.step t = .ok t') :
    ∃ n areas, Holds t' r n areas := by
  obtain ⟨n, areas, h⟩ := h
  rcases op with size | ptr
  · unfold VmOp.step at hstep
    dsimp only at hstep
    split_ifs at hstep with hfits hsize
    · subst hsize
      cases hstep
      exact ⟨n, areas, h⟩
    · obtain ⟨⟨ptr, k⟩, hv, hstep⟩ := bind_ok.mp hstep
      cases hstep
      obtain ⟨n', a, h'⟩ := h.vmalloc hsize hfits.1 hfits.2 hv
      exact ⟨n', _, h'⟩
  · obtain ⟨k, hfree, hstep⟩ := bind_ok.mp hstep
    cases hstep
    by_cases hlive : ∃ a ∈ areas, windowPage a.first = ptr
    · obtain ⟨a, ha, hptr⟩ := hlive
      obtain ⟨k', hfree', hvf⟩ := h.vfree_live ha hptr
      cases hfree'.symm.trans hfree
      obtain ⟨rest, h'⟩ := hvf.holds
      exact ⟨n, rest, h'⟩
    · have hptr : ∀ x ∈ t.live, x.1 ≠ ptr := by
        intro x hx heq
        rw [h.live] at hx
        obtain ⟨a, ha, rfl⟩ := List.mem_map.mp hx
        exact hlive ⟨a, ha, heq⟩
      obtain ⟨hsame, hkeep, hnone⟩ := h.vfree_unknown hptr
      cases hsame.symm.trans hfree
      rw [hkeep, hnone, List.map_nil, List.nil_append]
      exact ⟨n, areas, h⟩

/-! ## What holds in every state of a run -/

def InRange (x : BitVec 64 × Nat) (v : BitVec 64) : Prop :=
  x.1.toNat ≤ v.toNat ∧ v.toNat < x.1.toNat + 4096 * x.2

instance (x : BitVec 64 × Nat) (v : BitVec 64) : Decidable (InRange x v) :=
  inferInstanceAs (Decidable (_ ∧ _))

theorem path_window_iff (hv : Canonical v) (hn : n < windowPages) :
    pathOf v 4 = pathOf (windowPage n) 4 ↔ (windowPage n).toNat ≤ v.toNat ∧
      v.toNat < (windowPage n).toNat + 4096 := by
  have hpath : ∀ w : BitVec 64, pathOf w 4 = [pgd_index w, pud_index w, pmd_index w, pte_index w] :=
    fun _ => rfl
  have hcanon := hv
  have hlt := v.isLt
  unfold Canonical at hcanon
  rw [hpath, hpath, pgd_index_window hn, pud_index_window hn, pmd_index_window hn, pte_index_window hn,
    toNat_windowPage hn]
  unfold pgd_index pud_index pmd_index pte_index
  simp only [toNat_index _ _ 9 0x1FF (by decide)]
  unfold windowPages at hn
  simp only [List.cons.injEq, and_true]
  omega

theorem Holds.inRange_iff (h : Holds t r n areas) (ha : a ∈ areas) (hv : Canonical v) :
    InRange a.range v ↔ ∃ i < a.frames.length, pathOf v 4 = pathOf (windowPage (a.first + i)) 4 := by
  have hfirst := h.first_lt ha
  have hbelow : a.first + a.frames.length ≤ n := h.mapping.below a ha
  have hbound := h.bound
  have hlt : ∀ i < a.frames.length, a.first + i < windowPages := by
    intro i hi
    unfold windowPages
    omega
  unfold InRange Area.range
  dsimp only
  rw [toNat_windowPage hfirst]
  constructor
  · intro hin
    refine ⟨(v.toNat - (0xFFFFC90000000000 + 4096 * a.first)) / 4096, by omega, ?_⟩
    rw [path_window_iff hv (hlt _ (by omega)), toNat_windowPage (hlt _ (by omega))]
    omega
  · rintro ⟨i, hi, hpath⟩
    rw [path_window_iff hv (hlt i hi), toNat_windowPage (hlt i hi)] at hpath
    omega

theorem Mapping.translate {V : List Nat → Prop} [WindowKind V] {f : BitVec 64}
    (h : Mapping V s r n areas) (hn : n ≤ windowPages) (ha : a ∈ areas) (hf : a.frames[i]? = some f) :
    translate s.mem r (windowPage (a.first + i)) = some f := by
  have hback := h.backing a ha f (List.mem_of_getElem? hf)
  have hlt := lt_of_getElem? hf
  have hbelow : a.first + a.frames.length ≤ n := h.below a ha
  have hwin : a.first + i < windowPages := by omega
  have hleaf := h.mapped a ha i f hf
  unfold leaf at hleaf
  have hoffset : windowPage (a.first + i) &&& 0xFFF = 0 := by
    apply BitVec.eq_of_toNat_eq
    rw [BitVec.toNat_and, toNat_windowPage hwin, show (0xFFF : BitVec 64).toNat = 2 ^ 12 - 1 from rfl,
      Nat.and_two_pow_sub_one_eq_mod, show (0 : BitVec 64).toNat = 0 from rfl]
    omega
  rw [h.tables.translate_eq rfl (WindowKind.window _ hwin), hleaf, if_pos (pageEntry_present f _),
    pageEntry_addr f (by decide), hback.addr, hoffset]
  simp

theorem Holds.fits (h : Holds t r n areas) : n ≤ windowPages := by
  have hbound := h.bound
  unfold windowPages
  omega

theorem Holds.translate {f : BitVec 64} (h : Holds t r n areas) (ha : a ∈ areas)
    (hf : a.frames[i]? = some f) :
    translate t.vm.mm.mem r (a.range.1 + BitVec.ofNat 64 i * 4096) = some f := by
  rw [Area.range, windowPage_add]
  exact h.mapping.translate h.fits ha hf

theorem holds_start (h : Booted s r) (heap_ptr : BitVec 32) :
    Holds ⟨Vm.start s heap_ptr, [], []⟩ r 0 [] := by
  have hring : Dll.Ring (Lists.links (Vm.start s heap_ptr)) .vm_struct_list
      (([] : List Area).map fun a => .list a.node) := by
    refine ⟨by simp, ?_⟩
    simp [Dll.Linked, Lists.links, ListHeap.next, ListHeap.prev, Vm.links_at, Vm.start]
  have hrec : Records (Vm.start s heap_ptr) [] := ⟨hring, by simp, by simp, by simp⟩
  have hmap : Mapping SmallPath (Vm.start s heap_ptr).mm r 0 [] :=
    ⟨h.tables, by simp, by simp, by simp, by simp, by simp⟩
  exact ⟨hmap, h.closed, hrec,
    h.current_pgd, by simp [Vm.start, windowPage], by simp, by simp, by simp, rfl, by simp⟩

theorem Holds.range_disjoint {b : Area} (h : Holds t r n areas) (ha : a ∈ areas) (hb : b ∈ areas)
    (hstop : b.stop ≤ a.first) (hin : InRange a.range v) (hin' : InRange b.range v) : False := by
  have ha' := h.first_lt ha
  have hb' := h.first_lt hb
  unfold InRange Area.range at hin hin'
  unfold Area.stop at hstop
  simp only [toNat_windowPage ha'] at hin
  simp only [toNat_windowPage hb'] at hin'
  omega

theorem Mapping.frame_inj {V : List Nat → Prop} {b : Area} {j : Nat} {f g : BitVec 64}
    (h : Mapping V s r n areas) (ha : a ∈ areas) (hb : b ∈ areas) (hf : a.frames[i]? = some f)
    (hg : b.frames[j]? = some g) (heq : pageOf g = pageOf f) : b.range = a.range ∧ j = i := by
  obtain ⟨hnodup, hpair⟩ := List.nodup_flatMap.mp h.nodup
  have hfm := List.mem_of_getElem? hf
  have hgm := List.mem_of_getElem? hg
  obtain rfl : g = f := by
    by_contra hne
    exact (h.backing b hb g hgm).pageOf_ne (h.backing a ha f hfm) hne heq
  obtain rfl : b = a := by
    by_contra hne
    have hsymm : Std.Symm (Function.onFun List.Disjoint Area.frames) :=
      ⟨fun _ _ hd => List.Disjoint.symm hd⟩
    exact hpair.forall hb ha hne hgm hfm
  refine ⟨rfl, ?_⟩
  exact (List.getElem?_inj (lt_of_getElem? hg) (hnodup b hb)).mp (hg.trans hf.symm)

theorem Holds.translate_vfree {t' : Traced} (h : Holds t r n areas) (hvf : Vfreed t t' r n areas a)
    (hv : Canonical v) :
    Paging.translate t'.vm.mm.mem r v = if InRange a.range v then none else Paging.translate
      t.vm.mm.mem r v := by
  have hret := hvf.returned
  split_ifs with hin
  · obtain ⟨i, hi, hpath⟩ := (h.inRange_iff hvf.mem hv).mp hin
    have hbelow : a.first + a.frames.length ≤ n := h.mapping.below a hvf.mem
    have hbound := h.bound
    have hwin : a.first + i < windowPages := by
      unfold windowPages
      omega
    have hleaf : leaf t'.vm.mm.mem r v = 0 := (leaf_congr _ _ hpath).trans (hret.leaves i hi)
    have hsmall : SmallPath (pathOf v 4) := hpath ▸ WindowKind.window _ hwin
    unfold leaf at hleaf
    rw [hret.tables.translate_eq rfl hsmall, hleaf, zero_has, if_neg (by decide)]
  · apply translate_off h.mapping.tables hret.tables h.closed hret.slots
    intro k hk hpages hpath
    apply hin
    rw [h.inRange_iff hvf.mem hv]
    exact ⟨k - a.first, by omega, by rwa [Nat.add_sub_cancel' hpages.1]⟩

/-! ## Enough pages -/

theorem arch_paging_init_pool (h : Pool (n + 6) s) :
    ∃ s', arch_paging_init s = .ok s' ∧ Pool n s' := by
  have h0 : Pool (n + 6) { s with current_pgd := some (pte_addr s.cr3) } := h.of_pmm rfl
  obtain ⟨s1, hmap1, h1⟩ := arch_map_page_pool (n := n + 3) h0 LAPIC_VADDR LAPIC_BASE_PHYS
    (PTE_WRITABLE ||| PTE_PCD ||| PTE_GLOBAL)
  obtain ⟨s2, hmap2, h2⟩ := arch_map_page_pool h1 IOAPIC_VADDR IOAPIC_BASE_PHYS
    (PTE_WRITABLE ||| PTE_PCD ||| PTE_GLOBAL)
  exact ⟨s2, bind_ok.mpr ⟨_, hmap1, hmap2⟩, h2⟩

theorem vmalloc_page_pool (h : Pool (n + 4) k.mm) :
    ∃ k', vmalloc_page k = .ok k' ∧ k'.heap_ptr = k.heap_ptr ∧ k'.vm = k.vm ∧
      k'.vm_struct_list = k.vm_struct_list ∧ Pool n k'.mm := by
  obtain ⟨phys, mm1, halloc, h1⟩ := alloc_page_pool (n := n + 3) h
  obtain ⟨mm2, hmap, h2⟩ := arch_map_page_pool h1 k.vmalloc_ptr phys PTE_WRITABLE
  exact ⟨_, bind_ok.mpr ⟨_, halloc, bind_ok.mpr ⟨_, hmap, rfl⟩⟩, rfl, rfl, rfl, h2⟩

theorem vmalloc_of_loop {k1 : Vm} (hsize : size ≠ 0)
    (hloop : loop 0 (pages_needed size) (fun _ k => vmalloc_page k) k = .ok k1)
    (hrec : Records k1 areas) (hptr : k.vmalloc_ptr = windowPage i) :
    ∃ ptr k', vmalloc k size = .ok (ptr, k') ∧ k'.mm = k1.mm := by
  unfold vmalloc
  rw [if_neg hsize, hloop]
  simp only [bind, Except.bind]
  rcases kmalloc_spec k1.heap_ptr sizeof_vm_struct (by decide) with ⟨hk, -⟩ | ⟨heap_ptr, hk, -, hheap'⟩
  · rw [hk]
    exact ⟨_, _, rfl, rfl⟩
  · rw [hk]
    obtain ⟨k2, hadd, -, hmm, -⟩ := hrec.add
      (a := ⟨i, List.replicate (pages_needed size) 0, k1.heap_ptr.toNat⟩) rfl hheap'
    rw [List.length_replicate, ← hptr] at hadd
    dsimp only at hadd ⊢
    rw [hadd]
    exact ⟨_, _, rfl, hmm⟩

theorem vmalloc_pool (size : BitVec 64) (h : Pool (n + 4 * pages_needed size) k.mm)
    (hrec : Records k areas) (hptr : k.vmalloc_ptr = windowPage i) :
    ∃ ptr k', vmalloc k size = .ok (ptr, k') ∧ Pool n k'.mm := by
  by_cases hsize : size = 0
  · subst hsize
    exact ⟨_, _, rfl, h.le (by omega)⟩
  have hbody : ∀ i k1, 0 ≤ i → i < 0 + pages_needed size →
      (k1.heap_ptr = k.heap_ptr ∧ k1.vm = k.vm ∧ k1.vm_struct_list = k.vm_struct_list ∧
        Pool (n + 4 * (pages_needed size - i)) k1.mm) →
      ∃ k2, vmalloc_page k1 = .ok k2 ∧ k2.heap_ptr = k.heap_ptr ∧ k2.vm = k.vm ∧
        k2.vm_struct_list = k.vm_struct_list ∧ Pool (n + 4 * (pages_needed size - (i + 1))) k2.mm := by
    rintro i k1 - hi ⟨hheap, hvm, hlist, h1⟩
    obtain ⟨k2, hpage, hheap2, hvm2, hlist2, h2⟩ := vmalloc_page_pool (k := k1)
      (n := n + 4 * (pages_needed size - (i + 1))) (h1.le (by omega))
    exact ⟨k2, hpage, hheap2.trans hheap, hvm2.trans hvm, hlist2.trans hlist, h2⟩
  obtain ⟨k1, hloop, hheap, hvm, hlist, h1⟩ :=
    loop_total _ (fun _ k => vmalloc_page k) 0 (pages_needed size) k
    hbody ⟨rfl, rfl, rfl, h⟩
  obtain ⟨ptr, k', hv, hmm⟩ := vmalloc_of_loop hsize hloop (hrec.of_same hlist hvm hheap) hptr
  exact ⟨ptr, k', hv, hmm ▸ h1.le (by omega)⟩

/-- Each page of a live range has a frame that is in use and backs no other one. `vfree` of a
live pointer frees these frames, and of any other pointer changes nothing. -/
theorem vmalloc_areas {p4 kernel_end : BitVec 64} {m : Mem} {mm : Mm} {heap_ptr : BitVec 32}
    {ops : List VmOp} {t : Traced} (hlayout : Layout p4 m kernel_end)
    (hinit : arch_paging_init (start_mm p4 m kernel_end) = .ok mm)
    (hrun : run VmOp.step ⟨Vm.start mm heap_ptr, [], []⟩ ops = .ok t) :
    t.live.Pairwise (fun x y => ∀ v, ¬ (InRange x v ∧ InRange y v)) ∧
    (∀ x ∈ t.live, ∀ i < x.2, ∃ f, translate t.vm.mm.mem p4 (x.1 + BitVec.ofNat 64 i * 4096) =
      some f ∧ t.vm.mm.pmm.page_used (pageOf f) = true ∧
      ∀ y ∈ t.live, ∀ j < y.2, ∀ g, translate t.vm.mm.mem p4 (y.1 + BitVec.ofNat 64 j * 4096) =
        some g → pageOf g = pageOf f → y = x ∧ j = i) ∧
    (∀ x ∈ t.live, ∃ k, vfree t.vm x.1 = .ok k ∧
      (∀ v, Canonical v → translate k.mm.mem p4 v =
        if InRange x v then none else translate t.vm.mm.mem p4 v) ∧
      ∀ q, k.mm.pmm.page_used q = true ↔ t.vm.mm.pmm.page_used q = true ∧
        ∀ i < x.2, ∀ f, translate t.vm.mm.mem p4 (x.1 + BitVec.ofNat 64 i * 4096) = some f →
          q ≠ pageOf f) ∧
    ∀ ptr, ptr = 0 ∨ ptr ∈ t.freed ∨ (∀ x ∈ t.live, x.1 ≠ ptr) → vfree t.vm ptr = .ok t.vm := by
  obtain ⟨n, areas, h⟩ := run_inv (fun t => ∃ n areas, Holds t p4 n areas) (fun _ _ _ _ => holds_step)
    ⟨0, [], holds_start (booted hlayout hinit).1 heap_ptr⟩ hrun
  have hlive : ∀ x ∈ t.live, ∃ a ∈ areas, x = a.range := by
    intro x hx
    rw [h.live] at hx
    obtain ⟨a, ha, rfl⟩ := List.mem_map.mp hx
    exact ⟨a, ha, rfl⟩
  refine ⟨?_, ?_, ?_, ?_⟩
  · rw [h.live, List.pairwise_map]
    refine h.mapping.order.imp_of_mem fun ha hb hstop v hin => ?_
    exact h.range_disjoint ha hb hstop hin.1 hin.2
  · intro x hx i hi
    obtain ⟨a, ha, rfl⟩ := hlive x hx
    obtain ⟨f, hf⟩ : ∃ f, a.frames[i]? = some f := ⟨_, List.getElem?_eq_getElem hi⟩
    refine ⟨f, h.translate ha hf, (h.mapping.backing a ha f (List.mem_of_getElem? hf)).used, ?_⟩
    intro y hy j hj g hg heq
    obtain ⟨b, hb, rfl⟩ := hlive y hy
    obtain ⟨g', hg'⟩ : ∃ g, b.frames[j]? = some g := ⟨_, List.getElem?_eq_getElem hj⟩
    rw [h.translate hb hg', Option.some.injEq] at hg
    subst hg
    exact h.mapping.frame_inj ha hb hf hg' heq
  · intro x hx
    obtain ⟨a, ha, rfl⟩ := hlive x hx
    obtain ⟨k, hfree, hvf⟩ := h.vfree_live ha rfl
    refine ⟨k, hfree, ?_, fun q => ?_⟩
    · intro v hv
      have htranslate := h.translate_vfree hvf hv
      exact htranslate
    rw [hvf.returned.used, List.take_length]
    refine and_congr_right fun _ => ⟨fun hq i hi f hf => ?_, fun hq f hf => ?_⟩
    · rw [h.translate ha (List.getElem?_eq_getElem hi), Option.some.injEq] at hf
      exact hf ▸ hq _ (List.getElem_mem hi)
    · obtain ⟨i, hi⟩ := List.mem_iff_getElem?.mp hf
      exact hq i (lt_of_getElem? hi) f (h.translate ha hi)
  · intro ptr hptr
    apply (h.vfree_unknown _).1
    intro x hx
    obtain ⟨a, ha, rfl⟩ := hlive x hx
    rcases hptr with rfl | hfreed | hother
    · change windowPage a.first ≠ 0
      exact windowPage_ne_zero (h.first_lt ha)
    · exact (h.freed ptr hfreed).2 a ha
    · exact hother _ hx

theorem small_layout : Layout 0x110000 (fun _ => 0) 0xFFFFFFFF80200000 :=
  ⟨by unfold Aligned; decide, by decide, by decide, by decide, fun _ _ _ => rfl⟩

theorem small_pool : Pool 65024 (start_mm 0x110000 (fun _ => 0) 0xFFFFFFFF80200000) :=
  ⟨pmm_init_inv _ _ _ rfl (by decide), by decide⟩

/-- Two pages are given out and freed. -/
theorem vmalloc_areas_small :
    ∃ mm t k, arch_paging_init (start_mm 0x110000 (fun _ => 0) 0xFFFFFFFF80200000) = .ok mm ∧
    run VmOp.step ⟨Vm.start mm 0, [], []⟩ [.vmalloc 8192] = .ok t ∧ t.live = [(VMALLOC_START, 2)] ∧
    vfree t.vm VMALLOC_START = .ok k ∧ translate k.mm.mem 0x110000 VMALLOC_START = none := by
  obtain ⟨mm, hinit, hpool⟩ := arch_paging_init_pool (n := 65018) small_pool
  have hstart := holds_start (booted small_layout hinit).1 0
  obtain ⟨ptr, k, hv, -⟩ := vmalloc_pool (k := Vm.start mm 0) (n := 65010) 8192 hpool hstart.records
    hstart.vmalloc_ptr
  obtain ⟨rfl, -⟩ := vmalloc_spec hstart.mapping hstart.records (.inl hstart.current_pgd)
    (currentUsed_of_forest hstart.mapping.tables hstart.current_pgd) hstart.vmalloc_ptr (by decide)
      (by decide) hv
  have hrun : run VmOp.step ⟨Vm.start mm 0, [], []⟩ [.vmalloc 8192] =
      .ok ⟨k, [(windowPage 0, 2)], []⟩ := by
    refine bind_ok.mpr ⟨_, ?_, rfl⟩
    unfold VmOp.step
    dsimp only
    rw [if_pos ⟨by decide, rfl⟩, hv]
    rfl
  obtain ⟨-, -, hfree, -⟩ := vmalloc_areas small_layout hinit hrun
  obtain ⟨k', hk', htranslate, -⟩ := hfree (windowPage 0, 2) (by simp)
  refine ⟨mm, _, k', hinit, hrun, by simp [windowPage], hk', ?_⟩
  have hnone := htranslate VMALLOC_START (by unfold Canonical; decide)
  rwa [if_pos (by decide)] at hnone

end Relis.Vmalloc
