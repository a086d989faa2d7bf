import Relis.Code.Nic
import Relis.Vmalloc.Run

/-!
# The windows of the interrupt controllers

`arch_paging_init` puts them where `vmalloc` and the network driver begin. They
stay as long as neither maps a page.
-/

open Relis.Bytes Relis.Run Relis.Code Relis.PageAlloc Relis.Paging Relis.Slab

namespace Relis.Vmalloc

structure Devices where
  vm : Vm
  nic_mmio_base : BitVec 64

inductive DeviceOp
  | nic_hw_init (phys_bar0 : BitVec 64)
  | vmalloc (size : BitVec 64)
  | vfree (ptr : BitVec 64)

def DeviceOp.step (d : Devices) : DeviceOp → Except Halt Devices
  | .nic_hw_init phys_bar0 => do
    let (nic_mmio_base, mm) ← Code.nic_hw_init d.vm.mm phys_bar0
    return ⟨{ d.vm with mm := mm }, nic_mmio_base⟩
  | .vmalloc size => do
    let (_, k) ← Code.vmalloc d.vm size
    return { d with vm := k }
  | .vfree ptr => do
    let k ← Code.vfree d.vm ptr
    return { d with vm := k }

def DeviceOp.mapsNothing : DeviceOp → Bool
  | .nic_hw_init _ => false
  | .vmalloc size => pages_needed size == 0
  | .vfree _ => true

def ApicMapped (s : Mm) : Prop :=
  translate s.mem (pte_addr s.cr3) LAPIC_VADDR = some LAPIC_BASE_PHYS ∧
    translate s.mem (pte_addr s.cr3) IOAPIC_VADDR = some IOAPIC_BASE_PHYS

/-- All areas are empty, and the windows are as `arch_paging_init` has left them. -/
structure Quiet (d : Devices) (r : BitVec 64) (areas : List Area) : Prop where
  mapping : Mapping SmallPath d.vm.mm r 0 areas
  records : Records d.vm areas
  empty : ∀ a ∈ areas, a.frames = []
  current_pgd : d.vm.mm.current_pgd = some r
  cr3 : d.vm.mm.cr3 = r
  vmalloc_ptr : d.vm.vmalloc_ptr = windowPage 0
  lapic : leaf d.vm.mm.mem r LAPIC_VADDR = pageEntry LAPIC_BASE_PHYS apicFlags
  ioapic : leaf d.vm.mm.mem r IOAPIC_VADDR = pageEntry IOAPIC_BASE_PHYS apicFlags

variable {d d' : Devices} {r : BitVec 64} {areas : List Area}

theorem Quiet.apicMapped (h : Quiet d r areas) (haddr : pte_addr r = r) : ApicMapped d.vm.mm := by
  have hwindow : ∀ n < windowPages, SmallPath (pathOf (windowPage n) 4) := WindowKind.window
  have hlapic := h.lapic
  have hioapic := h.ioapic
  rw [show LAPIC_VADDR = windowPage 0 by decide] at hlapic
  rw [show IOAPIC_VADDR = windowPage 1 by decide] at hioapic
  unfold leaf at hlapic hioapic
  unfold ApicMapped
  rw [h.cr3, haddr, show LAPIC_VADDR = windowPage 0 by decide,
    show IOAPIC_VADDR = windowPage 1 by decide,
    h.mapping.tables.translate_eq rfl (hwindow 0 (by decide)), hlapic,
    h.mapping.tables.translate_eq rfl (hwindow 1 (by decide)), hioapic]
  decide

theorem Quiet.vmalloc {size ptr : BitVec 64} {k : Vm} (h : Quiet d r areas)
    (hpages : pages_needed size = 0) (hv : Code.vmalloc d.vm size = .ok (ptr, k)) :
    ∃ areas, Quiet { d with vm := k } r areas := by
  by_cases hsize : size = 0
  · subst hsize
    cases (vmalloc_zero d.vm).symm.trans hv
    exact ⟨areas, h⟩
  obtain ⟨-, a, hlen, hvm⟩ := vmalloc_spec h.mapping h.records (.inl h.current_pgd)
    (currentUsed_of_forest h.mapping.tables h.current_pgd) h.vmalloc_ptr
      (by rw [hpages]; decide) hsize hv
  rw [hpages] at hlen
  have hnone : a.frames = [] := List.length_eq_zero_iff.mp hlen
  have hstop : a.stop = 0 := by rw [Area.stop, hvm.first, hlen]
  have hkeep : ∀ n < windowPages, leaf k.mm.mem r (windowPage n) =
      leaf d.vm.mm.mem r (windowPage n) := by
    intro n hn
    apply hvm.grown.slots.window hn
    unfold Area.pages
    omega
  have hmap := hvm.mapping
  have hptr := hvm.vmalloc_ptr
  rw [hstop] at hmap hptr
  have hpgd := hvm.grown.only.current_pgd.trans h.current_pgd
  have hcr3 := hvm.grown.only.cr3.trans h.cr3
  have hlapic : leaf k.mm.mem r LAPIC_VADDR = pageEntry LAPIC_BASE_PHYS apicFlags :=
    (hkeep 0 (by decide)).trans h.lapic
  have hioapic : leaf k.mm.mem r IOAPIC_VADDR = pageEntry IOAPIC_BASE_PHYS apicFlags :=
    (hkeep 1 (by decide)).trans h.ioapic
  rcases hvm.records with ⟨-, -, hrec⟩ | ⟨-, -, hrec⟩
  · exact ⟨areas, hmap.sublist (List.sublist_cons_self a areas), hrec, h.empty, hpgd, hcr3, hptr,
      hlapic, hioapic⟩
  · refine ⟨a :: areas, hmap, hrec, ?_, hpgd, hcr3, hptr, hlapic, hioapic⟩
    intro b hb
    rcases List.mem_cons.mp hb with rfl | hb
    · exact hnone
    · exact h.empty b hb

theorem Quiet.vfree {ptr : BitVec 64} {k : Vm} (h : Quiet d r areas)
    (hfree : Code.vfree d.vm ptr = .ok k) : ∃ areas, Quiet { d with vm := k } r areas := by
  by_cases hptr : ptr = 0
  · subst hptr
    cases (vfree_zero d.vm).symm.trans hfree
    exact ⟨areas, h⟩
  cases hfind : findArea areas ptr with
  | none =>
    cases (vfree_none h.records hfind).symm.trans hfree
    exact ⟨areas, h⟩
  | some a =>
    obtain ⟨A, B, k', rfl, -, -, hfree', hrec, hmm, -, hvptr⟩ := vfree_some h.records
      (fun _ => h.mapping.length_le) hptr hfind
    cases hfree'.symm.trans hfree
    have hsub : (A ++ B).Sublist (A ++ a :: B) := (List.sublist_cons_self a B).append_left A
    -- The area has no page, so no table changes.
    rw [h.empty a (by simp)] at hmm
    have hmm : k.mm = d.vm.mm := hmm
    refine ⟨A ++ B, ?_, hrec, fun b hb => h.empty b (hsub.subset hb), ?_, ?_,
      hvptr.trans h.vmalloc_ptr, ?_, ?_⟩
    · exact hmm ▸ h.mapping.sublist hsub
    · exact hmm ▸ h.current_pgd
    · exact hmm ▸ h.cr3
    · exact hmm ▸ h.lapic
    · exact hmm ▸ h.ioapic

theorem quiet_step {op : DeviceOp} (hop : op.mapsNothing = true) (h : ∃ areas, Quiet d r areas)
    (hstep : op.step d = .ok d') : ∃ areas, Quiet d' r areas := by
  obtain ⟨areas, h⟩ := h
  cases op with
  | nic_hw_init phys_bar0 => cases hop
  | vmalloc size =>
    obtain ⟨⟨ptr, k⟩, hv, hstep⟩ := bind_ok.mp hstep
    cases hstep
    exact h.vmalloc (beq_iff_eq.mp hop) hv
  | vfree ptr =>
    obtain ⟨k, hfree, hstep⟩ := bind_ok.mp hstep
    cases hstep
    exact h.vfree hfree

/-- As long as no call maps a page, the windows stay. -/
theorem apic_windows_kept {p4 kernel_end nic_mmio_base : BitVec 64} {m : Mem} {mm : Mm}
    {heap_ptr : BitVec 32} {ops : List DeviceOp} {d : Devices} (hlayout : Layout p4 m kernel_end)
    (hinit : arch_paging_init (start_mm p4 m kernel_end) = .ok mm)
    (hops : ∀ op ∈ ops, op.mapsNothing = true)
    (hrun : run DeviceOp.step ⟨Vm.start mm heap_ptr, nic_mmio_base⟩ ops = .ok d) :
    ApicMapped d.vm.mm := by
  have haddr := hlayout.addr_table (n := 0) (by omega)
  rw [boot_table_zero] at haddr
  obtain ⟨hboot, hlapic, hioapic⟩ := booted hlayout hinit
  have hstart := holds_start hboot heap_ptr
  have hquiet : Quiet ⟨Vm.start mm heap_ptr, nic_mmio_base⟩ p4 [] :=
    ⟨hstart.mapping, hstart.records, by simp, hboot.current_pgd, hboot.cr3, hstart.vmalloc_ptr,
      hlapic, hioapic⟩
  obtain ⟨areas, h⟩ := run_inv (fun d => ∃ areas, Quiet d p4 areas)
    (fun op hop _ _ => quiet_step (hops op hop)) ⟨[], hquiet⟩ hrun
  exact h.apicMapped haddr

/-- A range whose page count wraps to 0 is recorded and freed. -/
theorem apic_windows_kept_small :
    ∃ mm k d, arch_paging_init (start_mm 0x110000 (fun _ => 0) 0xFFFFFFFF80200000) = .ok mm ∧
    Code.vmalloc (Vm.start mm 0) 0xFFFFFFFFFFFFFFFF = .ok (VMALLOC_START, k) ∧
    run DeviceOp.step ⟨Vm.start mm 0, 0⟩ [.vmalloc 0xFFFFFFFFFFFFFFFF, .vfree VMALLOC_START] =
      .ok d ∧ ApicMapped d.vm.mm := by
  obtain ⟨mm, hinit, -⟩ := arch_paging_init_pool (n := 65018) small_pool
  have hops : ∀ op ∈ [DeviceOp.vmalloc 0xFFFFFFFFFFFFFFFF, .vfree VMALLOC_START], op.mapsNothing =
      true := by decide
  obtain ⟨d, hrun⟩ : ∃ d, run DeviceOp.step ⟨Vm.start mm 0, 0⟩
      [.vmalloc 0xFFFFFFFFFFFFFFFF, .vfree VMALLOC_START] = .ok d := ⟨_, rfl⟩
  exact ⟨mm, _, d, hinit, rfl, hrun, apic_windows_kept small_layout hinit hops hrun⟩

/-- The first page of `vmalloc` takes the place of the registers of the local controller. -/
theorem vmalloc_hides_apic :
    ∃ mm d, arch_paging_init (start_mm 0x110000 (fun _ => 0) 0xFFFFFFFF80200000) = .ok mm ∧
    run DeviceOp.step ⟨Vm.start mm 0, 0⟩ [.vmalloc 4096] = .ok d ∧ ¬ ApicMapped d.vm.mm := by
  obtain ⟨mm, hinit, hpool⟩ := arch_paging_init_pool (n := 65018) small_pool
  have hboot := (booted small_layout hinit).1
  have hstart := holds_start hboot 0
  obtain ⟨ptr, k, hv, -⟩ := vmalloc_pool (k := Vm.start mm 0) (n := 65014) 4096 hpool hstart.records
    hstart.vmalloc_ptr
  have hrun : run DeviceOp.step ⟨Vm.start mm 0, 0⟩ [.vmalloc 4096] = .ok ⟨k, 0⟩ :=
    bind_ok.mpr ⟨⟨k, 0⟩, bind_ok.mpr ⟨(ptr, k), hv, rfl⟩, rfl⟩
  refine ⟨mm, _, hinit, hrun, fun hmapped => ?_⟩
  obtain ⟨-, a, hlen, hvm⟩ := vmalloc_spec hstart.mapping hstart.records (.inl hstart.current_pgd)
    (currentUsed_of_forest hstart.mapping.tables hstart.current_pgd) hstart.vmalloc_ptr (by decide)
      (by decide) hv
  have hcr3 : k.mm.cr3 = 0x110000 := hvm.grown.only.cr3.trans hboot.cr3
  obtain ⟨f, hf⟩ : ∃ f, a.frames[0]? = some f := ⟨_, List.getElem?_eq_getElem (by rw [hlen]; decide)⟩
  have hback := hvm.mapping.backing a List.mem_cons_self f (List.mem_of_getElem? hf)
  have htranslate := hvm.mapping.translate (by rw [Area.stop, hvm.first, hlen]; decide)
    List.mem_cons_self hf
  -- A frame of the memory is far below the registers.
  have hlapic := hmapped.1
  rw [hcr3, show pte_addr 0x110000 = 0x110000 by decide, show LAPIC_VADDR = windowPage 0 by decide]
    at hlapic
  rw [hvm.first, hlapic, Option.some.injEq] at htranslate
  have hlt := hback.lt
  have htotal := k.mm.pmm.total_le
  rw [← htranslate, show pageOf LAPIC_BASE_PHYS = 0xFEE00 by decide] at hlt
  simp only [MAX_PHYS_PAGES] at htotal
  omega

end Relis.Vmalloc
