import Relis.Vmalloc.Count

/-!
# Requests for memory

A result that is not null stands for as many bytes as were asked for, counted without a
wrap.
-/

open Relis.Bytes Relis.Run Relis.Code Relis.PageAlloc Relis.Paging Relis.Slab

namespace Relis.Vmalloc

variable {size : BitVec 64} {heap_ptr : BitVec 32}

/-! ## The allocators -/

/-- `bytes` is what the heap holds, and `blocks` are the places and lengths of all blocks so far. -/
structure Allocators where
  vm : Vm
  bytes : Mem
  blocks : List (Nat × Nat)

inductive AllocOp
  | kmalloc (size : BitVec 64)
  | kcalloc (nmemb size : BitVec 64)
  | kfree (ptr : Option Nat)
  | vmalloc (size : BitVec 64)
  | vfree (ptr : BitVec 64)
  /-- Somebody writes to the heap. -/
  | store (i : Nat) (c : BitVec 8)

def addBlock (blocks : List (Nat × Nat)) (ptr : Option Nat) (len : Nat) : List (Nat × Nat) :=
  match ptr with
  | none => blocks
  | some p => (p, len) :: blocks

def AllocOp.step (a : Allocators) : AllocOp → Except Halt Allocators
  | .kmalloc size =>
    let (ptr, heap_ptr) := Code.kmalloc a.vm.heap_ptr size
    .ok ⟨{ a.vm with heap_ptr := heap_ptr }, a.bytes, addBlock a.blocks ptr size.toNat⟩
  | .kcalloc nmemb size =>
    let (ptr, heap_ptr, bytes) := Code.kcalloc a.vm.heap_ptr a.bytes nmemb size
    .ok ⟨{ a.vm with heap_ptr := heap_ptr }, bytes, addBlock a.blocks ptr (nmemb.toNat * size.toNat)⟩
  | .kfree ptr => .ok { a with vm := { a.vm with heap_ptr := Code.kfree a.vm.heap_ptr ptr } }
  | .vmalloc size => do
    let (_, k) ← Code.vmalloc a.vm size
    -- the block for the record of the range
    let vm := if size = 0 then none else (Code.kmalloc a.vm.heap_ptr sizeof_vm_struct).1
    return ⟨k, a.bytes, addBlock a.blocks vm sizeof_vm_struct.toNat⟩
  | .vfree ptr => do
    let k ← Code.vfree a.vm ptr
    return { a with vm := k }
  | .store i c => .ok { a with bytes := Function.update a.bytes i c }

/-! ## What a result stands for -/

def IsBlock (a : Allocators) (ptr : Option Nat) (len : Nat) : Prop :=
  ∀ p, ptr = some p → p + len ≤ 4194304 ∧ ∀ b ∈ a.blocks, b.1 + b.2 ≤ p

def IsMapped (s : Mm) (ptr : BitVec 64) (len : Nat) : Prop :=
  ∀ x, ptr.toNat ≤ x → x < ptr.toNat + len →
    x < 2 ^ 64 ∧ (translate s.mem (pte_addr s.cr3) (BitVec.ofNat 64 x)).isSome = true

def AllocOp.Granted (a : Allocators) : AllocOp → Prop
  | .kmalloc size => IsBlock a (Code.kmalloc a.vm.heap_ptr size).1 size.toNat
  | .kcalloc nmemb size =>
    let (ptr, _, bytes) := Code.kcalloc a.vm.heap_ptr a.bytes nmemb size
    IsBlock a ptr (nmemb.toNat * size.toNat) ∧
      ∀ p, ptr = some p → ∀ i < nmemb.toNat * size.toNat, bytes (p + i) = 0
  | .vmalloc size => ∀ ptr k, Code.vmalloc a.vm size = .ok (ptr, k) → ptr ≠ 0 →
    IsMapped k.mm ptr size.toNat
  | _ => True

structure Met (a : Allocators) (op : AllocOp) (a' : Allocators) : Prop where
  granted : op.Granted a
  heap_ptr : a.vm.heap_ptr.toNat ≤ a'.vm.heap_ptr.toNat
  vmalloc_ptr : a.vm.vmalloc_ptr.toNat ≤ a'.vm.vmalloc_ptr.toNat

/-- Requests whose length the code computes without an error that counts. -/
def AllocOp.Fits (a : Allocators) : AllocOp → Prop
  | .kmalloc size => a.vm.heap_ptr.toNat + size.toNat < 2 ^ 64
  | .kcalloc nmemb size =>
    a.vm.heap_ptr.toNat + nmemb.toNat * size.toNat ≤ 4194304 ∨
      4194304 < (a.vm.heap_ptr.toNat + nmemb.toNat * size.toNat) % 2 ^ 64
  | .vmalloc size => size.toNat ≤ 2 ^ 44 - 4096
  | _ => True

/-! ## The invariant -/

/-- The heap is used from its start on, and the areas that are recorded have their pages. A page
that was given out is free again, belongs to an area, or was lost when the heap was full. -/
structure Kept (a : Allocators) (r : BitVec 64) (n : Nat) (areas : List Area) : Prop where
  mapping : Mapping SmallPath a.vm.mm r n areas
  records : Records a.vm areas
  current_pgd : a.vm.mm.current_pgd = some r
  root : pte_addr a.vm.mm.cr3 = r
  vmalloc_ptr : a.vm.vmalloc_ptr = windowPage n
  count : n + (freePages a.vm.mm.pmm).card + areaCount areas ≤ 2048 * a.vm.heap_ptr.toNat + 65536
  aligned : a.vm.heap_ptr.toNat % 16 = 0
  heap : a.vm.heap_ptr.toNat ≤ 4194304
  blocks : ∀ b ∈ a.blocks, b.1 + b.2 ≤ a.vm.heap_ptr.toNat

variable {a a' : Allocators} {r : BitVec 64} {n : Nat} {areas : List Area} {k : Vm}

theorem Kept.next_le (h : Kept a r n areas) : n ≤ 8590000128 := by
  have hcount := h.count
  have hheap := h.heap
  omega

theorem Records.grow (h : Records k areas) (hle : k.heap_ptr.toNat ≤ heap_ptr.toNat) :
    Records { k with heap_ptr := heap_ptr } areas :=
  ⟨h.ring, fun a ha => (h.fresh a ha).trans_le hle, h.addr, h.size⟩

theorem Kept.grow {bytes : Mem} {blocks : List (Nat × Nat)} (h : Kept a r n areas)
    (hle : a.vm.heap_ptr.toNat ≤ heap_ptr.toNat) (haligned : heap_ptr.toNat % 16 = 0)
    (hheap : heap_ptr.toNat ≤ 4194304) (hblocks : ∀ b ∈ blocks, b.1 + b.2 ≤ heap_ptr.toNat) :
    Kept ⟨{ a.vm with heap_ptr := heap_ptr }, bytes, blocks⟩ r n areas := by
  refine ⟨h.mapping, h.records.grow hle, h.current_pgd, h.root, h.vmalloc_ptr, ?_, haligned,
    hheap, hblocks⟩
  have hcount := h.count
  dsimp only
  omega

theorem Kept.block (bytes : Mem) {len : Nat} {ptr : Option Nat}
    (h : Kept a r n areas) (hk : kmalloc a.vm.heap_ptr size = (ptr, heap_ptr))
    (hsum : a.vm.heap_ptr.toNat + size.toNat < 2 ^ 64) (hlen : ptr.isSome = true → len = size.toNat) :
    IsBlock a ptr len ∧ a.vm.heap_ptr.toNat ≤ heap_ptr.toNat ∧
      Kept ⟨{ a.vm with heap_ptr := heap_ptr }, bytes, addBlock a.blocks ptr len⟩ r n areas := by
  have haligned := h.aligned
  have hheap := h.heap
  rcases kmalloc_of_sum a.vm.heap_ptr size hsum with ⟨hnone, -⟩ | ⟨heap_ptr', hsome, hle, hptr⟩
  · cases hk.symm.trans hnone
    exact ⟨by rintro p ⟨⟩, le_rfl, h.grow le_rfl haligned hheap h.blocks⟩
  · cases hk.symm.trans hsome
    obtain rfl := hlen rfl
    refine ⟨?_, by omega, h.grow (by omega) (by omega) (by omega) ?_⟩
    · rintro p ⟨⟩
      exact ⟨hle, h.blocks⟩
    · intro b hb
      rcases List.mem_cons.mp hb with rfl | hb
      · dsimp only
        omega
      · have := h.blocks b hb
        omega

/-! ## Each call -/

theorem Kept.kmalloc (h : Kept a r n areas) (hfits : (AllocOp.kmalloc size).Fits a)
    (hstep : (AllocOp.kmalloc size).step a = .ok a') :
    Met a (.kmalloc size) a' ∧ Kept a' r n areas := by
  obtain ⟨ptr, heap_ptr, hk⟩ : ∃ ptr heap_ptr, Code.kmalloc a.vm.heap_ptr size = (ptr, heap_ptr) :=
    ⟨_, _, rfl⟩
  obtain ⟨hblock, hle, hkept⟩ := h.block a.bytes hk hfits fun _ => rfl
  rw [AllocOp.step, hk] at hstep
  cases hstep
  refine ⟨⟨?_, hle, le_rfl⟩, hkept⟩
  rw [AllocOp.Granted, hk]
  exact hblock

theorem Kept.kcalloc {nmemb : BitVec 64} (h : Kept a r n areas)
    (hfits : (AllocOp.kcalloc nmemb size).Fits a)
    (hstep : (AllocOp.kcalloc nmemb size).step a = .ok a') :
    Met a (.kcalloc nmemb size) a' ∧ Kept a' r n areas := by
  have hheap := h.heap
  obtain ⟨ptr, heap_ptr, hk⟩ : ∃ ptr heap_ptr, Code.kmalloc a.vm.heap_ptr (nmemb * size) =
      (ptr, heap_ptr) := ⟨_, _, rfl⟩
  have hmul : (nmemb * size).toNat = nmemb.toNat * size.toNat % 2 ^ 64 := BitVec.toNat_mul ..
  have hlt := (nmemb * size).isLt
  unfold AllocOp.Fits at hfits
  have hsum : a.vm.heap_ptr.toNat + (nmemb * size).toNat < 2 ^ 64 := by
    rw [hmul]
    omega
  have hlen : ptr.isSome = true → nmemb.toNat * size.toNat = (nmemb * size).toNat := by
    intro hsome
    rcases kmalloc_of_sum a.vm.heap_ptr (nmemb * size) hsum with ⟨hnone, -⟩ | ⟨heap_ptr', -, hle, -⟩
    · cases hk.symm.trans hnone
      cases hsome
    · rw [hmul] at hle ⊢
      omega
  obtain ⟨hblock, hle, hkept⟩ :=
    h.block (Code.kcalloc a.vm.heap_ptr a.bytes nmemb size).2.2 hk hsum hlen
  cases ptr with
  | none =>
    rw [Code.kcalloc, hk] at hkept
    rw [AllocOp.step, Code.kcalloc, hk] at hstep
    cases hstep
    refine ⟨⟨?_, hle, le_rfl⟩, hkept⟩
    rw [AllocOp.Granted, Code.kcalloc, hk]
    exact ⟨hblock, by rintro p ⟨⟩⟩
  | some p =>
    rw [Code.kcalloc, hk] at hkept
    rw [AllocOp.step, Code.kcalloc, hk] at hstep
    cases hstep
    refine ⟨⟨?_, hle, le_rfl⟩, hkept⟩
    rw [AllocOp.Granted, Code.kcalloc, hk]
    refine ⟨hblock, ?_⟩
    rintro _ ⟨⟩ i hi
    rw [kmemset_apply, if_pos (by rw [← hlen rfl]; omega)]

theorem Mapping.isMapped {s : Mm} {b : Area} (h : Mapping SmallPath s r n areas) (hb : b ∈ areas)
    (hn : n ≤ 8590000128 + 4294967296) (hlen : b.frames.length = pageCount size)
    (hroot : pte_addr s.cr3 = r) : IsMapped s (windowPage b.first) size.toNat := by
  have hstop : b.first + b.frames.length ≤ n := h.below b hb
  intro x hlow hhigh
  unfold pageCount at hlen
  have hfirst : b.first < windowPages := by
    unfold windowPages
    omega
  rw [toNat_windowPage hfirst] at hlow hhigh
  obtain ⟨i, hi, hx⟩ : ∃ i < b.frames.length, x / 4096 =
      (0xFFFFC90000000000 + 4096 * (b.first + i)) / 4096 :=
    ⟨(x - (0xFFFFC90000000000 + 4096 * b.first)) / 4096, by omega, by omega⟩
  have hwin : b.first + i < windowPages := by
    unfold windowPages
    omega
  have hlt : x < 2 ^ 64 := by omega
  have htoNat : (BitVec.ofNat 64 x).toNat = x := by
    rw [BitVec.toNat_ofNat, Nat.mod_eq_of_lt hlt]
  have hcanon : Canonical (BitVec.ofNat 64 x) := by
    unfold Canonical
    rw [htoNat]
    omega
  have hpath : pathOf (BitVec.ofNat 64 x) 4 = pathOf (windowPage (b.first + i)) 4 := by
    rw [path_window_iff hcanon hwin, htoNat, toNat_windowPage hwin]
    omega
  obtain ⟨f, hf⟩ : ∃ f, b.frames[i]? = some f := ⟨_, List.getElem?_eq_getElem hi⟩
  have hleaf : leaf s.mem r (BitVec.ofNat 64 x) = pageEntry f PTE_WRITABLE :=
    (leaf_congr _ _ hpath).trans (h.mapped b hb i f hf)
  unfold leaf at hleaf
  refine ⟨hlt, ?_⟩
  rw [hroot, h.tables.translate_eq rfl (hpath ▸ WindowKind.window _ hwin), hleaf,
    if_pos (pageEntry_present f _)]
  rfl

theorem Kept.lost {b : Area} (h : Kept a r n areas) (hvm : Vmalloced SmallPath a.vm k r n areas b)
    (hheap : k.heap_ptr = a.vm.heap_ptr) (hrec : Records k areas) :
    Kept ⟨k, a.bytes, a.blocks⟩ r b.stop areas := by
  refine ⟨hvm.mapping.sublist (List.sublist_cons_self _ _), hrec,
    hvm.grown.only.current_pgd.trans h.current_pgd, by rw [hvm.grown.only.cr3, h.root],
    hvm.vmalloc_ptr, ?_, ?_, ?_, ?_⟩
  · have hcount := h.count
    have hfree := hvm.free_card
    have hstop : b.stop = n + b.frames.length := by rw [Area.stop, hvm.first]
    dsimp only
    rw [hheap]
    omega
  · rw [hheap]
    exact h.aligned
  · rw [hheap]
    exact h.heap
  · rw [hheap]
    exact h.blocks

theorem Kept.recorded {b : Area} (h : Kept a r n areas) (hvm : Vmalloced SmallPath a.vm k r n areas b)
    (hroom : a.vm.heap_ptr.toNat + 32 ≤ 4194304) (hheap : k.heap_ptr.toNat = a.vm.heap_ptr.toNat + 32)
    (hrec : Records k (b :: areas)) :
    Kept ⟨k, a.bytes, (a.vm.heap_ptr.toNat, 32) :: a.blocks⟩ r b.stop (b :: areas) := by
  have haligned := h.aligned
  refine ⟨hvm.mapping, hrec, hvm.grown.only.current_pgd.trans
    h.current_pgd, by rw [hvm.grown.only.cr3, h.root],
    hvm.vmalloc_ptr, ?_, ?_, ?_, ?_⟩
  · have hcount := h.count
    have hfree := hvm.free_card
    have hframes := hvm.mapping.length_le List.mem_cons_self
    have hstop : b.stop = n + b.frames.length := by rw [Area.stop, hvm.first]
    have hsum : areaCount (b :: areas) = b.frames.length + areaCount areas := by simp [areaCount]
    dsimp only
    omega
  · dsimp only
    omega
  · dsimp only
    omega
  · intro c hc
    dsimp only
    rw [hheap]
    rcases List.mem_cons.mp hc with rfl | hc
    · exact le_rfl
    · have := h.blocks c hc
      omega

theorem Kept.vmalloc (h : Kept a r n areas) (hfits : (AllocOp.vmalloc size).Fits a)
    (hstep : (AllocOp.vmalloc size).step a = .ok a') :
    Met a (.vmalloc size) a' ∧ ∃ n' areas', Kept a' r n' areas' := by
  obtain ⟨⟨ptr, k⟩, hv, hstep⟩ := bind_ok.mp hstep
  by_cases hsize : size = 0
  · subst hsize
    cases hv
    cases hstep
    refine ⟨⟨?_, le_rfl, le_rfl⟩, n, areas, h⟩
    rintro _ _ ⟨⟩ hnull
    exact absurd rfl hnull
  rw [if_neg hsize] at hstep
  have hpages := pages_needed_eq hfits
  have hnext := h.next_le
  have hlt : pageCount size < 4294967296 := by
    unfold AllocOp.Fits at hfits
    unfold pageCount
    omega
  obtain ⟨rfl, b, hlen, hvm⟩ := vmalloc_spec h.mapping h.records (.inl h.current_pgd)
    (currentUsed_of_forest h.mapping.tables h.current_pgd) h.vmalloc_ptr
      (by rw [hpages]; unfold windowPages; omega) hsize hv
  rw [hpages] at hlen
  have hstop : b.stop = n + b.frames.length := by rw [Area.stop, hvm.first]
  have hroot : pte_addr k.mm.cr3 = r := by rw [hvm.grown.only.cr3, h.root]
  have hgranted : (AllocOp.vmalloc size).Granted a := by
    rintro ptr' k' hv' -
    cases hv.symm.trans hv'
    rw [← hvm.first]
    exact hvm.mapping.isMapped List.mem_cons_self (by omega) hlen hroot
  have hptr : a.vm.vmalloc_ptr.toNat ≤ k.vmalloc_ptr.toNat := by
    rw [h.vmalloc_ptr, hvm.vmalloc_ptr, toNat_windowPage (by unfold windowPages; omega),
      toNat_windowPage (by unfold windowPages; omega)]
    omega
  have hsz : sizeof_vm_struct.toNat = 32 := rfl
  rcases kmalloc_spec a.vm.heap_ptr sizeof_vm_struct (by decide) with
    ⟨hk, hfull⟩ | ⟨heap_ptr, hk, hle, -⟩
  · obtain ⟨-, hheap, hrec⟩ | ⟨hroom, -⟩ := hvm.records
    · rw [hk] at hstep
      cases hstep
      exact ⟨⟨hgranted, by rw [hheap], hptr⟩, b.stop, areas, h.lost hvm hheap hrec⟩
    · omega
  · obtain ⟨hfull, -⟩ | ⟨hroom, hheap, hrec⟩ := hvm.records
    · omega
    · rw [hk] at hstep
      cases hstep
      exact ⟨⟨hgranted, by dsimp only; omega, hptr⟩, b.stop, b :: areas,
        h.recorded hvm hroom hheap hrec⟩

theorem Kept.vfree {ptr : BitVec 64} (h : Kept a r n areas)
    (hstep : (AllocOp.vfree ptr).step a = .ok a') :
    Met a (.vfree ptr) a' ∧ ∃ areas', Kept a' r n areas' := by
  obtain ⟨k, hv, hstep⟩ := bind_ok.mp hstep
  cases hstep
  have hwin : n ≤ windowPages := by
    have := h.next_le
    unfold windowPages
    omega
  by_cases hnull : ptr = 0
  · subst hnull
    cases hv
    exact ⟨⟨trivial, le_rfl, le_rfl⟩, areas, h⟩
  cases hfind : findArea areas ptr with
  | none =>
    cases hv.symm.trans (vfree_none h.records hfind)
    exact ⟨⟨trivial, le_rfl, le_rfl⟩, areas, h⟩
  | some b =>
    obtain ⟨A, B, k', rfl, -, -, hfree, hrec, hmm, hheap, hptr⟩ := vfree_some h.records
      (fun _ => h.mapping.length_le) hnull hfind
    cases hv.symm.trans hfree
    have hmem : b ∈ A ++ b :: B := by simp
    have hret := h.mapping.returned hmem (.inl h.current_pgd) hwin le_rfl
    rw [← hmm] at hret
    refine ⟨⟨trivial, by rw [hheap], by rw [hptr]⟩, A ++ B, h.mapping.remove hwin hret, hrec,
      hret.current_pgd.trans h.current_pgd, by rw [hret.cr3, h.root], hptr.trans h.vmalloc_ptr,
        ?_, ?_, ?_, ?_⟩
    · have hcount := h.count
      have hsum : areaCount (A ++ b :: B) = b.frames.length + areaCount (A ++ B) := by
        simp only [areaCount, List.map_append, List.map_cons, List.sum_append, List.sum_cons]
        omega
      dsimp only
      rw [hret.free_card h.mapping hmem, hheap]
      omega
    · rw [hheap]
      exact h.aligned
    · rw [hheap]
      exact h.heap
    · rw [hheap]
      exact h.blocks

/-! ## Runs -/

theorem kept_step {op : AllocOp} (h : ∃ n areas, Kept a r n areas) (hfits : op.Fits a)
    (hstep : op.step a = .ok a') : Met a op a' ∧ ∃ n areas, Kept a' r n areas := by
  obtain ⟨n, areas, h⟩ := h
  cases op with
  | kmalloc size =>
    obtain ⟨hmet, hkept⟩ := h.kmalloc hfits hstep
    exact ⟨hmet, n, areas, hkept⟩
  | kcalloc nmemb size =>
    obtain ⟨hmet, hkept⟩ := h.kcalloc hfits hstep
    exact ⟨hmet, n, areas, hkept⟩
  | kfree ptr =>
    cases hstep
    exact ⟨⟨trivial, le_rfl, le_rfl⟩, n, areas, h.grow le_rfl h.aligned h.heap h.blocks⟩
  | vmalloc size => exact h.vmalloc hfits hstep
  | vfree ptr =>
    obtain ⟨hmet, hkept⟩ := h.vfree hstep
    exact ⟨hmet, n, hkept⟩
  | store i c =>
    cases hstep
    exact ⟨⟨trivial, le_rfl, le_rfl⟩, n, areas, h.grow le_rfl h.aligned h.heap h.blocks⟩

def Allocators.start (mm : Mm) (heap_ptr : BitVec 32) (bytes : Mem) : Allocators :=
  ⟨Vm.start mm heap_ptr, bytes, [(0, heap_ptr.toNat)]⟩

theorem kept_start {p4 kernel_end : BitVec 64} {m bytes : Mem} {mm : Mm}
    (hlayout : Layout p4 m kernel_end) (hinit : arch_paging_init (start_mm p4 m kernel_end) = .ok mm)
    (haligned : heap_ptr.toNat % 16 = 0) (hheap : heap_ptr.toNat ≤ 4194304) :
    Kept (.start mm heap_ptr bytes) p4 0 [] := by
  have hboot := (booted hlayout hinit).1
  have hstart := holds_start hboot heap_ptr
  have haddr := hlayout.addr_table (n := 0) (by omega)
  rw [boot_table_zero] at haddr
  refine ⟨hstart.mapping, hstart.records, hstart.current_pgd, ?_, hstart.vmalloc_ptr, ?_,
    haligned, hheap, ?_⟩
  · rw [show (Allocators.start mm heap_ptr bytes).vm.mm.cr3 = p4 from hboot.cr3, haddr]
  · have hfree : (freePages mm.pmm).card + areaCount [] ≤ 65536 := hstart.mapping.free_add_le
    change 0 + (freePages mm.pmm).card + areaCount [] ≤ 2048 * heap_ptr.toNat + 65536
    omega
  · intro b hb
    rw [List.mem_singleton.mp hb]
    exact (Nat.zero_add _).le

/-- In every run of requests that fit, each result is what was asked for, and no pointer goes back. -/
theorem requests_met {p4 kernel_end : BitVec 64} {m bytes : Mem} {mm : Mm} {heap_ptr : BitVec 32}
    {ops : List AllocOp} (hlayout : Layout p4 m kernel_end)
    (hinit : arch_paging_init (start_mm p4 m kernel_end) = .ok mm)
    (haligned : heap_ptr.toNat % 16 = 0) (hheap : heap_ptr.toNat ≤ 4194304)
    (hfits : ∀ x ∈ trace AllocOp.step (.start mm heap_ptr bytes) ops, x.2.1.Fits x.1) :
    ∀ x ∈ trace AllocOp.step (.start mm heap_ptr bytes) ops, Met x.1 x.2.1 x.2.2 :=
  trace_met (C := AllocOp.Fits) (P := Met) (fun a => ∃ n areas, Kept a p4 n areas)
    (fun _ _ _ h hfits hstep => kept_step h hfits hstep)
      ⟨0, [], kept_start hlayout hinit haligned hheap⟩ hfits

/-- A block, an array and a range of one page. -/
theorem requests_met_small : ∃ mm a1 a2 a3,
    arch_paging_init (start_mm 0x110000 (fun _ => 0) 0xFFFFFFFF80200000) = .ok mm ∧
    trace AllocOp.step (.start mm 0 fun _ => 1) [.kmalloc 32, .kcalloc 3 8, .vmalloc 4096] =
      [(.start mm 0 fun _ => 1, .kmalloc 32, a1), (a1, .kcalloc 3 8, a2), (a2, .vmalloc 4096, a3)] ∧
    a2.bytes 55 = 0 ∧ a2.bytes 56 = 1 ∧
    Met (.start mm 0 fun _ => 1) (.kmalloc 32) a1 ∧ Met a1 (.kcalloc 3 8) a2 ∧
      Met a2 (.vmalloc 4096) a3 := by
  obtain ⟨mm, hinit, hpool⟩ := arch_paging_init_pool (n := 65018) small_pool
  obtain ⟨a1, h1, hvm1, hbytes1⟩ : ∃ a1, AllocOp.step (.start mm 0 fun _ => 1) (.kmalloc 32) = .ok a1 ∧
      a1.vm = { Vm.start mm 0 with heap_ptr := 32 } ∧ a1.bytes = fun _ => 1 := ⟨_, rfl, rfl, rfl⟩
  obtain ⟨a2, h2, hvm2, hbytes2⟩ : ∃ a2, AllocOp.step a1 (.kcalloc 3 8) = .ok a2 ∧
      a2.vm = { Vm.start mm 0 with heap_ptr := 64 } ∧ a2.bytes = kmemset (fun _ => 1) 32 0 24 := by
    rw [AllocOp.step, hvm1, hbytes1]
    exact ⟨_, rfl, rfl, rfl⟩
  have hfits1 : (AllocOp.kmalloc 32).Fits (.start mm 0 fun _ => 1) := show 0 + 32 < 2 ^ 64 by decide
  have hfits2 : (AllocOp.kcalloc 3 8).Fits a1 := by
    rw [AllocOp.Fits, hvm1]
    exact .inl (show 32 + 3 * 8 ≤ 4194304 by decide)
  have hfits3 : (AllocOp.vmalloc 4096).Fits a2 := show 4096 ≤ 2 ^ 44 - 4096 by decide
  obtain ⟨-, hkept1⟩ :=
    kept_step ⟨0, [], kept_start small_layout hinit (by decide) (by decide)⟩ hfits1 h1
  obtain ⟨-, n, areas, hkept2⟩ := kept_step hkept1 hfits2 h2
  obtain ⟨ptr, k, hv, -⟩ := vmalloc_pool (k := a2.vm) (n := 65014) 4096 (by rw [hvm2]; exact hpool)
    hkept2.records
    hkept2.vmalloc_ptr
  obtain ⟨a3, h3⟩ : ∃ a3, AllocOp.step a2 (.vmalloc 4096) = .ok a3 := ⟨_, bind_ok.mpr ⟨_, hv, rfl⟩⟩
  have htrace : trace AllocOp.step (.start mm 0 fun _ => 1) [.kmalloc 32, .kcalloc 3 8, .vmalloc 4096] =
      [(.start mm 0 fun _ => 1, .kmalloc 32, a1), (a1, .kcalloc 3 8, a2), (a2, .vmalloc 4096, a3)] := by
    rw [trace_cons h1, trace_cons h2, trace_cons h3]
    rfl
  have hfits : ∀ x ∈ trace AllocOp.step (.start mm 0 fun _ => 1)
    [.kmalloc 32, .kcalloc 3 8, .vmalloc 4096],
      x.2.1.Fits x.1 := by
    simp only [htrace, List.mem_cons, List.not_mem_nil, or_false, forall_eq_or_imp, forall_eq]
    exact ⟨hfits1, hfits2, hfits3⟩
  have hmet := requests_met small_layout hinit (by decide) (by decide) hfits
  simp only [htrace, List.mem_cons, List.not_mem_nil, or_false, forall_eq_or_imp, forall_eq] at hmet
  refine ⟨mm, a1, a2, a3, hinit, htrace, ?_, ?_, hmet⟩
  · rw [hbytes2]
    rfl
  · rw [hbytes2]
    rfl

/-- Sums and products that wrap. The first request moves `heap_ptr` back, the second gets no byte,
and the third no page. -/
theorem wrapped_requests :
    ∃ mm a a', arch_paging_init (start_mm 0x110000 (fun _ => 0) 0xFFFFFFFF80200000) = .ok mm ∧
    run AllocOp.step (.start mm 0 fun _ => 1) [.kmalloc 32] = .ok a ∧
    AllocOp.step a (.kmalloc 0xFFFFFFFFFFFFFFF0) = .ok a' ∧
    a'.vm.heap_ptr.toNat < a.vm.heap_ptr.toNat ∧ ¬ (AllocOp.kmalloc 0xFFFFFFFFFFFFFFF0).Granted a ∧
    ¬ (AllocOp.kcalloc 0x100000000 0x100000000).Granted a ∧
    ¬ (AllocOp.vmalloc 0xFFFFFFFFFFFFFFFF).Granted a := by
  obtain ⟨mm, hinit, -⟩ := arch_paging_init_pool (n := 65018) small_pool
  have hfirst : kmalloc 0 32 = (some 0, 32) := by decide
  have hwrap : kmalloc 32 0xFFFFFFFFFFFFFFF0 = (some 32, 16) := by decide
  obtain ⟨a, ha⟩ : ∃ a : Allocators, a =
      ⟨{ Vm.start mm 0 with heap_ptr := 32 }, fun _ => 1, [(0, 32), (0, 0)]⟩ := ⟨_, rfl⟩
  have hheap : a.vm.heap_ptr = 32 := by rw [ha]
  obtain ⟨a', ha'⟩ : ∃ a' : Allocators, a' =
      ⟨{ a.vm with heap_ptr := 16 }, a.bytes, (32, 0xFFFFFFFFFFFFFFF0) :: a.blocks⟩ := ⟨_, rfl⟩
  refine ⟨mm, a, a', hinit, ?_, ?_, ?_, ?_, ?_, ?_⟩
  · rw [ha]
    refine bind_ok.mpr ⟨_, ?_, rfl⟩
    rw [AllocOp.step, show (Allocators.start mm 0 fun _ => 1).vm.heap_ptr = 0 from rfl, hfirst]
    rfl
  · rw [ha', AllocOp.step, hheap, hwrap]
    rfl
  · rw [ha', hheap]
    exact show 16 < 32 by decide
  · intro h
    rw [AllocOp.Granted, hheap, hwrap] at h
    have hin : 32 + 0xFFFFFFFFFFFFFFF0 ≤ 4194304 := (h 32 rfl).1
    omega
  · intro h
    rw [AllocOp.Granted, hheap] at h
    have hin : 32 + 0x100000000 * 0x100000000 ≤ 4194304 := (h.1 32 rfl).1
    omega
  · intro h
    rw [ha] at h
    obtain ⟨k, hv⟩ : ∃ k, vmalloc { Vm.start mm 0 with heap_ptr := 32 } 0xFFFFFFFFFFFFFFFF =
      .ok (VMALLOC_START, k) := ⟨_, rfl⟩
    have hlast := h VMALLOC_START k hv (by decide) (2 ^ 64) (by decide) (by decide)
    exact lt_irrefl _ hlast.1

end Relis.Vmalloc
