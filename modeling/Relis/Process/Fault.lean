import Relis.Paging.Protect
import Relis.Process.Steady

/-!
# Faults

A fault on the stack gets a new frame. No entry is ever marked for copy-on-write, but the
walk goes into the data of huge pages, and a word there may look like a marked entry.
-/

open Relis.Bytes Relis.Code Relis.PageAlloc Relis.Paging Relis.Run Relis.Sched Relis.Slab

namespace Relis.Process

variable {s0 s s' s1 : Mm} {roots : Set (BitVec 64)} {r boot v addr err cr3 : BitVec 64}
  {k' : Kernel} {w w' : World}
  {p0 : Nat}

/-! ## What the hardware reports -/

/-- A fault as the hardware reports it. Of the error code, bit 0 says that the page is there, bit 1 that
the access was a write, and bit 2 that it came from ring 3. -/
structure HardwareFault (s : Mm) (addr err : BitVec 64) : Prop where
  canonical : Canonical addr
  present : has err 1 = false ↔ translate s.mem (pte_addr s.cr3) addr = none
  denied : ¬ Permits s.mem (pte_addr s.cr3) addr (has err 4) (has err 2)

/-- The page of `addr` lies in the stack of the task. Its frame is zero, and no other user page of a
space has it. -/
structure StackPage (roots : Set (BitVec 64)) (k k' : Kernel) (addr a : BitVec 64) : Prop where
  start : (k.task k.current_task).stack_start.toNat ≤ (addr &&& PAGE_MASK).toNat
  stop : (addr &&& PAGE_MASK).toNat + 4096 ≤ (k.task k.current_task).stack_end.toNat
  frame : translate k'.mm.mem (pte_addr k'.mm.cr3) (addr &&& PAGE_MASK) = some a
  zero : ∀ x < 4096, k'.mm.mem (a.toNat + x) = 0
  alone : ∀ r ∈ roots, ∀ v b, UserHalf v → translate k'.mm.mem r v = some b → pageOf b = pageOf a →
    r = pte_addr k'.mm.cr3 ∧ pageNumber v = pageNumber addr

/-- What a fault handler is for, when it returns. -/
structure Repaired (boot : BitVec 64) (roots : Set (BitVec 64)) (k k' : Kernel)
  (addr err : BitVec 64) : Prop where
  permits : Permits k'.mm.mem (pte_addr k'.mm.cr3) addr (has err 4) (has err 2)
  page : translate k.mm.mem (pte_addr k.mm.cr3) addr = none → ∃ a, StackPage roots k k' addr a
  others : ∀ r, r ∈ roots ∨ r = boot → ∀ v, ¬ (r = pte_addr k.mm.cr3 ∧ pageNumber v = pageNumber addr) →
    translate k'.mm.mem r v = translate k.mm.mem r v

/-- The word where `walk_page_table` ends, if it finds a table or a huge page. -/
def walkWord (s : Mm) (v : BitVec 64) : BitVec 64 :=
  table_get s.mem (pte_addr (middleEntry s.mem (pte_addr s.cr3) v)) (pte_index v)

/-- A write fault in a huge page whose data looks like an entry for copy-on-write, with
an address that the handler can copy from. -/
def Misread (s : Mm) (addr err : BitVec 64) : Prop :=
  has err 2 = true ∧ HugeOn s.mem (pte_addr s.cr3) addr ∧
    has (walkWord s addr) PTE_PRESENT = true ∧ has (walkWord s addr) PTE_COW = true ∧
    direct_mapped (pte_addr (walkWord s addr)) = true

/-! ## The boot tables -/

structure BootTables (boot : BitVec 64) (s0 : Mm) : Prop where
  unmarked : ∀ p i, (∀ j ∈ p, j < 512) → p.length ≤ 3 → i < 512 →
    has (slot s0.mem boot p i) PTE_COW = false
  small : ∀ v, has (slot s0.mem boot (pathOf v 1) (indexOf v 1)) PTE_PRESENT = true →
    has (slot s0.mem boot (pathOf v 1) (indexOf v 1)) PTE_HUGE = false
  used : ∀ k ∈ spacePages s0.mem boot, s0.pmm.page_used k = true

section Boot

variable {p4 kernel_end : BitVec 64} {m : Mem} {mm : Mm}

theorem bootTables (h : Layout p4 m kernel_end)
    (hinit : arch_paging_init (start_mm p4 m kernel_end) = .ok mm) : BootTables p4 mm := by
  obtain ⟨hbooted, -⟩ := Vmalloc.booted h hinit
  refine ⟨fun p i hp hn hi => ?_, fun v hpres => ?_, ?_⟩
  · cases ht : node mm.mem p4 p with
    | none => rw [slot_of_none ht, zero_has]
    | some t => exact init_unmarked h hinit p i (hbooted.closed.smallPath hp ht) hn hi
  · refine hbooted.tables.small p4 rfl _ _ ?_ (by simp) hpres
    rw [← pathOf_succ]
    exact smallPath_of_length (fun j hj => lt_of_mem_pathOf hj) (by simp)
  · rintro k ⟨p, t, hp, hn, ht, rfl⟩
    exact hbooted.tables.used p4 rfl p t (hbooted.closed.smallPath hp ht) hn ht

theorem BootTables.steady (h : BootTables boot s) : Steady boot s s ∅ :=
  ⟨by simp, by simp, fun k hk => ⟨⟨h.used k hk, by simp [tablePages]⟩, fun _ _ => rfl⟩⟩

end Boot

/-! ## Ways through the boot tables -/

theorem Steady.way (hs : Steady boot s0 s roots) (h : Unmarked boot s roots)
    (hr : (r ∈ roots ∧ KernelHalf v) ∨ r = boot) {n : Nat} (hn : n ≤ 3) :
    slot s.mem r (pathOf v n) (indexOf v n) = slot s0.mem boot (pathOf v n) (indexOf v n) := by
  rcases hr with ⟨hr, hv⟩ | rfl
  · refine slots_kernel (hs.kernel r hr) (fun p t hp _ hlen ht => ?_) hv hn
    exact (hs.tables _ ⟨p, t, KernelPath.lt hp, hlen, ht, rfl⟩).2
  · have hsame : SameOn (OnWay v 4) s0.mem s.mem r := fun p i t hp hlen ht =>
      (hs.tables _ ⟨p, t, OnWay.lt (PathKind.init hp), hlen, ht, rfl⟩).2.table_get
        (node_aligned h.boot_aligned ht) (OnWay.lt hp i (by simp))
    refine hsame.slot ?_ (by simpa using hn)
    rw [← pathOf_succ]
    exact PathKind.pathOf (V := OnWay v 4) (List.prefix_refl _) (by omega)

theorem home_cases (h : Unmarked boot s roots) (hcr3 : AtHome boot roots cr3) (v : BitVec 64) :
    ((pte_addr cr3 ∈ roots ∧ KernelHalf v) ∨ pte_addr cr3 = boot) ∨
      (pte_addr cr3 ∈ roots ∧ UserHalf v) := by
  rcases hcr3 with hr | hboot
  · have hroot : pte_addr cr3 ∈ roots := (h.addr _ hr).symm ▸ hr
    rcases Nat.lt_or_ge (pgd_index v) 256 with hlt | hge
    · exact .inr ⟨hroot, hlt⟩
    · exact .inl (.inl ⟨hroot, hge⟩)
  · exact .inl (.inr hboot)

section Steady

variable (hs : Steady boot s0 s roots) (h : Unmarked boot s roots) (hb : BootTables boot s0)

include hs h hb

theorem Steady.pageTable (hcr3 : AtHome boot roots s.cr3) : PageTable s.mem (pte_addr s.cr3) := by
  refine ⟨addr_aligned _, fun v hpres => ?_⟩
  rcases home_cases h hcr3 v with hway | ⟨hr, hv⟩
  · rw [hs.way h hway (by omega)] at hpres ⊢
    exact hb.small v hpres
  · exact h.tables.small _ hr _ _ (pathOf_succ_user hv 1) (by simp) hpres

theorem Steady.leaf_unmarked (hcr3 : AtHome boot roots s.cr3) (v : BitVec 64) :
    has (slot s.mem (pte_addr s.cr3) (pathOf v 3) (indexOf v 3)) PTE_COW = false := by
  rcases home_cases h hcr3 v with hway | ⟨hr, hv⟩
  · rw [hs.way h hway (le_refl 3)]
    exact hb.unmarked _ _ (fun j hj => lt_of_mem_pathOf hj) (by simp) (indexOf_lt v 3)
  · exact h.entries _ hr _ _ (pathOf_user hv 3) (by simp) (indexOf_lt v 3)

/-! ## Copy-on-write -/

theorem cow_entry_huge {pte : Nat} {e : BitVec 64} (hcr3 : AtHome boot roots s.cr3)
    (hpgd : s.current_pgd = some (pte_addr s.cr3)) (hcow : cow_entry s v = some (pte, e)) :
    HugeOn s.mem (pte_addr s.cr3) v ∧
      has (walkWord s v) PTE_PRESENT = true ∧ has (walkWord s v) PTE_COW = true ∧
      pte = (pte_addr (middleEntry s.mem (pte_addr s.cr3) v)).toNat + 8 * pte_index v ∧
        e = walkWord s v := by
  unfold cow_entry at hcow
  simp only [Option.bind_eq_bind, Option.bind_eq_some_iff] at hcow
  obtain ⟨pte', hwalk, ⟨⟩, hguard, hcow⟩ := hcow
  cases hcow
  rw [walk_page_table_middle hpgd (hs.pageTable h hb hcr3)] at hwalk
  split_ifs at hwalk with hpres
  cases hwalk
  rw [Option.guard_eq_some', Bool.and_eq_true] at hguard
  refine ⟨⟨hpres, ?_⟩, hguard.1, hguard.2, rfl, rfl⟩
  -- Without the huge bit, the word is an entry of the last level.
  by_contra hsmall
  have hnode : node s.mem (pte_addr s.cr3) (pathOf v 3) =
      some (pte_addr (middleEntry s.mem (pte_addr s.cr3) v)) := by
    rw [node_pathOf_succ]
    exact child_of_small hpres fun _ => Bool.eq_false_iff.mpr hsmall
  have hleaf := hs.leaf_unmarked h hb hcr3 v
  rw [slot_of_node hnode] at hleaf
  exact Bool.eq_false_iff.mp hleaf hguard.2

theorem Steady.word_page {t : BitVec 64} {i : Nat} (ht : Aligned t) (hi : i < 512)
    (hmark : has (table_get s.mem t i) PTE_COW = true) :
    (∀ r ∈ roots, pageOf t ∉ userPages s.mem r) ∧ pageOf t ∉ spacePages s0.mem boot := by
  constructor
  · rintro r hr ⟨q, x, hq, hn, hx, heq⟩
    have hentry := h.entries r hr q i hq hn hi
    rw [slot_of_node hx, ← pageOf_inj ht (h.tables.node_aligned hr hx) heq, hmark] at hentry
    cases hentry
  · intro hmem
    have hsame := (hs.tables _ hmem).2
    obtain ⟨q, x, hq, hn, hx, heq⟩ := hmem
    have hentry := hb.unmarked q i hq hn hi
    rw [slot_of_node hx, ← pageOf_inj ht (node_aligned h.boot_aligned hx) heq,
      ← hsame.table_get ht hi, hmark] at hentry
    cases hentry

theorem cow_steady {pte : Nat} {e phys x : BitVec 64} {mem : Mem} (hcr3 : AtHome boot roots s.cr3)
    (hpgd : s.current_pgd = some (pte_addr s.cr3)) (hcow : cow_entry s v = some (pte, e))
    (halloc : alloc_page s = .ok (phys, s1))
    (hmem : mem = kmemcpy s1.mem phys.toNat (pte_addr e).toNat PAGE_SIZE) :
    Steady boot s0 { s1 with mem := write64 mem pte x } roots := by
  obtain ⟨-, -, hmark, rfl, -⟩ := cow_entry_huge hs h hb hcr3 hpgd hcow
  obtain ⟨huser, hboot⟩ := hs.word_page h hb (addr_aligned _) (index_lt _) hmark
  refine hs.of_only h (cow_only (addr_aligned _) halloc hmem) (fun r hr => ?_) fun k hk => ?_
  · exact Set.disjoint_singleton_right.mpr (huser r hr)
  · rintro rfl
    exact hboot hk

end Steady

/-! ## Runs -/

theorem fault_spaced (h : Spaced p0 boot w) (hk : handle_page_fault w.kernel addr err = .ok k') :
    Spaced p0 boot { w with kernel := k' } := by
  have hlegal : (ProcOp.page_fault addr err).Legal w := ⟨⟨by simp [ProcOp.image], trivial⟩, trivial⟩
  exact (spaced_step h hlegal (bind_ok.mpr ⟨k', hk, rfl⟩)).1

theorem fault_steady (hs : Steady boot s0 w.kernel.mm w.spaces) (h : Spaced p0 boot w)
    (hb : BootTables boot s0) (hk : handle_page_fault w.kernel addr err = .ok k') :
    Steady boot s0 k'.mm w.spaces := by
  have hunmarked := h.settled.unmarked
  rcases handle_page_fault_cases hk with
    ⟨hstack, phys, mm1, mm2, halloc, hmap, rfl⟩ | ⟨-, -, pte, e, phys, mm1, hcow, -, halloc, rfl⟩
  · obtain ⟨hr, -, -, hlo, hhi⟩ := h.settled.stack_fault h.running hstack
    exact map_new_steady hs hunmarked hr (h.settled.pgd h.running hr) (stack_page hlo hhi).1 halloc hmap
  · exact cow_steady hs hunmarked hb (h.settled.home h.running) h.running.current_pgd hcow halloc rfl

theorem steady_cons (hs : Steady boot s0 k'.mm (insert r w.spaces)) :
    Steady boot s0 k'.mm (World.spaces ⟨k', r :: w.roots⟩) := by
  rwa [show World.spaces ⟨k', r :: w.roots⟩ = insert r w.spaces from w.spaces_cons r]

theorem steady_step {op : ProcOp} (hs : Steady boot s0 w.kernel.mm w.spaces) (h : Spaced p0 boot w)
    (hb : BootTables boot s0) (hop : op.Legal w) (hstep : op.step w = .ok w') :
    Steady boot s0 w'.kernel.mm w'.spaces := by
  have hunmarked := h.settled.unmarked
  obtain ⟨⟨himage, hshort⟩, hby⟩ := hop
  cases effect_of_step h.running.linked hshort hstep with
  | nothing _ _ => exact hs
  | thread hmm _ => exact hs.of_mem (congrArg Mm.mem hmm) (congrArg Mm.pmm hmm)
  | image hmem hload _ =>
    exact steady_cons (load_image_steady hs hunmarked (h.settled.home h.running) (himage _ hmem) hload)
  | fork _ hclone _ => exact steady_cons (clone_steady hs hunmarked hby hclone)
  | fault hk => exact fault_steady (w := w) hs h hb hk
  | shmget halloc _ => exact hs.of_free hunmarked (alloc_page_new halloc).only
  | shmat hid hmap =>
    obtain ⟨hv, -⟩ := shmAddr_page _ (hid.trans_le (h.settled.current h.running).shm_count)
    exact hs.map hby hv (arch_map_page_spec hunmarked.tables hby (h.settled.pgd h.running hby)
      (pathOf_user hv 4) hmap)
  | switch hswitched =>
    obtain ⟨hmem, hpmm⟩ := hswitched.mm
    exact hs.of_mem hmem hpmm

/-! ## A new page of the stack -/

theorem way_page (v : BitVec 64) {n : Nat} (hn : n ≤ 3) :
    pathOf (v &&& PAGE_MASK) n = pathOf v n ∧ indexOf (v &&& PAGE_MASK) n = indexOf v n := by
  have hpath : pathOf (v &&& PAGE_MASK) (n + 1) = pathOf v (n + 1) :=
    pathOf_eq_of_page (pageNumber_page v) (by omega)
  rw [pathOf_succ, pathOf_succ] at hpath
  obtain ⟨h1, h2⟩ := List.append_inj' hpath rfl
  exact ⟨h1, List.singleton_injective h2⟩

theorem offset_page (v : BitVec 64) : v &&& PAGE_MASK &&& 0xFFF = 0#64 := by
  rw [BitVec.and_assoc, show PAGE_MASK &&& 0xFFF = 0#64 by decide, BitVec.and_zero]

theorem stack_bounds (hlo : user_stack - 4 * 4096 ≤ v) (hhi : v < user_stack) :
    (user_stack - 4 * 4096).toNat ≤ (v &&& PAGE_MASK).toNat ∧
      (v &&& PAGE_MASK).toNat + 4096 ≤ user_stack.toNat := by
  rw [BitVec.le_def, show (user_stack - 4 * 4096).toNat = 0x3FFFC000 from rfl] at hlo
  rw [BitVec.lt_def, show user_stack.toNat = 0x40000000 from rfl] at hhi
  have hle : (v &&& PAGE_MASK).toNat ≤ v.toNat := by
    rw [BitVec.toNat_and]
    exact Nat.and_le_left
  have hpage := pageNumber_page v
  rw [pageNumber_of_lt (by omega), pageNumber_of_lt (by omega)] at hpage
  have hzero := congrArg BitVec.toNat (offset_page v)
  rw [BitVec.toNat_and, show (0xFFF : BitVec 64).toNat = 2 ^ 12 - 1 from rfl,
    Nat.and_two_pow_sub_one_eq_mod] at hzero
  change (v &&& PAGE_MASK).toNat % 2 ^ 12 = 0 at hzero
  rw [show (user_stack - 4 * 4096).toNat = 0x3FFFC000 from rfl,
    show user_stack.toNat = 0x40000000 from rfl]
  omega

theorem pageEntry_writable (phys : BitVec 64) :
    has (pageEntry phys (PTE_WRITABLE ||| PTE_USER)) PTE_WRITABLE = true := by
  rw [pageEntry, has_or, has_or,
    show has (PTE_WRITABLE ||| PTE_USER) PTE_WRITABLE = true by decide, Bool.or_true,
    Bool.true_or]

section Stack

variable {phys : BitVec 64} {s2 : Mm}

structure StackMapped (s s2 : Mm) (roots : Set (BitVec 64)) (r addr phys : BitVec 64) : Prop where
  tables : Tables s2 roots
  loaded : PageLoaded UserPath s s2 r (addr &&& PAGE_MASK) phys fun _ => 0
  fresh : pageOf phys ∈ freePages s.pmm
  leaves : ∀ x ∈ roots, ∀ v, UserHalf v → ¬ (x = r ∧ pageNumber v = pageNumber addr) →
    slot s2.mem x (pathOf v 3) (indexOf v 3) = slot s.mem x (pathOf v 3) (indexOf v 3)

theorem stack_mapped (h : Unmarked boot s roots) (hr : r ∈ roots) (hpgd : s.current_pgd = some r)
    (hv : UserHalf (addr &&& PAGE_MASK)) (halloc : alloc_page s = .ok (phys, s1))
    (hmap : arch_map_page s1 (addr &&& PAGE_MASK) phys (PTE_WRITABLE ||| PTE_USER) = .ok s2) :
    StackMapped s s2 roots r addr phys := by
  have hnew := alloc_page_new halloc
  have hnone : ∀ r ∈ roots, Disjoint (userPages s.mem r) ∅ := fun _ _ => Set.disjoint_empty _
  have hT1 := h.tables.of_only hnew.only hnone
  have hm := arch_map_page_spec hT1 hr (hnew.current_pgd.trans hpgd) (pathOf_user hv 4) hmap
  refine ⟨hm.tables, map_new_spec (h.tables.single hr) hpgd (pathOf_user hv 4) halloc hmap,
    hnew.was_free, fun x hx v hv' hoff => ?_⟩
  rw [hm.slots x hx _ _ (pathOf_user hv' 3) (by simp) (indexOf_lt v 3),
    h.tables.slot_only hnew.only hnone hx (pathOf_user hv' 3) (by simp) (indexOf_lt v 3)]
  rintro ⟨hroot, hpath⟩
  rw [pathOf_length, ← pathOf_succ] at hpath
  exact hoff ⟨hroot, (pageNumber_eq_iff.mpr hpath).trans (pageNumber_page addr)⟩

theorem StackMapped.permits (h : StackMapped s s2 roots r addr phys) (hs : Steady boot s0 s2 roots)
    (hr : r ∈ roots) (hv : UserHalf (addr &&& PAGE_MASK)) (user write : Bool) :
    Permits s2.mem r addr user write := by
  have hleaf := h.loaded.leaf
  rw [(way_page addr (le_refl 3)).1, (way_page addr (le_refl 3)).2] at hleaf
  have haddr : UserHalf addr := by
    unfold UserHalf at hv ⊢
    rwa [show pgd_index (addr &&& PAGE_MASK) =
      pgd_index addr from (way_page addr (Nat.zero_le 3)).2] at hv
  refine ⟨?_, fun n hn hpres => ⟨fun _ => ?_, fun _ => ?_⟩⟩
  · rw [h.tables.translate_eq hr (pathOf_user haddr 4), hleaf, if_pos (pageEntry_present _ _)]
    simp
  · rcases Nat.lt_or_ge n 3 with hlt | hge
    · have huser := h.loaded.user n hlt
      rwa [(way_page addr hn).1, (way_page addr hn).2] at huser
    · obtain rfl : n = 3 := by omega
      rw [hleaf, pageEntry_user]
      decide
  · rcases Nat.lt_or_ge n 3 with hlt | hge
    · exact hs.writable r hr _ _ (pathOf_succ_user haddr n) (by simp; omega) hpres
    · obtain rfl : n = 3 := by omega
      rw [hleaf, pageEntry_writable]

theorem StackMapped.translate_other (h : StackMapped s s2 roots r addr phys) (hT : Tables s roots)
    {x : BitVec 64} (hx : x ∈ roots) (hv : UserHalf v)
    (hoff : ¬ (x = r ∧ pageNumber v = pageNumber addr)) :
    translate s2.mem x v = translate s.mem x v := by
  rw [h.tables.translate_eq hx (pathOf_user hv 4), hT.translate_eq hx (pathOf_user hv 4),
    h.leaves x hx v hv hoff]

theorem StackMapped.alone (h : StackMapped s s2 roots r addr phys) (howner : Owner s roots)
    {x b : BitVec 64} (hx : x ∈ roots) (hv : UserHalf v) (hb : translate s2.mem x v = some b)
    (hpage : pageOf b = pageOf phys) : x = r ∧ pageNumber v = pageNumber addr := by
  by_contra hoff
  rw [h.translate_other howner.tables hx hv hoff] at hb
  exact not_free_of_used (howner.translate hx hv hb).1 (hpage ▸ h.fresh)

end Stack

section Repaired

variable (hs : Steady boot s0 w.kernel.mm w.spaces) (h : Spaced p0 boot w)
  (hb : BootTables boot s0) (hk : handle_page_fault w.kernel addr err = .ok k')

include hs h hb hk

theorem stack_repaired (hstack : stack_fault w.kernel addr err = true) :
    Repaired boot w.spaces w.kernel k' addr err := by
  have hs' := fault_steady hs h hb hk
  have hunmarked := h.settled.unmarked
  obtain ⟨hr, hstart, hend, hlo, hhi⟩ := h.settled.stack_fault h.running hstack
  have hself := hunmarked.addr _ hr
  have hv := (stack_page hlo hhi).1
  rcases handle_page_fault_cases hk with ⟨-, phys, mm1, mm2, halloc, hmap, rfl⟩ | ⟨hno, -⟩
  swap
  · rw [hstack] at hno
    cases hno
  have hmapped := stack_mapped hunmarked hr (h.settled.pgd h.running hr) hv halloc hmap
  have hext : Unmarked boot mm2 w.spaces := (fault_spaced h hk).settled.unmarked
  have hcr3 : pte_addr mm2.cr3 = w.kernel.mm.cr3 := by rw [hmapped.loaded.only.cr3, hself]
  refine ⟨?_, fun _ => ⟨phys, ?_, ?_, ?_, ?_, ?_⟩, fun x hx v hoff => ?_⟩
  · dsimp only
    rw [hcr3]
    exact hmapped.permits hs' hr hv _ _
  · rw [hstart]
    exact (stack_bounds hlo hhi).1
  · rw [hend]
    exact (stack_bounds hlo hhi).2
  · dsimp only
    rw [hcr3, hmapped.tables.translate_eq hr (pathOf_user hv 4), hmapped.loaded.leaf,
      if_pos (pageEntry_present _ _), pageEntry_addr _ (by decide), hmapped.loaded.addr,
      offset_page, BitVec.or_zero]
  · exact hmapped.loaded.bytes
  · intro x hx v b hv' hbv hpage
    dsimp only
    rw [hcr3]
    exact hmapped.alone hunmarked.toOwner hx hv' hbv hpage
  · rw [hself] at hoff
    by_cases hway : (x ∈ w.spaces ∧ KernelHalf v) ∨ x = boot
    · exact translate_congr fun n hn => (hs'.way hext hway hn).trans (hs.way hunmarked hway hn).symm
    · rw [not_or] at hway
      have hx := hx.resolve_right hway.2
      exact hmapped.translate_other hunmarked.tables hx
        (Nat.lt_of_not_le fun hv' => hway.1 ⟨hx, hv'⟩) hoff

/-! ## Every fault -/

theorem huge_denied (hfault : HardwareFault w.kernel.mm addr err)
    (hhuge : HugeOn w.kernel.mm.mem (pte_addr w.kernel.mm.cr3) addr) :
    ¬ Permits k'.mm.mem (pte_addr k'.mm.cr3) addr (has err 4) (has err 2) := by
  have hs' := fault_steady hs h hb hk
  have hunmarked := h.settled.unmarked
  have hunmarked' : Unmarked boot k'.mm w.spaces := (fault_spaced h hk).settled.unmarked
  have hcr3 : k'.mm.cr3 = w.kernel.mm.cr3 := by
    obtain ⟨mm, rfl, hroot⟩ := handle_page_fault_mm hk
    exact hroot.1
  rcases home_cases hunmarked (h.settled.home h.running) addr with hway | ⟨hr, hv⟩
  · rw [hcr3, permits_congr fun n hn => (hs'.way hunmarked' hway hn).trans
      (hs.way hunmarked hway hn).symm]
    exact hfault.denied
  · exact absurd hhuge (hunmarked.tables.not_huge hr (pathOf_user hv 4))

theorem repaired_iff (hfault : HardwareFault w.kernel.mm addr err) :
    Repaired boot w.spaces w.kernel k' addr err ↔ ¬ Misread w.kernel.mm addr err := by
  refine ⟨fun hrepaired hmisread => huge_denied hs h hb hk hfault hmisread.2.1 hrepaired.permits,
    fun hread => ?_⟩
  rcases handle_page_fault_cases hk with ⟨hstack, -⟩ | ⟨-, hwrite, pte, e, -, -, hcow, hmapped, -⟩
  · exact stack_repaired hs h hb hk hstack
  · obtain ⟨hhuge, hpresent, hmark, -, rfl⟩ :=
      cow_entry_huge hs h.settled.unmarked hb (h.settled.home h.running)
      h.running.current_pgd hcow
    exact absurd ⟨by simpa [has] using hwrite, hhuge, hpresent, hmark, hmapped⟩ hread

end Repaired

section Runs

variable {p4 kernel_end : BitVec 64} {m : Mem} {mm : Mm} {heap_ptr : BitVec 32} {k0 : Kernel}
  {ops : List ProcOp}

theorem steady_run (hlayout : Layout p4 m kernel_end)
    (hinit : sched_init (Kernel.boot (start_mm p4 m kernel_end) heap_ptr) = .ok k0)
    (hpaging : arch_paging_init k0.mm = .ok mm)
    (hrun : run (guarded (fun w op => op.Legal w) .no_space ProcOp.step)
      ⟨{ k0 with mm := mm }, []⟩ ops = .ok w) :
    Spaced k0.current_task p4 w ∧ Steady p4 mm w.kernel.mm w.spaces ∧ BootTables p4 mm := by
  have hb : BootTables p4 mm := by
    rw [(sched_init_started hinit).mm_eq] at hpaging
    exact bootTables hlayout hpaging
  have hstep : ∀ op ∈ ops, ∀ w w' : World,
      Spaced k0.current_task p4 w ∧ Steady p4 mm w.kernel.mm w.spaces →
      guarded (fun w (op : ProcOp) => op.Legal w) Halt.no_space ProcOp.step w op = .ok w' →
      Spaced k0.current_task p4 w' ∧ Steady p4 mm w'.kernel.mm w'.spaces := by
    rintro op - w w' ⟨h, hs⟩ hstep
    obtain ⟨hlegal, hstep⟩ := guarded_ok.mp hstep
    exact ⟨(spaced_step h hlegal hstep).1, steady_step hs h hb hlegal hstep⟩
  have hstart : Steady p4 mm mm (World.spaces ⟨{ k0 with mm := mm }, []⟩) := by
    have hnone : World.spaces ⟨{ k0 with mm := mm }, []⟩ = ∅ := by simp [World.spaces]
    rw [hnone]
    exact hb.steady
  obtain ⟨h, hs⟩ :=
    run_inv (fun w : World => Spaced k0.current_task p4 w ∧ Steady p4 mm w.kernel.mm w.spaces) hstep
    ⟨spaced_start hlayout hinit hpaging, hstart⟩ hrun
  exact ⟨h, hs, hb⟩

/-- A fault handler that returns has made the access possible and changed nothing else, for
every fault of the hardware but those that are misread. -/
theorem fault_repaired_iff (hlayout : Layout p4 m kernel_end)
    (hinit : sched_init (Kernel.boot (start_mm p4 m kernel_end) heap_ptr) = .ok k0)
    (hpaging : arch_paging_init k0.mm = .ok mm)
    (hrun : run (guarded (fun w op => op.Legal w) .no_space ProcOp.step)
      ⟨{ k0 with mm := mm }, []⟩ ops = .ok w) (hfault : HardwareFault w.kernel.mm addr err)
    (hk : handle_page_fault w.kernel addr err = .ok k') :
    Repaired p4 w.spaces w.kernel k' addr err ↔ ¬ Misread w.kernel.mm addr err := by
  obtain ⟨h, hs, hb⟩ := steady_run hlayout hinit hpaging hrun
  exact repaired_iff hs h hb hk hfault

end Runs

/-! ## A fault on the stack of a small process -/

theorem stack_fault_returns {k : Kernel} (hstack : stack_fault k addr err = true)
    (hpool : Pool 4 k.mm) : ∃ k', handle_page_fault k addr err = .ok k' := by
  obtain ⟨phys, mm1, halloc, hpool1⟩ := alloc_page_pool (n := 3) hpool
  obtain ⟨mm2, hmap, -⟩ := arch_map_page_pool (n := 0) hpool1 (addr &&& PAGE_MASK) phys
    (PTE_WRITABLE ||| PTE_USER)
  refine ⟨{ k with mm := mm2 }, ?_⟩
  unfold handle_page_fault
  rw [if_pos hstack]
  exact bind_ok.mpr ⟨_, halloc, bind_ok.mpr ⟨_, hmap, rfl⟩⟩

theorem exec_stack {elf_data : Mem} (h : Spaced p0 boot w)
    (hstep : (ProcOp.exec_user_program elf_data).step w = .ok w') (hroots : w'.roots ≠ w.roots) :
    (w'.kernel.task w'.kernel.current_task).stack_start = user_stack - 4 * 4096 ∧
      (w'.kernel.task w'.kernel.current_task).stack_end = user_stack := by
  obtain ⟨⟨entry, k⟩, hk, hstep⟩ := bind_ok.mp hstep
  cases hstep
  rcases exec_user_program_replaced h.running.linked hk with ⟨rfl, rfl⟩ | ⟨new_cr3, -, -, hnew⟩
  · exact absurd rfl hroots
  · dsimp only
    rw [hnew.current_task]
    exact ⟨(congrArg TaskMemory.stack_start hnew.new :), (congrArg TaskMemory.stack_end hnew.new :)⟩

/-- The first push of a small process. -/
theorem first_push_repaired : ∃ k0 mm w k', sched_init (Kernel.boot bootMm 0) = .ok k0 ∧
    arch_paging_init k0.mm = .ok mm ∧
    run (guarded (fun w op => op.Legal w) .no_space ProcOp.step) ⟨{ k0 with mm := mm }, []⟩
      [.exec_user_program selfImage] = .ok w ∧
    HardwareFault w.kernel.mm 0x3FFFFFE8 6 ∧ handle_page_fault w.kernel 0x3FFFFFE8 6 = .ok k' ∧
    Repaired 0x110000 w.spaces w.kernel k' 0x3FFFFFE8 6 := by
  obtain ⟨k0, mm, w, hinit, hpaging, hstep, hready, hpool, -⟩ := small_process
  have hspaced : Spaced k0.current_task 0x110000 ⟨{ k0 with mm := mm }, []⟩ :=
    spaced_start Vmalloc.small_layout hinit hpaging
  have hrun : run (guarded (fun w op => op.Legal w) .no_space ProcOp.step) ⟨{ k0 with mm := mm }, []⟩
      [.exec_user_program selfImage] = .ok w :=
        bind_ok.mpr ⟨w, guarded_ok.mpr ⟨(selfImage_keeps _).1, hstep⟩, rfl⟩
  have hunmarked := hready.spaced.settled.unmarked
  have hself : pte_addr w.kernel.mm.cr3 = w.kernel.mm.cr3 := hunmarked.addr _ hready.process
  have hv : UserHalf 0x3FFFFFE8 := by decide
  have hnone : translate w.kernel.mm.mem (pte_addr w.kernel.mm.cr3) 0x3FFFFFE8 = none := by
    rw [hself]
    exact hready.paths.translate_none hunmarked.tables hready.process hv (by decide)
  have hfault : HardwareFault w.kernel.mm 0x3FFFFFE8 6 :=
    ⟨.inl (by decide), iff_of_true (by decide) hnone, fun hpermits => hpermits.1 hnone⟩
  have hroots : w.roots ≠ [] := List.ne_nil_of_mem hready.process
  obtain ⟨hstart, hend⟩ := exec_stack hspaced hstep hroots
  have hstack : stack_fault w.kernel 0x3FFFFFE8 6 = true := by
    unfold stack_fault
    dsimp only
    rw [hstart, hend]
    decide
  obtain ⟨k', hk⟩ := stack_fault_returns hstack (hpool.le (by decide))
  refine ⟨k0, mm, w, k', hinit, hpaging, hrun, hfault, hk, ?_⟩
  refine (fault_repaired_iff Vmalloc.small_layout hinit hpaging hrun hfault hk).mpr fun hmisread => ?_
  exact hunmarked.tables.not_huge (hself.symm ▸ hready.process) (pathOf_user hv 4) hmisread.2.1

/-! ## A fault that comes again -/

section Low

variable {p4 kernel_end : BitVec 64} {m : Mem} {mm : Mm}

theorem init_low (h : Layout p4 m kernel_end)
    (hinit : arch_paging_init (start_mm p4 m kernel_end) = .ok mm) :
    SamePage (start_mm p4 m kernel_end).mem mm.mem 0 ∧ mm.pmm.page_used 0 = true := by
  have haddr := h.addr_table (n := 0) (by omega)
  rw [boot_table_zero] at haddr
  have hlow := h.low
  have hused : (start_mm p4 m kernel_end).pmm.page_used 0 = true := by
    have hinside := h.inside
    unfold start_mm
    rw [pmm_init_used, decide_eq_true_eq]
    omega
  have hpages : 0 ∉ pagesOn SmallPath (start_mm p4 m kernel_end).mem p4 := by
    rintro ⟨q, x, hq, -, hx, hzero⟩
    obtain ⟨n, hpath, rfl⟩ := h.node_boot hq hx
    unfold pageOf at hzero
    rw [h.toNat_table (List.getElem?_eq_some_iff.mp hpath).1] at hzero
    omega
  obtain ⟨-, hgrown, -⟩ := Vmalloc.arch_paging_init_spec h.forest
    (Paging.start_mm_cr3 _ _ _) haddr hinit
  generalize start_mm p4 m kernel_end = s at *
  exact ⟨hgrown.only.same 0 (not_free_of_used hused) hpages, hgrown.only.used 0 hused⟩

end Low

theorem translate_huge {m : Mem} (h : HugeOn m r v) : translate m r v ≠ none := by
  obtain ⟨t1, t2, hp1, rfl, hp2, rfl, hmiddle⟩ := middle_way h.1
  obtain ⟨hp3, hh⟩ := h
  rw [hmiddle] at hp3 hh
  unfold Paging.translate
  simp only [hp1, hp2, hp3, hh, Bool.not_true, Bool.false_eq_true, if_false, if_true]
  split_ifs <;> simp

theorem cow_returns {k : Kernel} {pte : Nat} {e : BitVec 64}
    (hstack : stack_fault k addr err = false) (hwrite : err &&& 2 ≠ 0)
    (hcow : cow_entry k.mm addr = some (pte, e)) (hmapped : direct_mapped (pte_addr e) = true)
    (hpool : Pool 1 k.mm) : ∃ k', handle_page_fault k addr err = .ok k' := by
  obtain ⟨phys, mm1, halloc, -⟩ := alloc_page_pool (n := 0) hpool
  unfold handle_page_fault
  rw [hstack, if_neg (by decide), if_pos hwrite, hcow]
  dsimp only
  rw [hmapped, halloc]
  exact ⟨_, rfl⟩

theorem cow_entry_of_huge (hpgd : s.current_pgd = some (pte_addr s.cr3))
    (hhuge : HugeOn s.mem (pte_addr s.cr3) v) (hpresent : has (walkWord s v) PTE_PRESENT = true)
    (hmark : has (walkWord s v) PTE_COW = true) :
    ∃ pte, cow_entry s v = some (pte, walkWord s v) := by
  refine ⟨(pte_addr (middleEntry s.mem (pte_addr s.cr3) v)).toNat + 8 * pte_index v, ?_⟩
  have hread :
      read64 s.mem ((pte_addr (middleEntry s.mem (pte_addr s.cr3) v)).toNat + 8 * pte_index v) =
        walkWord s v := rfl
  simp [cow_entry, walk_page_table_huge hpgd hhuge, hread, hpresent, hmark]

/-- The first interrupt vector of the BIOS is 0000:5203. -/
def vectors : Mem := fun x => if x = 0 then 0x03 else if x = 1 then 0x52 else 0

theorem vectors_layout : Layout 0x110000 vectors 0xFFFFFFFF80200000 := by
  refine ⟨by unfold Aligned; decide, by decide, by decide, by decide, fun x hlo _ => ?_⟩
  change 0x110000 ≤ x at hlo
  unfold vectors
  rw [if_neg (by omega), if_neg (by omega)]

theorem vectors_process : ∃ k0 mm w, sched_init (Kernel.boot (start_mm 0x110000 vectors 0xFFFFFFFF80200000) 0) = .ok k0 ∧
    arch_paging_init k0.mm = .ok mm ∧
    run (guarded (fun w op => op.Legal w) .no_space ProcOp.step) ⟨{ k0 with mm := mm }, []⟩
      [.exec_user_program selfImage] = .ok w ∧
    Pool 1 w.kernel.mm ∧ middleEntry w.kernel.mm.mem (pte_addr w.kernel.mm.cr3) 0xFFFF800000000000 = 0x83 ∧
    walkWord w.kernel.mm 0xFFFF800000000000 = 0x5203 := by
  obtain ⟨k0, mm, hinit, hstarted, hpaging, hpool⟩ := start_of_memory vectors
  obtain ⟨new_cr3, mm', hload, hpool', hstep⟩ :=
    step_selfImage (k := { k0 with mm := mm }) (n := 65010) hpool []
  obtain ⟨w, hw⟩ : ∃ w, w = (⟨Kernel.update_task { k0 with mm := mm' } k0.current_task fun t => t.set_image new_cr3,
    [mm'.cr3]⟩ : World) := ⟨_, rfl⟩
  have hmm : w.kernel.mm = mm' := by rw [hw]; rfl
  have hrun : run (guarded (fun w op => op.Legal w) .no_space ProcOp.step) ⟨{ k0 with mm := mm }, []⟩
      [.exec_user_program selfImage] = .ok w := by
    rw [hw]
    exact bind_ok.mpr ⟨_, guarded_ok.mpr ⟨(selfImage_keeps _).1, hstep⟩, rfl⟩
  obtain ⟨h, hs, -⟩ := steady_run vectors_layout hinit hpaging hrun
  have hunmarked := h.settled.unmarked
  have hspaced := spaced_start vectors_layout hinit hpaging
  have hroot : pageOf (pte_addr mm.cr3) ∉ freePages mm.pmm :=
    hspaced.settled.unmarked.root_used (hspaced.settled.home hspaced.running)
  have hpaging' := hpaging
  rw [hstarted.mm_eq] at hpaging'
  obtain ⟨hlow, hused⟩ := init_low vectors_layout hpaging'
  have hmiddle : middleEntry w.kernel.mm.mem (pte_addr w.kernel.mm.cr3) 0xFFFF800000000000 = 0x83 := by
    have hprocess : w.kernel.mm.cr3 ∈ w.spaces := by
      rw [hw]
      exact List.mem_singleton_self _
    have hkernel : KernelHalf 0xFFFF800000000000 := by
      unfold KernelHalf
      decide
    rw [hunmarked.addr _ hprocess]
    refine (hs.way hunmarked (.inl ⟨hprocess, hkernel⟩) (by omega)).trans ?_
    rw [init_slot vectors_layout hpaging' (x := 256)
      (smallPath_of_length (fun j hj => lt_of_mem_pathOf hj) (by simp)) (by simp) (indexOf_lt _ 2)
      rfl (by decide)]
    decide +kernel
  refine ⟨k0, mm, w, hinit, hpaging, hrun, by rw [hmm]; exact hpool'.le (by decide), hmiddle, ?_⟩
  have hsame :=
    hlow.trans ((load_image_loading hroot (selfImage_pages (by decide)) hload).same 0
    (not_free_of_used hused))
  have hget := SamePage.table_get (t := 0) (i := 0) hsame (by unfold Aligned; decide) (by decide)
  rw [start_mm_mem] at hget
  unfold walkWord
  rw [hmiddle, hmm]
  refine hget.trans ?_
  decide +kernel

/-- A program that writes to the start of the direct map faults, and faults again when the
handler returns: it has taken the first vector for an entry. -/
theorem fault_comes_again : ∃ k0 mm w k',
    sched_init (Kernel.boot (start_mm 0x110000 vectors 0xFFFFFFFF80200000) 0) = .ok k0 ∧
    arch_paging_init k0.mm = .ok mm ∧
    run (guarded (fun w op => op.Legal w) .no_space ProcOp.step) ⟨{ k0 with mm := mm }, []⟩
      [.exec_user_program selfImage] = .ok w ∧
    HardwareFault w.kernel.mm 0xFFFF800000000000 7 ∧
    handle_page_fault w.kernel 0xFFFF800000000000 7 = .ok k' ∧
    ¬ Permits k'.mm.mem (pte_addr k'.mm.cr3) 0xFFFF800000000000 true true := by
  obtain ⟨k0, mm, w, hinit, hpaging, hrun, hpool, hmiddle, hword⟩ := vectors_process
  obtain ⟨h, hs, hb⟩ := steady_run vectors_layout hinit hpaging hrun
  have hhuge : HugeOn w.kernel.mm.mem (pte_addr w.kernel.mm.cr3) 0xFFFF800000000000 := by
    unfold HugeOn
    rw [hmiddle]
    decide
  have hfault : HardwareFault w.kernel.mm 0xFFFF800000000000 7 := by
    refine ⟨.inr (by decide), iff_of_false (by decide) (translate_huge hhuge), fun hpermits => ?_⟩
    have hbit := (hpermits.2 2 (by omega) hhuge.1).1 (by decide)
    change has (middleEntry w.kernel.mm.mem (pte_addr w.kernel.mm.cr3) 0xFFFF800000000000)
      PTE_USER = true at hbit
    rw [hmiddle] at hbit
    exact absurd hbit (by decide)
  obtain ⟨pte, hcow⟩ := cow_entry_of_huge h.running.current_pgd hhuge (by rw [hword]; decide)
    (by rw [hword]; decide)
  have hstack : stack_fault w.kernel 0xFFFF800000000000 7 = false := rfl
  obtain ⟨k', hk⟩ := cow_returns hstack (by decide) hcow (by rw [hword]; decide) hpool
  exact ⟨k0, mm, w, k', hinit, hpaging, hrun, hfault, hk, huge_denied hs h hb hk hfault hhuge⟩

end Relis.Process
