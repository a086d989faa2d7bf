import Relis.Paging.Reach
import Relis.Vmalloc.Run

/-!
# Mapping on the way of a huge page

`arch_map_page` and `walk_page_table` never look at the bit for huge pages, so they are
right only for addresses whose way does not end in one.
-/

open Relis.Bytes Relis.Run Relis.Code Relis.PageAlloc

namespace Relis.Paging

variable {V : List Nat → Prop} {clean : Prop} {s s' : Mm} {R roots : Set (BitVec 64)}
  {r virt phys flags : BitVec 64}

def spacePages (m : Mem) (r : BitVec 64) : Set Nat := pagesOn (fun p => ∀ j ∈ p, j < 512) m r

/-- What the two functions are for, at one address. -/
structure MapSound (s : Mm) (r virt phys flags : BitVec 64) : Prop where
  returns : Pool 3 s → ∃ s', arch_map_page s virt phys flags = .ok s'
  writes : ∀ s', arch_map_page s virt phys flags = .ok s' → ∀ k, k ∉ spacePages s'.mem r →
    SamePage s.mem s'.mem k
  maps : ∀ s', arch_map_page s virt phys flags = .ok s' →
    translate s'.mem r virt = some (pte_addr phys ||| (virt &&& 0xFFF))
  walks : ∀ a, walk_page_table s virt = some a →
    ∃ t, node s.mem r (pathOf virt 3) = some t ∧ a = t.toNat + 8 * pte_index virt

/-! ## Ways without huge pages -/

variable [PathKind V]

theorem Forest.mapSound (hT : Forest V s roots) (hr : r ∈ roots) (hpgd : s.current_pgd = some r)
    (hv : V (pathOf virt 4)) (hlt : ∀ p, V p → ∀ j ∈ p, j < 512) (hflags : pte_flags flags = flags) :
    MapSound s r virt phys flags := by
  refine ⟨fun hpool => ?_, fun s' h k hk => ?_, fun s' h => ?_, fun a ha => ?_⟩
  · obtain ⟨s', h, -⟩ := arch_map_page_pool (n := 0) hpool virt phys flags
    exact ⟨s', h⟩
  · refine arch_map_page_samePage hT hr hpgd hv h fun n hn t ht => ?_
    rintro rfl
    exact hk ⟨_, t, hlt _ (PathKind.pathOf hv (by omega)), by simpa using hn, ht, rfl⟩
  · have hmapped := arch_map_page_spec hT hr hpgd hv h
    rw [hmapped.tables.translate_eq hr hv, hmapped.leaf, if_pos (pageEntry_present phys flags),
      pageEntry_addr phys hflags]
  · rw [walk_page_table_spec hT hr hpgd hv, Option.map_eq_some_iff] at ha
    obtain ⟨t, ht, rfl⟩ := ha
    exact ⟨t, ht, rfl⟩

/-! ## Ways with a huge page -/

theorem middle_way {m : Mem} (h : has (middleEntry m r virt) PTE_PRESENT = true) :
    ∃ t1 t2, has (table_get m r (pgd_index virt)) PTE_PRESENT = true ∧
      t1 = pte_addr (table_get m r (pgd_index virt)) ∧
      has (table_get m t1 (pud_index virt)) PTE_PRESENT = true ∧
      t2 = pte_addr (table_get m t1 (pud_index virt)) ∧
      middleEntry m r virt = table_get m t2 (pmd_index virt) := by
  unfold middleEntry at h ⊢
  cases ht : node m r (pathOf virt 2) with
  | none =>
    rw [slot_of_none ht, zero_has] at h
    cases h
  | some t2 =>
    have hway := ht
    rw [pathOf_succ, node_snoc, Option.bind_eq_some_iff] at hway
    obtain ⟨t1, ht1, hchild2⟩ := hway
    rw [pathOf_succ, node_snoc, Option.bind_eq_some_iff] at ht1
    obtain ⟨t0, ht0, hchild1⟩ := ht1
    cases ht0
    obtain ⟨h1, hpres1⟩ := child_eq_some hchild1
    obtain ⟨h2, hpres2⟩ := child_eq_some hchild2
    exact ⟨t1, t2, hpres1, h1, hpres2, h2, slot_of_node ht _⟩

theorem walk_page_table_huge (hpgd : s.current_pgd = some r) (h : HugeOn s.mem r virt) :
    walk_page_table s virt =
      some ((pte_addr (middleEntry s.mem r virt)).toNat + 8 * pte_index virt) := by
  obtain ⟨t1, t2, hp1, rfl, hp2, rfl, hmiddle⟩ := middle_way h.1
  have hp3 := h.1
  rw [hmiddle] at hp3 ⊢
  unfold walk_page_table
  rw [hpgd]
  simp [hp1, hp2, hp3]

theorem node_huge {m : Mem} (h : HugeOn m r virt) : node m r (pathOf virt 3) = none := by
  rw [pathOf_succ, node_of_slot, pathOf_length]
  have hhuge := h.2
  unfold middleEntry at hhuge
  simp [child, hhuge]

theorem arch_map_page_present (hpgd : s.current_pgd = some r)
    (h : has (middleEntry s.mem r virt) PTE_PRESENT = true) (phys : BitVec 64)
    (hu : has flags PTE_USER = false) :
    arch_map_page s virt phys flags =
      .ok (table_set s (pte_addr (middleEntry s.mem r virt)) (pte_index virt)
        (pageEntry phys flags)) := by
  obtain ⟨t1, t2, hp1, rfl, hp2, rfl, hmiddle⟩ := middle_way h
  rw [hmiddle] at h ⊢
  unfold arch_map_page
  rw [hpgd]
  simp only [hu, Bool.false_eq_true, if_false, bind_ok]
  exact ⟨s, ensure_table_same hp1, s, ensure_table_same hp2, s, ensure_table_same h, rfl⟩

theorem arch_map_page_huge (hpgd : s.current_pgd = some r) (h : HugeOn s.mem r virt)
    (phys : BitVec 64) (hu : has flags PTE_USER = false) :
    arch_map_page s virt phys flags =
      .ok (table_set s (pte_addr (middleEntry s.mem r virt)) (pte_index virt)
        (pageEntry phys flags)) :=
  arch_map_page_present hpgd h.1 phys hu

/-! ## Every space of a run -/

/-- The two functions are right for the addresses that are not in huge pages, and for no others.
-/
theorem mapSound_iff (h : Reached clean s R) (virt phys : BitVec 64)
    (hflags : pte_flags flags = flags) :
    MapSound s (pte_addr s.cr3) virt phys flags ↔ ¬ HugeOn s.mem (pte_addr s.cr3) virt := by
  obtain ⟨L, hL⟩ := h.held
  constructor
  · intro hsound hhuge
    obtain ⟨t, ht, -⟩ := hsound.walks _ (walk_page_table_huge hL.current_pgd hhuge)
    rw [node_huge hhuge] at ht
    cases ht
  · intro hhuge
    have hT := hL.toKinded.forest (addr_aligned _) (hL.root _ hL.current) virt 4 fun _ => hhuge
    exact hT.mapSound rfl hL.current_pgd (List.prefix_refl _) (fun p hp => OnWay.lt hp) hflags

/-! ## After `arch_paging_init` -/

theorem Forest.not_huge (hT : Forest V s roots) (hr : r ∈ roots) (hv : V (pathOf virt 4)) :
    ¬ HugeOn s.mem r virt := by
  rintro ⟨hpres, hhuge⟩
  unfold middleEntry at hpres hhuge
  rw [hT.small r hr _ _ (PathKind.snoc hv (by omega)) (by simp) hpres] at hhuge
  cases hhuge

theorem arch_paging_init_reached {p4 : BitVec 64}
    (h : Reached clean { s with current_pgd := some p4 } {p4}) (hT : Forest SmallPath s {p4})
    (hcr3 : s.cr3 = p4) (haddr : pte_addr p4 = p4) (hinit : arch_paging_init s = .ok s') :
    Reached clean s' {p4} := by
  subst hcr3
  unfold arch_paging_init at hinit
  rw [haddr] at hinit
  obtain ⟨s1, h1, h2⟩ := bind_ok.mp hinit
  have hT0 := Vmalloc.forest_reroot hT s.cr3
  have hmapped := arch_map_page_spec hT0 rfl rfl
    (Vmalloc.WindowKind.window (V := SmallPath) 0 (by decide)) h1
  have hcr3 : s1.cr3 = s.cr3 := hmapped.only.cr3
  have hreached1 : Reached clean s1 {s.cr3} := by
    refine .arch_map_page h (fun _ => .inr (by decide)) (fun hhigh => ?_) h1
    rw [haddr] at hhigh
    exact hT0.not_huge rfl (Vmalloc.WindowKind.window (V := SmallPath) 0 (by decide)) hhigh.1
  refine .arch_map_page hreached1 (fun _ => .inr (by decide)) (fun hhigh => ?_) h2
  rw [hcr3, haddr] at hhigh
  exact hmapped.tables.not_huge rfl (Vmalloc.WindowKind.window (V := SmallPath) 1 (by decide)) hhigh.1

theorem init_slot {p4 kernel_end : BitVec 64} {m : Mem} (h : Layout p4 m kernel_end)
    (hinit : arch_paging_init (start_mm p4 m kernel_end) = .ok s) {q : List Nat} {j x : Nat}
    (hq : SmallPath q) (hn : q.length ≤ 3) (hj : j < 512) (hx : (q ++ [j]).head? = some x)
    (hlt : x < 402) : slot s.mem p4 q j = slot (start_tables p4 m) p4 q j := by
  have haddr := h.addr_table (n := 0) (by omega)
  rw [boot_table_zero] at haddr
  obtain ⟨-, hgrown, -⟩ := Vmalloc.arch_paging_init_spec h.forest (start_mm_cr3 _ _ _) haddr hinit
  have hslot := hgrown.slots.outside hq hn hj hx (.inl hlt)
  rwa [Vmalloc.reroot_mem, start_mm_mem] at hslot

theorem small_boot (clean : Prop) :
    ∃ s, arch_paging_init (start_mm 0x110000 (fun _ => 0) 0xFFFFFFFF80200000) = .ok s ∧
    Pool 65018 s ∧ Reached clean s {0x110000} ∧ pte_addr s.cr3 = 0x110000 ∧
    s.current_pgd = some 0x110000 ∧
    Forest SmallPath s {0x110000} ∧ ∀ q j x, SmallPath q → q.length ≤ 3 → j < 512 →
      (q ++ [j]).head? = some x → x < 402 →
      slot s.mem 0x110000 q j = slot (start_tables 0x110000 fun _ => 0) 0x110000 q j := by
  have hlayout := Vmalloc.small_layout
  obtain ⟨s, hinit, hpool⟩ := Vmalloc.arch_paging_init_pool (n := 65018) Vmalloc.small_pool
  obtain ⟨hbooted, -⟩ := Vmalloc.booted hlayout hinit
  refine ⟨s, hinit, hpool, arch_paging_init_reached (.boot hlayout) hlayout.forest
    (start_mm_cr3 _ _ _) (by decide) hinit, ?_, hbooted.current_pgd, hbooted.tables,
    fun q j x hq hn hj hx hlt => init_slot hlayout hinit hq hn hj hx hlt⟩
  rw [hbooted.cr3]
  decide

/-- After the boot, the page of the interrupt controller may be mapped again. -/
theorem mapSound_window :
    ∃ s, arch_paging_init (start_mm 0x110000 (fun _ => 0) 0xFFFFFFFF80200000) = .ok s ∧
    MapSound s 0x110000 LAPIC_VADDR LAPIC_BASE_PHYS PTE_WRITABLE := by
  obtain ⟨s, hinit, -, hreached, hcr3, -, hT, -⟩ := small_boot True
  have hflags : pte_flags PTE_WRITABLE = PTE_WRITABLE := by decide
  have hiff := mapSound_iff hreached LAPIC_VADDR LAPIC_BASE_PHYS hflags
  rw [hcr3] at hiff
  refine ⟨s, hinit, hiff.mpr (hT.not_huge rfl ?_)⟩
  exact Vmalloc.WindowKind.window (V := SmallPath) 0 (by decide)

/-- The call in `smp_boot_apus` writes an entry to the frame 0, which holds no table, and the walk
for the same address leads there. -/
theorem smp_boot_writes_low :
    ∃ s, arch_paging_init (start_mm 0x110000 (fun _ => 0) 0xFFFFFFFF80200000) = .ok s ∧
    Reached True s {0x110000} ∧ HugeOn s.mem 0x110000 0x8000 ∧
    arch_map_page s 0x8000 0x8000 0x03 = .ok (table_set s 0 8 0x8003) ∧
    walk_page_table s 0x8000 = some 64 ∧
    0 ∉ spacePages s.mem 0x110000 ∧ ¬ MapSound s 0x110000 0x8000 0x8000 0x03 := by
  obtain ⟨s, hinit, -, hreached, hcr3, hpgd, hT, hslots⟩ := small_boot True
  have hpath : SmallPath (pathOf 0x8000 2) := by
    refine ⟨by decide, by decide, fun j => ⟨fun h => ?_, fun h => ?_⟩⟩
    · have hlen := h.length_le
      simp at hlen
    · have hlen := h.length_le
      simp at hlen
  have hmiddle : middleEntry s.mem 0x110000 0x8000 = 0x83 := by
    refine (hslots _ _ 0 hpath (by simp) (indexOf_lt 0x8000 2) rfl (by omega)).trans ?_
    decide +kernel
  have hhuge : HugeOn s.mem 0x110000 0x8000 := by
    unfold HugeOn
    rw [hmiddle]
    decide
  have huser : has 0x03 PTE_USER = false := by decide
  have hmap := arch_map_page_huge hpgd hhuge 0x8000 huser
  have hwalk := walk_page_table_huge hpgd hhuge
  rw [hmiddle] at hmap hwalk
  refine ⟨s, hinit, hreached, hhuge, hmap, hwalk, ?_, fun hsound => ?_⟩
  · rintro ⟨p, t, hp, hn, ht, hzero⟩
    obtain ⟨L, hL⟩ := hreached.held
    have hmem := hL.node_kind (hL.aligned rfl) (hL.root _ rfl) hp hn ht
    exact hL.low _ (hzero ▸ hmem)
  · obtain ⟨t, ht, -⟩ := hsound.walks _ hwalk
    rw [node_huge hhuge] at ht
    cases ht

end Relis.Paging
