import Relis.Process.Child
import Relis.Process.Execve

/-!
# What calls leave alone

The kernel half of every space is that of the boot root, and the boot tables stay as they
are.
-/

open Relis.Bytes Relis.Code Relis.PageAlloc Relis.Paging Relis.Run Relis.Sched Relis.Slab

namespace Relis.Process

variable {s0 s s' s1 : Mm} {roots : Set (BitVec 64)} {r boot virt phys flags : BitVec 64}
  {k' : Kernel} {w w' : World}
  {p0 : Nat}

/-! ## Writable entries -/

theorem tableEntry_writable (t u : BitVec 64) : has (tableEntry t u) PTE_WRITABLE = true := by
  simp [tableEntry, has_or, show has PTE_WRITABLE PTE_WRITABLE = true by decide]

theorem ensuredEntry_writable {old u e : BitVec 64} (h : EnsuredEntry s old u e)
    (hold : has old PTE_PRESENT = true → has old PTE_WRITABLE = true) :
    has e PTE_WRITABLE = true := by
  rcases h with ⟨hp, rfl⟩ | ⟨-, f, -, -, rfl⟩
  · rw [has_or, hold hp, Bool.true_or]
  · exact tableEntry_writable f u

theorem entryCopied_writable {d : Nat} {e e' : BitVec 64} (h : EntryCopied d e e')
    (he : has e PTE_PRESENT = true → has e PTE_WRITABLE = true) (hp : has e' PTE_PRESENT = true) :
    has e' PTE_WRITABLE = true := by
  rcases h with hnone | ⟨hd, hsome, hh⟩ | ⟨f, hsome, hd, hf⟩
  · rw [zero_has] at hp
    cases hp
  · exact he hsome
  · rw [has_of_flags (cloneEntry_flags hf e) (by decide)]
    exact he hsome

/-! ## One space after the other -/

/-- How the spaces stand to the boot tables, which were those of `s0`. -/
structure Steady (boot : BitVec 64) (s0 s : Mm) (roots : Set (BitVec 64)) : Prop where
  writable : ∀ r ∈ roots, ∀ p i, UserPath (p ++ [i]) → p.length ≤ 2 →
    has (slot s.mem r p i) PTE_PRESENT = true → has (slot s.mem r p i) PTE_WRITABLE = true
  kernel : ∀ r ∈ roots, ∀ i, 256 ≤ i → i < 512 → table_get s.mem r i = table_get s0.mem boot i
  tables : ∀ k ∈ spacePages s0.mem boot, Data s roots k ∧ SamePage s0.mem s.mem k

theorem Steady.of_mem (hs : Steady boot s0 s roots) (hmem : s'.mem = s.mem) (hpmm : s'.pmm = s.pmm) :
    Steady boot s0 s' roots := by
  refine ⟨?_, ?_, fun k hk => ?_⟩
  · rw [hmem]
    exact hs.writable
  · rw [hmem]
    exact hs.kernel
  · unfold Data
    rw [hmem, hpmm]
    exact hs.tables k hk

theorem Steady.of_only {W : Set Nat} (hs : Steady boot s0 s roots) (h : Unmarked boot s roots)
    (honly : Only W s s') (hW : ∀ r ∈ roots, Disjoint (userPages s.mem r) W)
    (hboot : ∀ k ∈ spacePages s0.mem boot, k ∉ W) : Steady boot s0 s' roots := by
  have hgrows := grows_of_only h.tables honly hW
  refine ⟨fun r hr p i hp hn hpres => ?_, fun r hr i hlo hi => ?_, fun k hk => ?_⟩
  · rw [h.tables.slot_only honly hW hr hp.init (by omega) hp.last_lt] at hpres ⊢
    exact hs.writable r hr p i hp hn hpres
  · have hslot := h.tables.slot_only honly hW hr (p := []) (i := i) trivial (by simp) hi
    exact hslot.trans (hs.kernel r hr i hlo hi)
  · obtain ⟨hdata, hsame⟩ := hs.tables k hk
    exact ⟨hdata.grow hgrows, hsame.trans (honly.same k (not_free_of_used hdata.1) (hboot k hk))⟩

theorem Steady.of_free (hs : Steady boot s0 s roots) (h : Unmarked boot s roots)
    (honly : Only ∅ s s') : Steady boot s0 s' roots :=
  hs.of_only h honly (fun _ _ => Set.disjoint_empty _) fun _ _ => Set.notMem_empty _

theorem Steady.map (hs : Steady boot s0 s roots) (hr : r ∈ roots) (hv : UserHalf virt)
    (hm : Mapped s s' roots r virt phys flags) : Steady boot s0 s' roots := by
  refine ⟨fun r' hr' p i hp hn hpres => ?_, fun r' hr' i hlo hi => ?_, fun k hk => ?_⟩
  · by_cases hhere : r' = r ∧ p ++ [i] = pathOf virt (p.length + 1)
    · obtain ⟨rfl, hpath⟩ := hhere
      obtain ⟨h1, h2⟩ := snoc_eq_pathOf hpath
      have hentry := hm.path p.length (by omega)
      rw [← h1, ← h2] at hentry
      exact ensuredEntry_writable hentry (hs.writable r' hr' p i hp hn)
    · rw [hm.slots r' hr' p i hp.init (by omega) hp.last_lt hhere] at hpres ⊢
      exact hs.writable r' hr' p i hp hn hpres
  · have hslot := hm.slots r' hr' [] i trivial (by simp) hi fun hhere => ?_
    · exact hslot.trans (hs.kernel r' hr' i hlo hi)
    · have hindex : i = pgd_index virt := List.singleton_injective hhere.2
      exact absurd (show pgd_index virt < 256 from hv) (by omega)
  · obtain ⟨hdata, hsame⟩ := hs.tables k hk
    refine ⟨hdata.grow (hm.grows hr), hsame.trans
      (hm.only.same k (not_free_of_used hdata.1) fun hmem => ?_)⟩
    exact hdata.2 ⟨r, hr, hmem⟩

theorem Steady.newRoot (hs : Steady boot s0 s roots) (h : Unmarked boot s roots)
    (hnew : NewRoot s s' r)
    (hwritable : ∀ p i, UserPath (p ++ [i]) → p.length ≤ 2 →
      has (slot s'.mem r p i) PTE_PRESENT = true → has (slot s'.mem r p i) PTE_WRITABLE = true)
    (hkernel : ∀ i, 256 ≤ i → i < 512 → table_get s'.mem r i = table_get s0.mem boot i) :
    Steady boot s0 s' (insert r roots) := by
  have hkept := hs.of_free h hnew.only
  refine ⟨?_, ?_, fun k hk => ?_⟩
  · rintro r' (rfl | hr')
    · exact hwritable
    · exact hkept.writable r' hr'
  · rintro r' (rfl | hr')
    · exact hkernel
    · exact hkept.kernel r' hr'
  · exact ⟨(hs.tables k hk).1.grow (hnew.grows h.tables), (hkept.tables k hk).2⟩

/-! ## New spaces -/

theorem boot_page : pageOf boot ∈ spacePages s0.mem boot := ⟨[], boot, by simp, by simp, rfl, rfl⟩

section Spaces

variable (hs : Steady boot s0 s roots) (h : Unmarked boot s roots)

include hs h

theorem Steady.home {cr3 : BitVec 64} (hcr3 : AtHome boot roots cr3) {i : Nat} (hlo : 256 ≤ i)
    (hi : i < 512) : table_get s.mem (pte_addr cr3) i = table_get s0.mem boot i := by
  rcases hcr3 with hr | heq
  · rw [h.addr _ hr]
    exact hs.kernel _ hr i hlo hi
  · rw [heq]
    exact (hs.tables _ boot_page).2.table_get h.boot_aligned hi

theorem create_steady (hcr3 : AtHome boot roots s.cr3)
    (hnew : create_new_address_space s = .ok (r, s')) : Steady boot s0 s' (insert r roots) := by
  have hcreated := create_new_address_space_spec hnew
  refine hs.newRoot h hcreated.newRoot (fun p i hp _ hpres => ?_) fun i hlo hi => ?_
  · rw [slot_of_empty hcreated.user hp, zero_has] at hpres
    cases hpres
  · rw [hcreated.kernel (h.root_used hcr3) i hlo hi, hs.home h hcr3 hlo hi]

theorem clone_steady (hcr3 : s.cr3 ∈ roots)
    (hclone : clone_address_space s = .ok (r, s')) : Steady boot s0 s' (insert r roots) := by
  have hroot : pte_addr s.cr3 ∈ roots := (h.addr _ hcr3).symm ▸ hcr3
  obtain ⟨hcloned, -⟩ := clone_extends h hcr3 (Set.empty_subset _) hclone
  refine hs.newRoot h (hcloned.newRoot h.tables hroot) (fun p i hp hn => ?_) fun i hlo hi => ?_
  · exact entryCopied_writable (hcloned.copy.slots p i (userPath_iff.mp hp) (by omega))
      (hs.writable _ hroot p i hp hn)
  · rw [hcloned.kernel i hlo hi, hs.home h (.inl hcr3) hlo hi]

/-! ## Pages of an image -/

theorem map_new_steady (hr : r ∈ roots) (hpgd : s.current_pgd = some r) (hv : UserHalf virt)
    (halloc : alloc_page s = .ok (phys, s1)) (hmap : arch_map_page s1 virt phys flags = .ok s') :
    Steady boot s0 s' roots := by
  have hnew := alloc_page_new halloc
  have h1 := h.of_free (K := ∅) hnew.only (Set.empty_subset _)
  have hm := arch_map_page_spec h1.unmarked.tables hr (hnew.current_pgd.trans hpgd)
    (pathOf_user hv 4) hmap
  exact (hs.of_free h hnew.only).map hr hv hm

theorem load_page_steady {elf_data : Mem} {ph : Elf64Phdr} {j : Nat} (hr : r ∈ roots)
    (hpgd : s.current_pgd = some r) (hv : UserHalf (ph.page j))
    (hload : load_page elf_data ph j s = .ok s') : Steady boot s0 s' roots := by
  obtain ⟨phys, s1, s2, halloc, hmap, honly⟩ := load_page_cases hload
  have hnew := alloc_page_new halloc
  obtain ⟨hmapped, hdata, -⟩ := h.map_new hr hpgd hv halloc hmap (Set.empty_subset _)
    fun hmem => hmem.elim
  refine (map_new_steady hs h hr hpgd hv halloc hmap).of_only hmapped.unmarked honly
    (fun r hr => ?_) fun k hk => ?_
  · exact Set.disjoint_singleton_right.mpr fun hmem => hdata.2 ⟨r, hr, hmem⟩
  · exact hnew.ne_of_not_free (not_free_of_used (hs.tables k hk).1.1)

theorem load_pages_steady {elf_data : Mem} {pages : List (Elf64Phdr × Nat)} (hr : r ∈ roots)
    (hpgd : s.current_pgd = some r) (hv : ∀ q ∈ pages, UserHalf (q.1.page q.2))
    (hload : run (fun s q => load_page elf_data q.1 q.2 s) s pages = .ok s') :
    Steady boot s0 s' roots := by
  have hstep : ∀ q ∈ pages, ∀ s s' : Mm, Unmarked boot s roots ∧ s.current_pgd = some r ∧
    Steady boot s0 s roots →
      load_page elf_data q.1 q.2 s = .ok s' →
      Unmarked boot s' roots ∧ s'.current_pgd = some r ∧ Steady boot s0 s' roots := by
    rintro q hq s s' ⟨h, hpgd, hs⟩ hload
    have hext := load_page_extends h hr hpgd (hv q hq) (Set.empty_subset _)
      (fun hmem => hmem.elim) hload
    exact ⟨hext.unmarked, (load_page_root hload).2.trans hpgd,
      load_page_steady hs h hr hpgd (hv q hq) hload⟩
  exact (run_inv _ hstep ⟨h, hpgd, hs⟩ hload).2.2

theorem load_image_steady {elf_data : Mem} {new_cr3 : BitVec 64} (hcr3 : AtHome boot roots s.cr3)
    (himage : ImagePages UserHalf elf_data) (hload : load_image s elf_data = .ok (new_cr3, s')) :
    Steady boot s0 s' (insert new_cr3 roots) := by
  obtain ⟨s1, s2, hnew, hmap, hsegments⟩ := load_image_ok hload
  rw [load_segments_eq] at hsegments
  have hin : new_cr3 ∈ insert new_cr3 roots := Set.mem_insert _ _
  obtain ⟨-, hext, hpgd, hm⟩ := console_extends h hcr3 hnew hmap
  have hs1 : Steady boot s0 (switch_address_space s1 new_cr3) (insert new_cr3 roots) :=
    (create_steady hs h hcr3 hnew).of_mem rfl rfl
  exact load_pages_steady (hs1.map hin (by decide) hm) hext.unmarked hin hpgd
    (imagePages_iff.mp himage) hsegments

end Spaces

end Relis.Process
