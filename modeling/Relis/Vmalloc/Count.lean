import Relis.Paging.Huge
import Relis.Vmalloc.Run

/-!
# Counting the pages of areas

`vmalloc` takes at least one free page for each page of the new area, and `vfree` gives back
as many.
-/

open Relis.Bytes Relis.Run Relis.Code Relis.PageAlloc Relis.Paging Relis.Slab

namespace Relis.Vmalloc

variable {V : List Nat → Prop} {s s' : Mm} {r : BitVec 64} {n : Nat} {a : Area}
  {areas : List Area} {k k' : Vm}

/-! ## Free pages -/

theorem Mapping.pages_nodup (h : Mapping V s r n areas) :
    ((areas.flatMap Area.frames).map pageOf).Nodup := by
  refine List.Nodup.map_on (fun f hf g hg heq => ?_) h.nodup
  obtain ⟨a, ha, hf⟩ := List.mem_flatMap.mp hf
  obtain ⟨b, hb, hg⟩ := List.mem_flatMap.mp hg
  exact pageOf_inj ((h.backing a ha f hf).addr ▸ addr_aligned f)
    ((h.backing b hb g hg).addr ▸ addr_aligned g) heq

def areaPages (areas : List Area) : Finset Nat := ((areas.flatMap Area.frames).map pageOf).toFinset

def areaCount (areas : List Area) : Nat := (areas.map fun a => a.frames.length).sum

theorem Mapping.areaPages_card (h : Mapping V s r n areas) :
    (areaPages areas).card = areaCount areas := by
  unfold areaPages areaCount
  rw [List.toFinset_card_of_nodup h.pages_nodup, List.length_map, List.length_flatMap]

theorem mem_areaPages {x : Nat} :
    x ∈ areaPages areas ↔ ∃ a ∈ areas, ∃ f ∈ a.frames, pageOf f = x := by
  unfold areaPages
  simp only [List.mem_toFinset, List.mem_map, List.mem_flatMap]
  constructor
  · rintro ⟨f, ⟨a, ha, hf⟩, rfl⟩
    exact ⟨a, ha, f, hf, rfl⟩
  · rintro ⟨a, ha, f, hf, rfl⟩
    exact ⟨f, ⟨a, ha, hf⟩, rfl⟩

theorem Mapping.free_disjoint (h : Mapping V s r n areas) :
    Disjoint (freePages s.pmm) (areaPages areas) := by
  rw [Finset.disjoint_left]
  intro x hfree hx
  obtain ⟨a, ha, f, hf, rfl⟩ := mem_areaPages.mp hx
  have hused := (h.backing a ha f hf).used
  rw [(mem_freePages.mp hfree).2] at hused
  cases hused

theorem Mapping.free_add_le (h : Mapping V s r n areas) :
    (freePages s.pmm).card + areaCount areas ≤ 65536 := by
  have hsub : freePages s.pmm ∪ areaPages areas ⊆ Finset.range 65536 := by
    have htotal := s.pmm.total_le
    unfold MAX_PHYS_PAGES at htotal
    intro x hx
    rw [Finset.mem_range]
    rcases Finset.mem_union.mp hx with hx | hx
    · have := (mem_freePages.mp hx).1
      omega
    · obtain ⟨a, ha, f, hf, rfl⟩ := mem_areaPages.mp hx
      have := (h.backing a ha f hf).lt
      omega
  have hcard := Finset.card_le_card hsub
  rwa [Finset.card_union_of_disjoint h.free_disjoint, h.areaPages_card, Finset.card_range] at hcard

theorem Vmalloced.free_card (h : Vmalloced V k k' r n areas a) :
    (freePages k'.mm.pmm).card + a.frames.length ≤ (freePages k.mm.pmm).card := by
  have hmap : Mapping V k'.mm r a.stop [a] := h.mapping.sublist (by simp)
  have hcount : areaCount [a] = a.frames.length := by simp [areaCount]
  have hsub : freePages k'.mm.pmm ∪ areaPages [a] ⊆ freePages k.mm.pmm := by
    intro x hx
    rcases Finset.mem_union.mp hx with hx | hx
    · exact h.grown.only.free hx
    · obtain ⟨b, hb, f, hf, rfl⟩ := mem_areaPages.mp hx
      rw [List.mem_singleton.mp hb] at hf
      exact h.fresh f hf
  have hcard := Finset.card_le_card hsub
  rwa [Finset.card_union_of_disjoint hmap.free_disjoint, hmap.areaPages_card, hcount] at hcard

theorem Returned.free_card (h : Mapping V s r n areas) (ha : a ∈ areas)
    (hret : Returned V s s' r a a.frames.length) :
    (freePages s'.pmm).card = (freePages s.pmm).card + a.frames.length := by
  have hmap : Mapping V s r n [a] := h.sublist (List.singleton_sublist.mpr ha)
  have heq : freePages s'.pmm = freePages s.pmm ∪ areaPages [a] := by
    ext x
    have hused := hret.used x
    rw [List.take_length] at hused
    simp only [Finset.mem_union, mem_freePages, hret.total, mem_areaPages, List.mem_singleton,
      exists_eq_left]
    rw [← Bool.not_eq_true, ← Bool.not_eq_true, hused]
    constructor
    · rintro ⟨hlt, hnot⟩
      by_cases hx : s.pmm.page_used x = true
      · right
        by_contra hno
        exact hnot ⟨hx, fun f hf heq => hno ⟨f, hf, heq.symm⟩⟩
      · exact .inl ⟨hlt, hx⟩
    · rintro (⟨hlt, hx⟩ | ⟨f, hf, rfl⟩)
      · exact ⟨hlt, fun hboth => hx hboth.1⟩
      · exact ⟨(h.backing a ha f hf).lt, fun hboth => hboth.2 f hf rfl⟩
  have hcount : areaCount [a] = a.frames.length := by simp [areaCount]
  rw [heq, Finset.card_union_of_disjoint hmap.free_disjoint, hmap.areaPages_card, hcount]

/-! ## Pages that are left -/

theorem vfree_pages_inv (hinv : Inv s.pmm) (ptr : BitVec 64) (count : Nat) :
    Inv (vfree_pages s ptr count).pmm := by
  induction count with
  | zero => exact hinv
  | succ count ih =>
    rw [vfree_pages_succ]
    unfold vfree_page
    split
    · exact ih
    · dsimp only
      split_ifs
      · exact free_page_inv _ ih
      · exact ih

/-! ## Two megabytes at a time -/

theorem middle_of_leaf {m : Mem} {v : BitVec 64} (h : has (leaf m r v) PTE_PRESENT = true) :
    has (middleEntry m r v) PTE_PRESENT = true := by
  cases ht : node m r (pathOf v 3) with
  | none =>
    rw [leaf, slot_of_none ht, zero_has] at h
    cases h
  | some t =>
    rw [pathOf_succ, node_of_slot] at ht
    by_contra habsent
    rw [Bool.not_eq_true, middleEntry] at habsent
    rw [child_of_absent habsent] at ht
    cases ht

theorem middle_next (m : Mem) (hn : (n + 1) % 512 ≠ 0) (hlt : n + 1 < windowPages) :
    middleEntry m r (windowPage (n + 1)) = middleEntry m r (windowPage n) := by
  have hlt' : n < windowPages := by omega
  have hpath : pathOf (windowPage (n + 1)) 2 = pathOf (windowPage n) 2 := by
    simp only [pathOf, List.range_succ, List.range_zero, List.map_append, List.map_cons,
      List.map_nil, List.nil_append, indexOf, pgd_index_window hlt, pgd_index_window hlt',
      pud_index_window hlt, pud_index_window hlt']
    rw [show (n + 1) / 134217728 = n / 134217728 by omega, show (n + 1) / 262144 = n / 262144 by omega]
  have hindex : indexOf (windowPage (n + 1)) 2 = indexOf (windowPage n) 2 := by
    simp only [indexOf, pmd_index_window hlt, pmd_index_window hlt']
    rw [show (n + 1) / 512 = n / 512 by omega]
  unfold middleEntry
  rw [hpath, hindex]

theorem vmalloc_page_next [WindowKind V] {m : Nat} (h : Mapping V k.mm r (n + 1) (a :: areas))
    (hstop : a.stop = n + 1) (hpos : 0 < a.frames.length) (hsame : (n + 1) % 512 ≠ 0)
    (hlt : n + 1 < windowPages) (hpgd : k.mm.current_pgd = some r)
    (hptr : k.vmalloc_ptr = windowPage (n + 1)) (hpool : Pool (m + 1) k.mm) :
    ∃ k', vmalloc_page k = .ok k' ∧ Pool m k'.mm := by
  obtain ⟨phys, mm1, halloc, hpool1⟩ := alloc_page_pool hpool
  have hlast : a.first + (a.frames.length - 1) = n := by
    unfold Area.stop at hstop
    omega
  obtain ⟨f, hf⟩ : ∃ f, a.frames[a.frames.length - 1]? = some f :=
    ⟨_, List.getElem?_eq_getElem (by omega)⟩
  -- the table of the page before is there, and the new frame is none of the tables
  obtain ⟨-, -, hgrown⟩ := alloc_page_grown (fun _ => False) h.tables halloc
  have hmiddle : has (middleEntry mm1.mem r (windowPage (n + 1))) PTE_PRESENT = true := by
    rw [middle_next _ hsame hlt]
    apply middle_of_leaf
    rw [hgrown.slots.window (by omega) (fun h => h), ← hlast, h.mapped a List.mem_cons_self _ f hf]
    exact pageEntry_present f _
  have hmap := arch_map_page_present (hgrown.only.current_pgd.trans hpgd) hmiddle phys
    (show has PTE_WRITABLE PTE_USER = false by decide)
  rw [← hptr] at hmap
  refine ⟨_, bind_ok.mpr ⟨_, halloc, bind_ok.mpr ⟨_, hmap, rfl⟩⟩, hpool1.of_pmm (table_set_pmm _ _ _ _)⟩

theorem vmalloc_block_pool [WindowKind V] {c m : Nat} (h : Mapping V k.mm r (512 * c) areas)
    (hfit : 512 * (c + 1) ≤ windowPages) (hpgd : k.mm.current_pgd = some r)
    (hptr : k.vmalloc_ptr = windowPage (512 * c)) (hpool : Pool (m + 515) k.mm) :
    ∃ k', loop 0 512 (fun _ k => vmalloc_page k) k = .ok k' ∧ k'.heap_ptr = k.heap_ptr ∧
      k'.vm = k.vm ∧
      k'.vm_struct_list = k.vm_struct_list ∧ Pool m k'.mm := by
  have hbody : ∀ i k1, 0 ≤ i → i < 0 + 512 → (∃ frames mm, frames.length = i ∧
      k1 = { k with mm := mm, vmalloc_ptr := windowPage (512 * c + i) } ∧ mm.current_pgd = some r ∧
      Mapping V mm r (512 * c + i) (⟨512 * c, frames, 0⟩ :: areas) ∧
      Pool (m + (512 - i) + if i = 0 then 3 else 0) mm) →
      ∃ k2, vmalloc_page k1 = .ok k2 ∧ ∃ frames mm, frames.length = i + 1 ∧
        k2 = { k with mm := mm, vmalloc_ptr := windowPage (512 * c + (i + 1)) } ∧
        mm.current_pgd = some r ∧
        Mapping V mm r (512 * c + (i + 1)) (⟨512 * c, frames, 0⟩ :: areas) ∧
        Pool (m + (512 - (i + 1)) + if i + 1 = 0 then 3 else 0) mm := by
    rintro i k1 - hi ⟨frames, mm, hlen, rfl, hpgd1, hmap, hpool1⟩
    have hstop : (⟨512 * c, frames, 0⟩ : Area).stop = 512 * c + i := by rw [Area.stop, hlen]
    -- the first page of the block may need its tables, the others have them
    obtain ⟨k2, hpage, hpool2⟩ : ∃ k2, vmalloc_page
        { k with mm := mm, vmalloc_ptr := windowPage (512 * c + i) } = .ok k2 ∧
        Pool (m + (512 - (i + 1))) k2.mm := by
      cases i with
      | zero =>
        obtain ⟨k2, hpage, -, -, -, hpool2⟩ := vmalloc_page_pool
          (k := { k with mm := mm, vmalloc_ptr := windowPage (512 * c + 0) }) (n := m + (512 - (0 + 1)))
          (hpool1.le (by simp))
        exact ⟨k2, hpage, hpool2⟩
      | succ i =>
        exact vmalloc_page_next
          (k := { k with mm := mm, vmalloc_ptr := windowPage (512 * c + (i + 1)) })
          (n := 512 * c + i) hmap hstop (by simp [hlen]) (by omega) (by omega) hpgd1 rfl
            (hpool1.le (by omega))
    obtain ⟨f, mm', rfl, -, hmap', hgrown⟩ := vmalloc_page_spec hmap hstop (.inl hpgd1)
      (currentUsed_of_forest hmap.tables hpgd1) rfl (by omega) hpage
    exact ⟨_, hpage, frames ++ [f], mm', by simp [hlen], rfl, hgrown.only.current_pgd.trans hpgd1,
      hmap', hpool2⟩
  obtain ⟨k', hloop, frames, mm, -, rfl, -, -, hpool'⟩ :=
    loop_total _ (fun _ k => vmalloc_page k) 0 512 k hbody
    ⟨[], k.mm, rfl, by rw [Nat.add_zero, ← hptr], hpgd, h.open 0, hpool⟩
  exact ⟨_, hloop, rfl, rfl, rfl, hpool'⟩

end Relis.Vmalloc
