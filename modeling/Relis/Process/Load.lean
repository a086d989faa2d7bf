import Relis.Paging.Refine
import Relis.Process.Image

/-!
# What the loader puts where

All three loaders take the pages of an image one after the other, so each page holds what
was put there last.
-/

open Relis.Bytes Relis.Run Relis.Code Relis.Slab Relis.PageAlloc Relis.Paging

namespace Relis.Process

variable {V : List Nat → Prop} {s s' : Mm} {r virt : BitVec 64} {elf_data : Mem}
  {ph : Elf64Phdr} {i j : Nat}

/-! ## The pages of an image -/

def imagePages (elf_data : Mem) : List (Elf64Phdr × Nat) :=
  (List.range' 0 (Elf64Hdr.at elf_data).e_phnum.toNat).flatMap fun i =>
    if (Elf64Phdr.at elf_data i).p_type = PT_LOAD then
      (List.range' 0 (Elf64Phdr.at elf_data i).pages.toNat).map fun j => (Elf64Phdr.at elf_data i, j)
    else []

theorem load_segments_eq (elf_data : Mem) (s : Mm) :
    loop 0 (Elf64Hdr.at elf_data).e_phnum.toNat (load_segment elf_data) s =
      run (fun s q => load_page elf_data q.1 q.2 s) s (imagePages elf_data) := by
  unfold imagePages
  rw [run_flatMap]
  refine congrArg (fun f => List.foldlM f s _) (funext fun s => funext fun i => ?_)
  unfold load_segment
  dsimp only
  split_ifs
  · rw [run_map]
    rfl
  · rfl

theorem mem_imagePages {q : Elf64Phdr × Nat} : q ∈ imagePages elf_data ↔
    ∃ i < (Elf64Hdr.at elf_data).e_phnum.toNat, (Elf64Phdr.at elf_data i).p_type = PT_LOAD ∧
      q.1 = Elf64Phdr.at elf_data i ∧ q.2 < (Elf64Phdr.at elf_data i).pages.toNat := by
  unfold imagePages
  rw [List.mem_flatMap]
  simp only [List.mem_range'_1, Nat.zero_le, Nat.zero_add, true_and]
  refine exists_congr fun i => and_congr_right fun _ => ?_
  split_ifs with htype
  · simp only [List.mem_map, List.mem_range'_1, Nat.zero_le, Nat.zero_add, true_and, htype]
    constructor
    · rintro ⟨j, hj, rfl⟩
      exact ⟨rfl, hj⟩
    · rintro ⟨hph, hj⟩
      exact ⟨q.2, hj, by rw [← hph]⟩
  · simp [htype]

theorem imagePages_iff {P : BitVec 64 → Prop} :
    ImagePages P elf_data ↔ ∀ q ∈ imagePages elf_data, P (q.1.page q.2) := by
  constructor
  · intro h q hq
    obtain ⟨i, hi, htype, hph, hj⟩ := mem_imagePages.mp hq
    rw [hph]
    exact h i hi htype q.2 hj
  · intro h i hi htype j hj
    exact h (Elf64Phdr.at elf_data i, j) (mem_imagePages.mpr ⟨i, hi, htype, rfl, hj⟩)


/-! ## The calls -/

theorem sys_execve_mm {k k' : Kernel} {regs regs' : Registers} {file : PathFile} {path : CString}
    {ret : Int} (hk : sys_execve k regs file path = .ok (ret, regs', k')) :
    (k'.mm = k.mm ∧ ∀ elf_data, file = .readable elf_data →
      (Elf64Hdr.at elf_data).e_magic ≠ ELF_MAGIC) ∨
    ∃ elf_data new_cr3, file = .readable elf_data ∧ (Elf64Hdr.at elf_data).e_magic = ELF_MAGIC ∧
      load_image k.mm elf_data = .ok (new_cr3, k'.mm) := by
  unfold sys_execve at hk
  cases file with
  | missing =>
    cases hk
    exact .inl ⟨rfl, by simp⟩
  | unreadable =>
    obtain ⟨⟨f, k1⟩, h1, hk⟩ := bind_ok.mp hk
    cases hk
    obtain ⟨-, heap1, rfl, -⟩ := kmalloc_object_ok (by decide) h1
    exact .inl ⟨rfl, by simp⟩
  | readable elf_data =>
    obtain ⟨⟨f, k1⟩, h1, hk⟩ := bind_ok.mp hk
    obtain ⟨⟨p, k2⟩, h2, hk⟩ := bind_ok.mp hk
    obtain ⟨-, heap1, rfl, -⟩ := kmalloc_object_ok (by decide) h1
    obtain ⟨-, heap2, rfl, -⟩ := kmalloc_object_ok (by decide) h2
    dsimp only at hk
    split_ifs at hk with hmagic
    · cases hk
      refine .inl ⟨rfl, ?_⟩
      rintro elf_data' ⟨⟩
      exact hmagic
    · obtain ⟨⟨new_cr3, mm⟩, hload, hk⟩ := bind_ok.mp hk
      obtain ⟨t, -, hk⟩ := bind_ok.mp hk
      cases hk
      exact .inr ⟨elf_data, new_cr3, rfl, not_not.mp hmagic, hload⟩

/-! ## One page -/

def copied (ph : Elf64Phdr) (j : Nat) : Nat :=
  let offset := BitVec.ofNat 64 j * 4096
  if offset < ph.p_filesz then
    (if offset + 4096 > ph.p_filesz then ph.p_filesz - offset else 4096).toNat else 0

def pageBytes (elf_data : Mem) (ph : Elf64Phdr) (j x : Nat) : BitVec 8 :=
  if x < copied ph j then elf_data ((ph.p_offset + BitVec.ofNat 64 j * 4096).toNat + x) else 0

theorem toNat_page (hj : j < 2 ^ 52) : (BitVec.ofNat 64 j * 4096).toNat = 4096 * j := by
  rw [BitVec.toNat_mul, BitVec.toNat_ofNat, show (4096 : BitVec 64).toNat = 4096 from rfl]
  omega

theorem copied_eq (ph : Elf64Phdr) (hj : j + 1 < 2 ^ 52) :
    copied ph j = min 4096 (ph.p_filesz.toNat - 4096 * j) := by
  have hoff := toNat_page (j := j) (by omega)
  have hpage : (4096 : BitVec 64).toNat = 4096 := rfl
  unfold copied
  dsimp only
  split_ifs with hcopy hlast
  · rw [BitVec.lt_def, hoff] at hcopy
    rw [gt_iff_lt, BitVec.lt_def, BitVec.toNat_add, hoff, hpage, Nat.mod_eq_of_lt (by omega)] at hlast
    rw [BitVec.toNat_sub_of_le (BitVec.le_def.mpr (by omega)), hoff]
    omega
  · rw [gt_iff_lt, BitVec.lt_def, BitVec.toNat_add, hoff, hpage, Nat.mod_eq_of_lt (by omega)] at hlast
    rw [hpage]
    omega
  · rw [BitVec.lt_def, hoff] at hcopy
    omega

theorem load_page_cases (h : load_page elf_data ph j s = .ok s') :
    ∃ phys s1 s2, alloc_page s = .ok (phys, s1) ∧
      arch_map_page s1 (ph.page j) phys (PTE_WRITABLE ||| PTE_USER) = .ok s2 ∧
      Only {pageOf phys} s2 s' := by
  unfold load_page at h
  obtain ⟨⟨phys, s1⟩, halloc, h⟩ := bind_ok.mp h
  obtain ⟨s2, hmap, h⟩ := bind_ok.mp h
  refine ⟨phys, s1, s2, halloc, hmap, ?_⟩
  dsimp only at h
  by_cases hcopy : BitVec.ofNat 64 j * 4096 < ph.p_filesz
  · replace h := (if_pos hcopy).symm.trans h
    cases h
    exact only_kmemcpy_into elf_data _ (alloc_page_new halloc).aligned (copy_len_le hcopy)
  · replace h := (if_neg hcopy).symm.trans h
    cases h
    exact .refl _ _

structure PageLoaded (V : List Nat → Prop) (s s' : Mm) (r virt phys : BitVec 64)
  (bytes : Nat → BitVec 8) : Prop where
  tables : Forest V s' {r}
  slots : ∀ q j, V q → q.length ≤ 3 → j < 512 → q ++ [j] ≠ pathOf virt (q.length + 1) →
    slot s'.mem r q j = slot s.mem r q j
  user : ∀ n < 3, has (slot s'.mem r (pathOf virt n) (indexOf virt n)) PTE_USER = true
  leaf : slot s'.mem r (pathOf virt 3) (indexOf virt 3) = pageEntry phys (PTE_WRITABLE ||| PTE_USER)
  addr : pte_addr phys = phys
  used : s'.pmm.page_used (pageOf phys) = true
  apart : pageOf phys ∉ pagesOn V s'.mem r
  bytes : ∀ x < 4096, s'.mem (phys.toNat + x) = bytes x
  only : Only (pagesOn V s.mem r) s s'
  pages : pagesOn V s'.mem r ⊆ pagesOn V s.mem r ∪ freePages s.pmm
  still : ∀ k ∈ freePages s'.pmm, SamePage s.mem s'.mem k

variable [PathKind V]

theorem node_of_absent (habsent : ∀ i, V [i] → has (table_get s.mem r i) PTE_PRESENT = false)
    {p : List Nat} {t : BitVec 64} (hp : V p) (ht : node s.mem r p = some t) : p = [] ∧ t = r := by
  induction p using List.reverseRecOn generalizing t with
  | nil =>
    cases ht
    exact ⟨rfl, rfl⟩
  | append_singleton p i ih =>
    rw [node_snoc, Option.bind_eq_some_iff] at ht
    obtain ⟨u, hu, hchild⟩ := ht
    obtain ⟨rfl, rfl⟩ := ih (PathKind.init hp) hu
    rw [child_of_absent (habsent i hp)] at hchild
    cases hchild

theorem forest_of_absent (hr : Aligned r) (hused : s.pmm.page_used (pageOf r) = true)
    (habsent : ∀ i, V [i] → has (table_get s.mem r i) PTE_PRESENT = false) : Forest V s {r} := by
  refine ⟨?_, ?_, ?_, ?_⟩
  · rintro r' rfl
    exact hr
  · rintro r1 rfl r2 rfl p1 p2 t hp1 hp2 - - ht1 ht2
    exact ⟨rfl, (node_of_absent habsent hp1 ht1).1.trans (node_of_absent habsent hp2 ht2).1.symm⟩
  · rintro r' rfl p t hp - ht
    rw [(node_of_absent habsent hp ht).2]
    exact hused
  · rintro r' rfl p i hp hn hpres
    cases ht : node s.mem r' p with
    | none =>
      rw [slot_of_none ht, zero_has] at hpres
      cases hpres
    | some t =>
      rw [(node_of_absent habsent (PathKind.init hp) ht).1] at hn
      simp at hn

theorem map_new_spec {s1 : Mm} {phys : BitVec 64} (hT : Forest V s {r})
    (hpgd : s.current_pgd = some r) (hv : V (pathOf virt 4))
    (halloc : alloc_page s = .ok (phys, s1))
    (hmap : arch_map_page s1 virt phys (PTE_WRITABLE ||| PTE_USER) = .ok s') :
    PageLoaded V s s' r virt phys fun _ => 0 := by
  have hnew := alloc_page_new halloc
  have hdisj : ∀ r' ∈ ({r} : Set (BitVec 64)), Disjoint (pagesOn V s.mem r') ∅ :=
    fun _ _ => Set.disjoint_empty _
  have hT1 := hT.of_only hnew.only hdisj
  have hpages1 : pagesOn V s1.mem r = pagesOn V s.mem r := hT.pagesOn_only hnew.only hdisj rfl
  have hpgd1 := hnew.current_pgd.trans hpgd
  have hm := arch_map_page_spec hT1 rfl hpgd1 hv hmap
  have hused1 : s1.pmm.page_used (pageOf phys) = true := by simp [hnew.used]
  have hfree : pageOf phys ∉ pagesOn V s1.mem r := by
    rw [hpages1]
    rintro ⟨q, x, hq, hn, hx, heq⟩
    exact hT.not_free rfl hq hn hx (heq ▸ hnew.was_free)
  have honly : Only (pagesOn V s.mem r) s s' :=
    (hnew.only.mono (Set.empty_subset _)).trans (hpages1 ▸ hm.only)
  have hpages : pagesOn V s'.mem r ⊆ pagesOn V s.mem r ∪ freePages s.pmm := by
    intro k hk
    rcases hm.pages_subset rfl hk with hk | hk
    · exact .inl (hpages1 ▸ hk)
    · exact .inr (hnew.only.free hk)
  refine ⟨hm.tables, ?_, fun n hn => (hm.path n hn).user, hm.leaf, hnew.addr, hm.only.used _ hused1,
    ?_, ?_, honly, hpages, ?_⟩
  · intro q j hq hn hj hoff
    rw [hm.slots r rfl q j hq hn hj fun h => hoff h.2, hT.slot_only hnew.only hdisj rfl hq hn hj]
  · intro hk
    rcases hm.pages_subset rfl hk with hk | hk
    · exact hfree hk
    · exact not_free_of_used hused1 hk
  · intro x hx
    have hpage : (phys.toNat + x) / 4096 = pageOf phys := by
      have haligned := hnew.aligned
      unfold Aligned at haligned
      unfold pageOf
      omega
    rw [hm.only.same _ (not_free_of_used hused1) hfree _ hpage, hnew.zero _ hpage]
  · intro k hk
    have hne : k ≠ pageOf phys := by
      rintro rfl
      exact not_free_of_used (hm.only.used _ hused1) hk
    refine (hnew.same k hne).trans (arch_map_page_samePage hT1 rfl hpgd1 hv hmap fun n hn t ht => ?_)
    rintro rfl
    exact hm.tables.not_free rfl (PathKind.pathOf hv (by omega)) (by simpa using hn) ht hk

theorem load_page_spec (hT : Forest V s {r}) (hpgd : s.current_pgd = some r)
    (hv : V (pathOf (ph.page j) 4)) (hload : load_page elf_data ph j s = .ok s') :
    ∃ phys, PageLoaded V s s' r (ph.page j) phys (pageBytes elf_data ph j) := by
  unfold load_page at hload
  obtain ⟨⟨phys, s1⟩, halloc, hload⟩ := bind_ok.mp hload
  obtain ⟨s2, hmap, hload⟩ := bind_ok.mp hload
  have h := map_new_spec hT hpgd hv halloc hmap
  refine ⟨phys, ?_⟩
  dsimp only at hload
  by_cases hcopy : BitVec.ofNat 64 j * 4096 < ph.p_filesz
  · replace hload := (if_pos hcopy).symm.trans hload
    cases hload
    have haligned : Aligned phys := h.addr ▸ addr_aligned phys
    have honly := only_kmemcpy_into (s := s2) elf_data
      (ph.p_offset + BitVec.ofNat 64 j * 4096).toNat haligned
      (copy_len_le hcopy)
    have hdisj : ∀ r' ∈ ({r} : Set (BitVec 64)), Disjoint (pagesOn V s2.mem r') {pageOf phys} := by
      rintro r' rfl
      exact Set.disjoint_singleton_right.mpr h.apart
    have hpages := h.tables.pagesOn_only honly hdisj rfl
    have hcopied : copied ph j = _ := if_pos hcopy
    have hnew : pageOf phys ∈ freePages s.pmm := (alloc_page_new halloc).was_free
    refine ⟨h.tables.of_only honly hdisj, ?_, fun n hn => ?_, ?_, h.addr, honly.used _ h.used, ?_,
      ?_, ?_, ?_, ?_⟩
    · intro q i hq hn hi hoff
      rw [h.tables.slot_only honly hdisj rfl hq hn hi, h.slots q i hq hn hi hoff]
    · rw [h.tables.slot_only honly hdisj rfl (PathKind.pathOf hv (by omega)) (by simp; omega)
        (indexOf_lt _ _)]
      exact h.user n hn
    · rw [h.tables.slot_only honly hdisj rfl (PathKind.pathOf hv (by omega)) (by simp)
        (indexOf_lt _ _), h.leaf]
    · rw [hpages]
      exact h.apart
    · intro x hx
      unfold pageBytes
      dsimp only
      rw [← hcopied, kmemcpy_into_apply, Nat.add_sub_cancel_left]
      by_cases hlt : x < copied ph j
      · rw [if_pos (by omega), if_pos hlt]
      · rw [if_neg (by omega), if_neg hlt]
        exact h.bytes x hx
    · exact h.only.trans_into honly (by
        rintro k rfl
        exact .inr hnew)
    · rw [hpages]
      exact h.pages
    · intro k hk
      have hne : k ≠ pageOf phys := by
        rintro rfl
        exact not_free_of_used h.used hk
      have hsame := samePage_kmemcpy_into s2.mem elf_data
        (ph.p_offset + BitVec.ofNat 64 j * 4096).toNat haligned
        (copy_len_le hcopy) hne
      have hstill := h.still k hk
      intro x hx
      rw [← hstill x hx, ← hsame x hx]
  · replace hload := (if_neg hcopy).symm.trans hload
    cases hload
    refine ⟨h.tables, h.slots, h.user, h.leaf, h.addr, h.used, h.apart, fun x hx => ?_, h.only,
      h.pages, h.still⟩
    rw [h.bytes x hx]
    unfold pageBytes copied
    dsimp only
    rw [if_neg hcopy, if_neg (by omega)]

end Relis.Process
