import Relis.Paging.Owner
import Relis.Process.Tasks

/-!
# Images in new spaces

An image is loaded into frames of its own, and the console keeps its entry if no page of the
image lies on it.
-/

open Relis.Bytes Relis.Run Relis.Code Relis.PageAlloc Relis.Paging

namespace Relis.Process

variable {s s' s1 : Mm} {roots roots' roots1 K : Set (BitVec 64)} {r boot virt phys flags : BitVec 64}

/-! ## The mark for copy-on-write -/

structure Unmarked (boot : BitVec 64) (s : Mm) (roots : Set (BitVec 64)) :
  Prop extends Owner s roots where
  entries : ∀ r ∈ roots, ∀ p i, UserPath p → p.length ≤ 3 → i < 512 →
    has (slot s.mem r p i) PTE_COW = false
  boot_aligned : Aligned boot
  boot_data : Data s roots (pageOf boot)
  boot_entries : ∀ i < 512, has (table_get s.mem boot i) PTE_COW = false

theorem tableEntry_cow (t : BitVec 64) {u : BitVec 64} (hu : UserFlag u) :
    has (tableEntry t u) PTE_COW = false := by
  rw [tableEntry, has_or, has_or, has_or, addr_has _ _ (by decide), hu.has (by decide)]
  decide

theorem ensuredEntry_cow {old u e : BitVec 64} (h : EnsuredEntry s old u e) (hu : UserFlag u)
    (hold : has old PTE_COW = false) : has e PTE_COW = false := by
  rcases h with ⟨-, rfl⟩ | ⟨-, f, -, -, rfl⟩
  · rw [has_or, hold, hu.has (by decide), Bool.or_false]
  · exact tableEntry_cow f hu

theorem pageEntry_cow (phys : BitVec 64) (h : has flags PTE_COW = false) :
    has (pageEntry phys flags) PTE_COW = false := by
  rw [pageEntry, has_or, has_or, addr_has _ _ (by decide), h]
  decide

theorem entryCopied_cow {d : Nat} {e e' : BitVec 64} (h : EntryCopied d e e')
    (he : has e PTE_COW = false) : has e' PTE_COW = false := by
  rcases h with hp | ⟨hd, hp, hh⟩ | ⟨f, hp, hd, hf⟩
  · exact zero_has _
  · exact he
  · rw [has_of_flags (cloneEntry_flags hf e) (by decide), he]

theorem mapped_unmarked {V : List Nat → Prop} (hm : MappedOn V s s' roots r virt phys flags)
    (hcow : has flags PTE_COW = false)
    (h : ∀ r ∈ roots, ∀ p i, V p → p.length ≤ 3 → i < 512 → has (slot s.mem r p i) PTE_COW = false) :
    ∀ r ∈ roots, ∀ p i, V p → p.length ≤ 3 → i < 512 → has (slot s'.mem r p i) PTE_COW = false := by
  intro r' hr' p i hp hn hi
  by_cases hhere : r' = r ∧ p ++ [i] = pathOf virt (p.length + 1)
  · obtain ⟨rfl, hpath⟩ := hhere
    obtain ⟨h1, h2⟩ := snoc_eq_pathOf hpath
    rcases Nat.lt_or_ge p.length 3 with hlt | hge
    · have hentry := hm.path p.length hlt
      rw [← h1, ← h2] at hentry
      exact ensuredEntry_cow hentry (userFlag_cases flags) (h r' hr' p i hp hn hi)
    · obtain hlen : p.length = 3 := by omega
      rw [hlen] at h1 h2
      rw [h1, h2, hm.leaf]
      exact pageEntry_cow phys hcow
  · rw [hm.slots r' hr' p i hp hn hi hhere]
    exact h r' hr' p i hp hn hi

/-! ## The entry of the console -/

def consoleEntry (m : Mem) (r : BitVec 64) : BitVec 64 :=
  slot m r (pathOf 0xB8000 3) (indexOf 0xB8000 3)

def OffConsole (v : BitVec 64) : Prop := pathOf v 4 ≠ pathOf 0xB8000 4

instance : DecidablePred OffConsole :=
  fun v => inferInstanceAs (Decidable (pathOf v 4 ≠ pathOf 0xB8000 4))

theorem console_path : UserPath (pathOf 0xB8000 3) := pathOf_user (by decide) 3

/-! ## Steps -/

/-- From `s` to `s'`, frames are only taken, and the spaces of `K` keep their console. -/
structure Extends (boot : BitVec 64) (K : Set (BitVec 64)) (s s' : Mm)
  (roots roots' : Set (BitVec 64)) : Prop where
  subset : roots ⊆ roots'
  unmarked : Unmarked boot s' roots'
  grows : Grows s s' roots roots'
  free : freePages s'.pmm ⊆ freePages s.pmm
  console : ∀ r ∈ K, consoleEntry s'.mem r = consoleEntry s.mem r

theorem Unmarked.refl (h : Unmarked boot s roots) (K : Set (BitVec 64)) :
    Extends boot K s s roots roots :=
  ⟨subset_rfl, h, ⟨fun _ hk => hk, fun _ hk => .inl hk⟩, Finset.Subset.refl _, fun _ _ => rfl⟩

theorem Extends.trans (h1 : Extends boot K s s1 roots roots1)
    (h2 : Extends boot K s1 s' roots1 roots') : Extends boot K s s' roots roots' :=
  ⟨h1.subset.trans h2.subset, h2.unmarked, h1.grows.trans h2.grows h1.free, h2.free.trans h1.free,
    fun r hr => (h2.console r hr).trans (h1.console r hr)⟩

theorem Unmarked.of_mem (h : Unmarked boot s roots) (hmem : s'.mem = s.mem) (hpmm : s'.pmm = s.pmm) :
    Unmarked boot s' roots := by
  obtain ⟨⟨hT, haddr, hleaves, hconsole⟩, hentries, haligned, hdata, hboot⟩ := h
  have hsame : ∀ k, Data s' roots k ↔ Data s roots k := fun k => by
    unfold Data
    rw [hmem, hpmm]
  refine ⟨⟨hT.of_mem hmem fun _ _ _ _ hused => ?_, haddr, ?_, (hsame _).mpr hconsole⟩, ?_, haligned,
    (hsame _).mpr hdata, ?_⟩
  · rw [hpmm]
    exact hused
  · intro r hr p i hp hn hpres
    rw [hmem] at hpres ⊢
    exact (hsame _).mpr (hleaves r hr p i hp hn hpres)
  · rw [hmem]
    exact hentries
  · rw [hmem]
    exact hboot

theorem Unmarked.of_only {W : Set Nat} (h : Unmarked boot s roots) (honly : Only W s s')
    (hW : ∀ r ∈ roots, Disjoint (userPages s.mem r) W) (hboot : pageOf boot ∉ W) (hK : K ⊆ roots) :
    Extends boot K s s' roots roots := by
  have hgrows := grows_of_only h.tables honly hW
  refine ⟨subset_rfl, ⟨h.toOwner.of_only honly hW, ?_, h.boot_aligned, h.boot_data.grow hgrows, ?_⟩,
    hgrows, honly.free, ?_⟩
  · intro r hr p i hp hn hi
    rw [h.tables.slot_only honly hW hr hp hn hi]
    exact h.entries r hr p i hp hn hi
  · intro i hi
    rw [(honly.same _ (not_free_of_used h.boot_data.1) hboot).table_get h.boot_aligned hi]
    exact h.boot_entries i hi
  · intro r hr
    exact h.tables.slot_only honly hW (hK hr) console_path (by simp) (indexOf_lt _ _)

theorem Unmarked.of_free (h : Unmarked boot s roots) (honly : Only ∅ s s') (hK : K ⊆ roots) :
    Extends boot K s s' roots roots :=
  h.of_only honly (fun _ _ => Set.disjoint_empty _) (Set.notMem_empty _) hK

theorem Unmarked.of_data {k : Nat} (h : Unmarked boot s roots) (honly : Only {k} s s')
    (hdata : k ∉ tablePages s.mem roots) (hboot : k ≠ pageOf boot) (hK : K ⊆ roots) :
    Extends boot K s s' roots roots := by
  refine h.of_only honly (fun r hr => ?_) (fun heq => hboot heq.symm) hK
  rw [Set.disjoint_singleton_right]
  exact fun hk => hdata ⟨r, hr, hk⟩

theorem Unmarked.map (h : Unmarked boot s roots) (hr : r ∈ roots) (hflags : pte_flags flags = flags)
    (hcow : has flags PTE_COW = false) (hphys : Data s roots (pageOf (pte_addr phys)))
    (hm : Mapped s s' roots r virt phys flags) (hK : K ⊆ roots) (hoff : r ∈ K → OffConsole virt) :
    Extends boot K s s' roots roots := by
  have hgrows := hm.grows hr
  refine ⟨subset_rfl, ⟨h.toOwner.map hr hflags hphys hm, mapped_unmarked hm hcow h.entries, h.boot_aligned,
    h.boot_data.grow hgrows, ?_⟩, hgrows, hm.only.free, ?_⟩
  · intro i hi
    have hboot : pageOf boot ∉ userPages s.mem r := fun hk => h.boot_data.2 ⟨r, hr, hk⟩
    rw [(hm.only.same _ (not_free_of_used h.boot_data.1) hboot).table_get h.boot_aligned hi]
    exact h.boot_entries i hi
  · intro r' hr'
    refine hm.slots r' (hK hr') _ _ console_path (by simp) (indexOf_lt _ _) ?_
    rintro ⟨rfl, hpath⟩
    rw [pathOf_length, ← pathOf_succ] at hpath
    exact hoff hr' hpath.symm

theorem Unmarked.newRoot (h : Unmarked boot s roots) (hnew : NewRoot s s' r)
    (hentries : ∀ p i, UserPath p → p.length ≤ 3 → i < 512 → has (slot s'.mem r p i) PTE_COW = false)
    (hK : K ⊆ roots) : Extends boot K s s' roots (insert r roots) := by
  have hgrows := hnew.grows h.tables
  have hkept := h.of_free hnew.only hK
  refine ⟨Set.subset_insert _ _, ⟨h.toOwner.insert hnew, ?_, h.boot_aligned, h.boot_data.grow hgrows,
    hkept.unmarked.boot_entries⟩, hgrows, hnew.only.free, hkept.console⟩
  rintro r' (rfl | hr') p i hp hn hi
  · exact hentries p i hp hn hi
  · exact hkept.unmarked.entries r' hr' p i hp hn hi

/-! ## New spaces -/

def AtHome (boot : BitVec 64) (roots : Set (BitVec 64)) (cr3 : BitVec 64) : Prop :=
  cr3 ∈ roots ∨ pte_addr cr3 = boot

theorem Unmarked.root_entries (h : Unmarked boot s roots) {cr3 : BitVec 64}
    (hcr3 : AtHome boot roots cr3) {i : Nat} (hi : i < 512) :
    has (table_get s.mem (pte_addr cr3) i) PTE_COW = false := by
  rcases hcr3 with hr | heq
  · rw [h.addr _ hr]
    exact h.entries _ hr [] i trivial (by simp) hi
  · rw [heq]
    exact h.boot_entries i hi

theorem Unmarked.root_used (h : Unmarked boot s roots) {cr3 : BitVec 64}
    (hcr3 : AtHome boot roots cr3) : pageOf (pte_addr cr3) ∉ freePages s.pmm := by
  rcases hcr3 with hr | heq
  · rw [h.addr _ hr]
    exact h.tables.not_free hr (p := []) trivial (by simp) rfl
  · rw [heq]
    exact not_free_of_used h.boot_data.1

theorem userPath_or {p : List Nat} {i : Nat} (hp : UserPath p) (hi : i < 512) :
    UserPath (p ++ [i]) ∨ (p = [] ∧ 256 ≤ i) := by
  cases p with
  | nil =>
    rcases Nat.lt_or_ge i 256 with hlt | hge
    · exact .inl ⟨hlt, by simp⟩
    · exact .inr ⟨rfl, hge⟩
  | cons j p =>
    refine .inl ⟨hp.1, fun x hx => ?_⟩
    rcases List.mem_append.mp hx with hx | hx
    · exact hp.2 x hx
    · rw [List.mem_singleton.mp hx]
      exact hi

theorem create_extends (h : Unmarked boot s roots) (hcr3 : AtHome boot roots s.cr3) (hK : K ⊆ roots)
    (hnew : create_new_address_space s = .ok (r, s')) :
    Extends boot K s s' roots (insert r roots) := by
  have hcreated := create_new_address_space_spec hnew
  refine h.newRoot hcreated.newRoot (fun p i hp hn hi => ?_) hK
  rcases userPath_or hp hi with hpath | ⟨rfl, hlo⟩
  · rw [slot_of_empty hcreated.user hpath, zero_has]
  · rw [show slot s'.mem r [] i = table_get s'.mem r i from rfl,
      hcreated.kernel (h.root_used hcr3) i hlo hi]
    exact h.root_entries hcr3 hi

theorem clone_extends (h : Unmarked boot s roots) (hcr3 : s.cr3 ∈ roots) (hK : K ⊆ roots)
    (hclone : clone_address_space s = .ok (r, s')) :
    Cloned s s' r ∧ Extends boot K s s' roots (insert r roots) := by
  have hself := h.addr _ hcr3
  have hroot : pte_addr s.cr3 ∈ roots := hself.symm ▸ hcr3
  have hcloned := clone_address_space_spec (h.toOwner.parent hroot) hclone
  refine ⟨hcloned, h.newRoot (hcloned.newRoot h.tables hroot) (fun p i hp hn hi => ?_) hK⟩
  rcases userPath_or hp hi with hpath | ⟨rfl, hlo⟩
  · exact entryCopied_cow (hcloned.copy.slots p i (userPath_iff.mp hpath) (by omega))
      (h.entries _ hroot p i hp hn hi)
  · rw [show slot s'.mem r [] i = table_get s'.mem r i from rfl, hcloned.kernel i hlo hi]
    exact h.root_entries (.inl hcr3) hi

/-! ## Pages of an image -/

theorem copy_len_le {offset filesz : BitVec 64} (h : offset < filesz) :
    (if offset + 4096 > filesz then filesz - offset else 4096).toNat ≤ 4096 := by
  split_ifs with hlast
  · rw [gt_iff_lt, BitVec.lt_def, BitVec.toNat_add] at hlast
    rw [BitVec.lt_def] at h
    rw [BitVec.toNat_sub_of_le (BitVec.le_def.mpr h.le)]
    have hpage : (4096 : BitVec 64).toNat = 4096 := rfl
    omega
  · decide

theorem Unmarked.map_new {s2 : Mm} (h : Unmarked boot s roots) (hr : r ∈ roots)
    (hpgd : s.current_pgd = some r) (hv : UserHalf virt) (halloc : alloc_page s = .ok (phys, s1))
    (hmap : arch_map_page s1 virt phys (PTE_WRITABLE ||| PTE_USER) = .ok s2) (hK : K ⊆ roots)
    (hoff : r ∈ K → OffConsole virt) :
    Extends boot K s s2 roots roots ∧ Data s2 roots (pageOf phys) ∧ pageOf phys ≠ pageOf boot ∧
      Aligned phys := by
  have hnew := alloc_page_new halloc
  have hdata := hnew.data h.tables
  have h1 : Extends boot K s s1 roots roots := h.of_free hnew.only hK
  have hm := arch_map_page_spec h1.unmarked.tables hr (hnew.current_pgd.trans hpgd)
    (pathOf_user hv 4) hmap
  have h2 := h1.unmarked.map hr (by decide) (by decide) (hnew.addr.symm ▸ hdata) hm hK hoff
  refine ⟨h1.trans h2, hdata.grow h2.grows, ?_, hnew.aligned⟩
  exact (hnew.ne_of_not_free (not_free_of_used h.boot_data.1)).symm

theorem load_page_extends {elf_data : Mem} {ph : Elf64Phdr} {j : Nat} (h : Unmarked boot s roots)
    (hr : r ∈ roots) (hpgd : s.current_pgd = some r) (hv : UserHalf (ph.page j)) (hK : K ⊆ roots)
    (hoff : r ∈ K → OffConsole (ph.page j)) (hload : load_page elf_data ph j s = .ok s') :
    Extends boot K s s' roots roots := by
  unfold load_page at hload
  obtain ⟨⟨phys, s1⟩, halloc, hload⟩ := bind_ok.mp hload
  obtain ⟨s2, hmap, hload⟩ := bind_ok.mp hload
  obtain ⟨hmapped, hdata, hboot, haligned⟩ := h.map_new hr hpgd hv halloc hmap hK hoff
  dsimp only at hload
  by_cases hcopy : BitVec.ofNat 64 j * 4096 < ph.p_filesz
  · replace hload := (if_pos hcopy).symm.trans hload
    cases hload
    exact hmapped.trans
      (hmapped.unmarked.of_data (only_kmemcpy_into elf_data _ haligned (copy_len_le hcopy))
      hdata.2 hboot hK)
  · replace hload := (if_neg hcopy).symm.trans hload
    cases hload
    exact hmapped

def ImagePages (P : BitVec 64 → Prop) (elf_data : Mem) : Prop :=
  ∀ i < (Elf64Hdr.at elf_data).e_phnum.toNat, (Elf64Phdr.at elf_data i).p_type = PT_LOAD →
    ∀ j < (Elf64Phdr.at elf_data i).pages.toNat, P ((Elf64Phdr.at elf_data i).page j)

instance (P : BitVec 64 → Prop) [DecidablePred P] (elf_data : Mem) :
    Decidable (ImagePages P elf_data) :=
  inferInstanceAs (Decidable (∀ i < _, _ → ∀ j < _, _))

theorem load_segment_extends {elf_data : Mem} {i : Nat} (h : Unmarked boot s roots) (hr : r ∈ roots)
    (hpgd : s.current_pgd = some r) (hK : K ⊆ roots) (himage : ImagePages UserHalf elf_data)
    (hoff : r ∈ K → ImagePages OffConsole elf_data) (hi : i < (Elf64Hdr.at elf_data).e_phnum.toNat)
    (hload : load_segment elf_data i s = .ok s') :
    Extends boot K s s' roots roots ∧ s'.current_pgd = some r := by
  unfold load_segment at hload
  dsimp only at hload
  split_ifs at hload with htype
  · refine loop_inv (fun _ s1 => Extends boot K s s1 roots roots ∧ s1.current_pgd = some r) ?_
      ⟨h.refl K, hpgd⟩ hload
    rintro j s1 s2 - hj ⟨hext, hpgd1⟩ hpage
    rw [Nat.zero_add] at hj
    have hnext := load_page_extends hext.unmarked hr hpgd1 (himage i hi htype j hj) hK
      (fun hrK => hoff hrK i hi htype j hj) hpage
    exact ⟨hext.trans hnext, (load_page_root hpage).2.trans hpgd1⟩
  · cases hload
    exact ⟨h.refl K, hpgd⟩

theorem load_segments_extends {elf_data : Mem} (h : Unmarked boot s roots) (hr : r ∈ roots)
    (hpgd : s.current_pgd = some r) (hK : K ⊆ roots) (himage : ImagePages UserHalf elf_data)
    (hoff : r ∈ K → ImagePages OffConsole elf_data)
    (hload : loop 0 (Elf64Hdr.at elf_data).e_phnum.toNat (load_segment elf_data) s = .ok s') :
    Extends boot K s s' roots roots := by
  refine (loop_inv (fun _ s1 => Extends boot K s s1 roots roots ∧ s1.current_pgd = some r) ?_
    ⟨h.refl K, hpgd⟩ hload).1
  rintro i s1 s2 - hi ⟨hext, hpgd1⟩ hsegment
  rw [Nat.zero_add] at hi
  obtain ⟨hnext, hpgd2⟩ := load_segment_extends hext.unmarked hr hpgd1 hK himage hoff hi hsegment
  exact ⟨hext.trans hnext, hpgd2⟩

theorem console_extends {new_cr3 : BitVec 64} {s2 : Mm} (h : Unmarked boot s roots)
    (hcr3 : AtHome boot roots s.cr3) (hnew : create_new_address_space s = .ok (new_cr3, s1))
    (hmap : arch_map_page (switch_address_space s1 new_cr3) 0xB8000 0xB8000
      (PTE_WRITABLE ||| PTE_GLOBAL) = .ok s2) :
    new_cr3 ∉ roots ∧ Extends boot roots s s2 roots (insert new_cr3 roots) ∧
      s2.current_pgd = some new_cr3 ∧
      Mapped (switch_address_space s1 new_cr3) s2 (insert new_cr3 roots) new_cr3 0xB8000 0xB8000
        (PTE_WRITABLE ||| PTE_GLOBAL) := by
  have hcreated := create_new_address_space_spec hnew
  have hfresh : new_cr3 ∉ roots := fun hmem =>
    h.tables.not_free hmem (p := []) trivial (by simp) rfl hcreated.was_free
  have hin : new_cr3 ∈ insert new_cr3 roots := Set.mem_insert _ _
  have h1 := create_extends h hcr3 subset_rfl hnew
  have h2 : Extends boot roots s (switch_address_space s1 new_cr3) roots (insert new_cr3 roots) :=
    ⟨h1.subset, h1.unmarked.of_mem rfl rfl, ⟨h1.grows.used, h1.grows.pages⟩, h1.free, h1.console⟩
  have hpgd : (switch_address_space s1 new_cr3).current_pgd = some new_cr3 :=
    congrArg some hcreated.addr
  have hm := arch_map_page_spec h2.unmarked.tables hin hpgd (pathOf_user (by decide) 4) hmap
  have hconsole : consolePage = pageOf (pte_addr 0xB8000) := by decide
  have h3 := h2.unmarked.map hin (by decide) (by decide) (hconsole ▸ h2.unmarked.console) hm
    (Set.subset_insert _ _) fun hmem => absurd hmem hfresh
  exact ⟨hfresh, h2.trans h3, (arch_map_page_root hmap).2.trans hpgd, hm⟩

theorem load_image_extends {elf_data : Mem} {new_cr3 : BitVec 64} (h : Unmarked boot s roots)
    (hcr3 : AtHome boot roots s.cr3) (himage : ImagePages UserHalf elf_data)
    (hload : load_image s elf_data = .ok (new_cr3, s')) :
    Extends boot roots s s' roots (insert new_cr3 roots) ∧
      (ImagePages OffConsole elf_data →
        consoleEntry s'.mem new_cr3 = pageEntry 0xB8000 (PTE_WRITABLE ||| PTE_GLOBAL)) := by
  obtain ⟨s1, s2, hnew, hmap, hsegments⟩ := load_image_ok hload
  have hin : new_cr3 ∈ insert new_cr3 roots := Set.mem_insert _ _
  obtain ⟨hfresh, hext, hpgd, hm⟩ := console_extends h hcr3 hnew hmap
  refine ⟨hext.trans ?_, fun hoff => ?_⟩
  · exact load_segments_extends hext.unmarked hin hpgd (Set.subset_insert _ _) himage
      (fun hmem => absurd hmem hfresh) hsegments
  · have hkept := load_segments_extends hext.unmarked hin hpgd subset_rfl himage
      (fun _ => hoff) hsegments
    exact (hkept.console _ hin).trans hm.leaf

/-! ## Faults -/

theorem cow_entry_data {v e : BitVec 64} {pte : Nat} (h : Unmarked boot s roots)
    (hcow : cow_entry s v = some (pte, e)) : ∃ t, Aligned t ∧ pte = t.toNat + 8 * pte_index v ∧
      pageOf t ∉ tablePages s.mem roots ∧ pageOf t ≠ pageOf boot := by
  unfold cow_entry at hcow
  simp only [Option.bind_eq_bind, Option.bind_eq_some_iff] at hcow
  obtain ⟨pte', hwalk, ⟨⟩, hguard, hcow⟩ := hcow
  cases hcow
  obtain ⟨t, ht, rfl⟩ := walk_page_table_aligned hwalk
  have hmark : has (table_get s.mem t (pte_index v)) PTE_COW = true := by
    rw [Option.guard_eq_some', Bool.and_eq_true] at hguard
    exact hguard.2
  have hlt : pte_index v < 512 := index_lt _
  refine ⟨t, ht, rfl, ?_, fun heq => ?_⟩
  · rintro ⟨r, hr, q, x, hq, hn, hx, heq⟩
    rw [pageOf_inj ht (h.tables.node_aligned hr hx) heq] at hmark
    have hentry := h.entries r hr q (pte_index v) hq hn hlt
    rw [slot_of_node hx, hmark] at hentry
    cases hentry
  · rw [pageOf_inj ht h.boot_aligned heq, h.boot_entries _ hlt] at hmark
    cases hmark

theorem cow_only {t v e x : BitVec 64} {mem : Mem} (ht : Aligned t)
    (halloc : alloc_page s = .ok (phys, s1))
    (hmem : mem = kmemcpy s1.mem phys.toNat (pte_addr e).toNat PAGE_SIZE) :
    Only {pageOf t} s { s1 with mem := write64 mem (t.toNat + 8 * pte_index v) x } := by
  have hnew := alloc_page_new halloc
  have hcopy : Only {pageOf phys} s1 { s1 with mem := mem } := by
    rw [hmem]
    exact only_kmemcpy _ hnew.aligned
  refine Only.trans ?_ (only_table_set { s1 with mem := mem } x ht (index_lt (v >>> 12)))
  refine (hnew.only.mono (Set.empty_subset _)).trans_into hcopy ?_
  rintro k rfl
  exact .inr hnew.was_free

theorem cow_extends {v e x : BitVec 64} {pte : Nat} {mem : Mem} (h : Unmarked boot s roots)
    (hcow : cow_entry s v = some (pte, e)) (halloc : alloc_page s = .ok (phys, s1))
    (hmem : mem = kmemcpy s1.mem phys.toNat (pte_addr e).toNat PAGE_SIZE) (hK : K ⊆ roots) :
    Extends boot K s { s1 with mem := write64 mem pte x } roots roots := by
  obtain ⟨t, ht, rfl, hdata, hboot⟩ := cow_entry_data h hcow
  exact h.of_data (cow_only ht halloc hmem) hdata hboot hK

end Relis.Process
