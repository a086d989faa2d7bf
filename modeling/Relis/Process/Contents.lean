import Relis.Process.Load
import Relis.Process.Run

/-!
# The bytes of a loaded image

The loader copies to the start of each frame, so a segment is where its header says only if
the pages cover it and no byte is shifted.
-/

open Relis.Bytes Relis.Run Relis.Code Relis.PageAlloc Relis.Paging

namespace Relis.Process

variable {V : List Nat → Prop} {s s' : Mm} {r virt v : BitVec 64} {elf_data : Mem}

/-! ## What a space shows -/

abbrev Contents := Nat → Option (Nat → BitVec 8)

def byteAt (m : Mem) (r v : BitVec 64) : Option (BitVec 8) := (translate m r v).map fun a => m a.toNat

structure Backs (V : List Nat → Prop) (s : Mm) (r e : BitVec 64) (bytes : Nat → BitVec 8) : Prop where
  present : has e PTE_PRESENT = true
  used : s.pmm.page_used (pageOf (pte_addr e)) = true
  apart : pageOf (pte_addr e) ∉ pagesOn V s.mem r
  bytes : ∀ x < 4096, s.mem ((pte_addr e).toNat + x) = bytes x

structure Shows (V : List Nat → Prop) (s : Mm) (r : BitVec 64) (contents : Contents) : Prop where
  tables : Forest V s {r}
  current_pgd : s.current_pgd = some r
  mapped : ∀ v bytes, V (pathOf v 4) → contents (pageNumber v) = some bytes →
    Backs V s r (slot s.mem r (pathOf v 3) (indexOf v 3)) bytes
  unmapped : ∀ v, V (pathOf v 4) → contents (pageNumber v) = none →
    has (slot s.mem r (pathOf v 3) (indexOf v 3)) PTE_PRESENT = false

theorem toNat_offset {a : BitVec 64} (ha : Aligned a) (v : BitVec 64) :
    (a ||| (v &&& 0xFFF)).toNat = a.toNat + v.toNat % 4096 := by
  unfold Aligned at ha
  have hmask : (v &&& 0xFFF).toNat = v.toNat % 4096 := by
    rw [BitVec.toNat_and, show (0xFFF : BitVec 64).toNat = 2 ^ 12 - 1 by decide,
      Nat.and_two_pow_sub_one_eq_mod]
  have hlt : v.toNat % 4096 < 2 ^ 12 := Nat.mod_lt _ (by decide)
  rw [BitVec.toNat_or, hmask, show a.toNat = 2 ^ 12 * (a.toNat / 4096) by omega,
    Nat.two_pow_add_eq_or_of_lt hlt]

variable [PathKind V] {contents : Contents}

theorem Shows.byteAt (h : Shows V s r contents) (hv : V (pathOf v 4)) :
    byteAt s.mem r v = (contents (pageNumber v)).map fun bytes => bytes (v.toNat % 4096) := by
  unfold Process.byteAt
  rw [h.tables.translate_eq rfl hv]
  cases hbytes : contents (pageNumber v) with
  | none => simp [h.unmapped v hv hbytes]
  | some bytes =>
    have hbacks := h.mapped v bytes hv hbytes
    rw [if_pos hbacks.present, Option.map_some, Option.map_some, toNat_offset (addr_aligned _),
      hbacks.bytes _ (Nat.mod_lt _ (by decide))]

theorem Shows.update {bytes : Nat → BitVec 8} (h : Shows V s r contents) (hT : Forest V s' {r})
    (hslots : ∀ q j, V q → q.length ≤ 3 → j < 512 → q ++ [j] ≠ pathOf virt (q.length + 1) →
      slot s'.mem r q j = slot s.mem r q j)
    (hbacks : Backs V s' r (slot s'.mem r (pathOf virt 3) (indexOf virt 3)) bytes)
    (honly : Only (pagesOn V s.mem r) s s')
    (hpages : pagesOn V s'.mem r ⊆ pagesOn V s.mem r ∪ freePages s.pmm) :
    Shows V s' r (Function.update contents (pageNumber virt) (some bytes)) := by
  have hother : ∀ v, V (pathOf v 4) → pageNumber v ≠ pageNumber virt →
      slot s'.mem r (pathOf v 3) (indexOf v 3) = slot s.mem r (pathOf v 3) (indexOf v 3) := by
    intro v hv hne
    refine hslots _ _ (PathKind.pathOf hv (by omega)) (by simp) (indexOf_lt v 3) fun hpath => hne ?_
    rw [pathOf_length, ← pathOf_succ] at hpath
    exact pageNumber_eq_iff.mpr hpath
  refine ⟨hT, honly.current_pgd.trans h.current_pgd, fun v bytes' hv hbytes => ?_, fun v hv hnone => ?_⟩
  · by_cases heq : pageNumber v = pageNumber virt
    · rw [heq, Function.update_self, Option.some.injEq] at hbytes
      obtain ⟨h1, h2⟩ := leaf_eq_iff.mpr heq
      rw [h1, h2, ← hbytes]
      exact hbacks
    · rw [Function.update_of_ne heq] at hbytes
      have hold := h.mapped v bytes' hv hbytes
      rw [hother v hv heq]
      refine ⟨hold.present, honly.used _ hold.used, fun hmem => ?_, fun x hx => ?_⟩
      · rcases hpages hmem with hmem | hfree
        · exact hold.apart hmem
        · exact not_free_of_used hold.used hfree
      · rw [← hold.bytes x hx]
        apply honly.same _ (not_free_of_used hold.used) hold.apart
        have haligned := addr_aligned (slot s.mem r (pathOf v 3) (indexOf v 3))
        unfold Aligned at haligned
        unfold pageOf
        omega
  · have heq : pageNumber v ≠ pageNumber virt := by
      intro heq
      rw [heq, Function.update_self] at hnone
      cases hnone
    rw [Function.update_of_ne heq] at hnone
    rw [hother v hv heq]
    exact h.unmapped v hv hnone

/-! ## Loading -/

def putPage (elf_data : Mem) (contents : Contents) (q : Elf64Phdr × Nat) : Contents :=
  Function.update contents (pageNumber (q.1.page q.2)) (some (pageBytes elf_data q.1 q.2))

def imageContents (base : Contents) (elf_data : Mem) : Contents :=
  (imagePages elf_data).foldl (putPage elf_data) base

theorem Shows.load {phys : BitVec 64} {bytes : Nat → BitVec 8} (h : Shows V s r contents)
    (hl : PageLoaded V s s' r virt phys bytes) :
    Shows V s' r (Function.update contents (pageNumber virt) (some bytes)) := by
  have haddr : pte_addr (pageEntry phys (PTE_WRITABLE ||| PTE_USER)) = phys := by
    rw [pageEntry_addr phys (by decide), hl.addr]
  refine h.update hl.tables hl.slots ?_ hl.only hl.pages
  rw [hl.leaf]
  refine ⟨pageEntry_present _ _, ?_, ?_, ?_⟩
  · rw [haddr]
    exact hl.used
  · rw [haddr]
    exact hl.apart
  · rw [haddr]
    exact hl.bytes

theorem load_pages_shows {pages : List (Elf64Phdr × Nat)} (h : Shows V s r contents)
    (hv : ∀ q ∈ pages, V (pathOf (q.1.page q.2) 4))
    (hrun : run (fun s q => load_page elf_data q.1 q.2 s) s pages = .ok s') :
    Shows V s' r (pages.foldl (putPage elf_data) contents) := by
  induction pages generalizing s contents with
  | nil =>
    cases hrun
    exact h
  | cons q pages ih =>
    obtain ⟨s1, hload, hrun⟩ := bind_ok.mp hrun
    obtain ⟨phys, hl⟩ := load_page_spec h.tables h.current_pgd (hv q List.mem_cons_self) hload
    exact ih (h.load hl) (fun q' hq' => hv q' (List.mem_cons_of_mem q hq')) hrun

theorem map_used_shows {phys flags : BitVec 64} {bytes : Nat → BitVec 8} (h : Shows V s r contents)
    (hv : V (pathOf virt 4)) (hflags : pte_flags flags = flags) (hphys : pte_addr phys = phys)
    (hused : s.pmm.page_used (pageOf phys) = true) (hapart : pageOf phys ∉ pagesOn V s.mem r)
    (hbytes : ∀ x < 4096, s.mem (phys.toNat + x) = bytes x)
    (hmap : arch_map_page s virt phys flags = .ok s') :
    Shows V s' r (Function.update contents (pageNumber virt) (some bytes)) := by
  have hm := arch_map_page_spec h.tables rfl h.current_pgd hv hmap
  have hpages := hm.pages_subset rfl
  refine h.update hm.tables (fun q j hq hn hj hoff => hm.slots r rfl q j hq hn hj fun hh =>
    hoff hh.2) ?_ hm.only hpages
  rw [hm.leaf]
  have haddr : pte_addr (pageEntry phys flags) = phys := (pageEntry_addr phys hflags).trans hphys
  refine ⟨pageEntry_present _ _, ?_, ?_, fun x hx => ?_⟩
  · rw [haddr]
    exact hm.only.used _ hused
  · rw [haddr]
    intro hmem
    rcases hpages hmem with hmem | hfree
    · exact hapart hmem
    · exact not_free_of_used hused hfree
  · rw [haddr, ← hbytes x hx]
    apply hm.only.same _ (not_free_of_used hused) hapart
    have haligned := hphys ▸ addr_aligned phys
    unfold Aligned at haligned
    unfold pageOf
    omega

/-! ## The three loaders -/

structure FreshHalf (s : Mm) (r : BitVec 64) : Prop where
  current_pgd : s.current_pgd = some r
  aligned : Aligned r
  used : s.pmm.page_used (pageOf r) = true
  empty : ∀ i < 256, has (table_get s.mem r i) PTE_PRESENT = false

def noContents : Contents := fun _ => none

def consoleContents (m : Mem) : Contents :=
  Function.update noContents (pageNumber 0xB8000) (some fun x => m (0xB8000 + x))

theorem FreshHalf.shows (h : FreshHalf s r) : Shows UserPath s r noContents := by
  have hT : Forest UserPath s {r} := forest_of_absent h.aligned h.used fun i hi => h.empty i hi.1
  refine ⟨hT, h.current_pgd, ?_, fun v hv _ => ?_⟩
  · rintro v bytes - ⟨⟩
  cases ht : node s.mem r (pathOf v 3) with
  | none => rw [slot_of_none ht, zero_has]
  | some t =>
    -- The way begins with an entry that is not there.
    have habove : has (table_get s.mem r (pgd_index v)) PTE_PRESENT = true :=
      present_above ht (n := 0) (by omega)
    rw [h.empty (pgd_index v) hv.1] at habove
    cases habove

theorem imagePages_user (himage : ImagePages UserHalf elf_data) :
    ∀ q ∈ imagePages elf_data, UserPath (pathOf (q.1.page q.2) 4) := fun q hq =>
  pathOf_user (imagePages_iff.mp himage q hq) 4

theorem load_elf_shows {entry : BitVec 64} (h : FreshHalf s r)
    (hmagic : (Elf64Hdr.at elf_data).e_magic = ELF_MAGIC) (himage : ImagePages UserHalf elf_data)
    (hload : load_elf s elf_data = .ok (entry, s')) :
    Shows UserPath s' r (imageContents noContents elf_data) := by
  unfold load_elf at hload
  dsimp only at hload
  rw [if_neg (not_not.mpr hmagic), load_segments_eq] at hload
  obtain ⟨s1, hrun, hload⟩ := bind_ok.mp hload
  cases hload
  exact load_pages_shows h.shows (imagePages_user himage) hrun

theorem load_image_shows {new_cr3 : BitVec 64} (hconsole : s.pmm.page_used consolePage = true)
    (himage : ImagePages UserHalf elf_data) (hload : load_image s elf_data = .ok (new_cr3, s')) :
    Shows UserPath s' new_cr3 (imageContents (consoleContents s.mem) elf_data) := by
  obtain ⟨s1, s2, hnew, hmap, hrun⟩ := load_image_ok hload
  rw [load_segments_eq] at hrun
  have hcreated := create_new_address_space_spec hnew
  have hfresh : FreshHalf (switch_address_space s1 new_cr3) new_cr3 := by
    refine ⟨congrArg some hcreated.addr, hcreated.aligned, hcreated.used, fun i hi => ?_⟩
    change has (table_get s1.mem new_cr3 i) PTE_PRESENT = false
    rw [hcreated.user i hi, zero_has]
  have hpage : pageOf 0xB8000 = consolePage := by decide
  have hused : s1.pmm.page_used (pageOf 0xB8000) = true := by
    rw [hpage]
    exact hcreated.only.used _ hconsole
  have hapart : pageOf 0xB8000 ∉ pagesOn UserPath s1.mem new_cr3 := by
    rw [hpage]
    rintro ⟨q, x, hq, -, hx, heq⟩
    rw [node_of_empty hcreated.user hq] at hx
    split_ifs at hx
    cases hx
    exact not_free_of_used hconsole (heq ▸ hcreated.was_free)
  have hbytes : ∀ x < 4096, s1.mem ((0xB8000 : BitVec 64).toNat + x) = s.mem (0xB8000 + x) := by
    intro x hx
    apply hcreated.only.same consolePage (not_free_of_used hconsole) (Set.notMem_empty _)
    change (0xB8000 + x) / 4096 = 0xB8
    omega
  have hshows := map_used_shows hfresh.shows (pathOf_user (by decide) 4) (by decide)
    (by decide) hused hapart hbytes hmap
  exact load_pages_shows hshows (imagePages_user himage) hrun

/-! ## Segments -/

def IsSegment (image : Mem) (i : Nat) : Prop :=
  i < (Elf64Hdr.at image).e_phnum.toNat ∧ (Elf64Phdr.at image i).p_type = PT_LOAD

def segmentByte (image : Mem) (ph : Elf64Phdr) (k : Nat) : BitVec 8 :=
  if k < ph.p_filesz.toNat then image (ph.p_offset.toNat + k) else 0

def segmentAddr (ph : Elf64Phdr) (k : Nat) : BitVec 64 := ph.p_vaddr + BitVec.ofNat 64 k

def ImageAt (m : Mem) (r : BitVec 64) (image : Mem) : Prop :=
  ∀ i, IsSegment image i → ∀ k < (Elf64Phdr.at image i).p_memsz.toNat,
    byteAt m r (segmentAddr (Elf64Phdr.at image i) k) =
      some (segmentByte image (Elf64Phdr.at image i) k)

/-- For each byte of a segment, the page that is loaded last where the byte belongs has it at the
right offset from the start of its frame. -/
def Placed (base : Contents) (elf_data image : Mem) : Prop :=
  ∀ i, IsSegment image i → ∀ k < (Elf64Phdr.at image i).p_memsz.toNat,
    (imageContents base elf_data (pageNumber (segmentAddr (Elf64Phdr.at image i) k))).map
        (fun bytes => bytes ((segmentAddr (Elf64Phdr.at image i) k).toNat % 4096)) =
      some (segmentByte image (Elf64Phdr.at image i) k)

/-- An image of `n` bytes whose segments are in the user half and do not overlap. -/
structure WellFormed (image : Mem) (n : Nat) : Prop where
  magic : (Elf64Hdr.at image).e_magic = ELF_MAGIC
  header : 64 ≤ n
  length : n ≤ 2 ^ 64
  headers : (Elf64Hdr.at image).e_phoff.toNat + 56 * (Elf64Hdr.at image).e_phnum.toNat ≤ n
  filesz : ∀ i, IsSegment image i → (Elf64Phdr.at image i).p_filesz.toNat ≤
    (Elf64Phdr.at image i).p_memsz.toNat
  congruent : ∀ i, IsSegment image i →
    (Elf64Phdr.at image i).p_vaddr.toNat % 4096 = (Elf64Phdr.at image i).p_offset.toNat % 4096
  inside : ∀ i, IsSegment image i → (Elf64Phdr.at image i).p_offset.toNat +
    (Elf64Phdr.at image i).p_filesz.toNat ≤ n
  user : ∀ i, IsSegment image i →
    (Elf64Phdr.at image i).p_vaddr.toNat + (Elf64Phdr.at image i).p_memsz.toNat ≤ 2 ^ 47
  disjoint : ∀ i j, IsSegment image i → IsSegment image j → i ≠ j → ∀ a,
    (Elf64Phdr.at image i).p_vaddr.toNat ≤ a →
    a < (Elf64Phdr.at image i).p_vaddr.toNat + (Elf64Phdr.at image i).p_memsz.toNat →
    (Elf64Phdr.at image j).p_vaddr.toNat ≤ a →
    (Elf64Phdr.at image j).p_vaddr.toNat + (Elf64Phdr.at image j).p_memsz.toNat ≤ a

variable {image : Mem} {n i k : Nat} {base : Contents}

theorem toNat_segmentAddr (h : WellFormed image n) (hi : IsSegment image i)
    (hk : k < (Elf64Phdr.at image i).p_memsz.toNat) :
    (segmentAddr (Elf64Phdr.at image i) k).toNat = (Elf64Phdr.at image i).p_vaddr.toNat + k := by
  have huser := h.user i hi
  unfold segmentAddr
  rw [BitVec.toNat_add, BitVec.toNat_ofNat, Nat.mod_eq_of_lt (a := k) (by omega),
    Nat.mod_eq_of_lt (by omega)]

theorem Shows.imageAt_iff (h : Shows UserPath s r (imageContents base elf_data))
    (hwf : WellFormed image n) : ImageAt s.mem r image ↔ Placed base elf_data image := by
  refine forall_congr' fun i => forall_congr' fun hi => forall_congr' fun k =>
    forall_congr' fun hk => ?_
  have huser := hwf.user i hi
  have hv : UserHalf (segmentAddr (Elf64Phdr.at image i) k) := by
    apply userHalf_of_lt
    rw [toNat_segmentAddr hwf hi hk]
    omega
  rw [h.byteAt (pathOf_user hv 4)]

/-! ## Segments that start with a page -/

theorem pageNumber_of_lt (h : v.toNat < 2 ^ 47) : pageNumber v = v.toNat / 4096 := by
  unfold pageNumber
  rw [toNat_index v 12 36 _ (by decide)]
  omega

theorem pageNumber_page (v : BitVec 64) : pageNumber (v &&& PAGE_MASK) = pageNumber v := by
  unfold pageNumber
  rw [BitVec.ushiftRight_and_distrib, BitVec.and_assoc,
    show PAGE_MASK >>> 12 &&& 0xFFFFFFFFF = 0xFFFFFFFFF by decide]

theorem WellFormed.pages (h : WellFormed image n) (hi : IsSegment image i) :
    (Elf64Phdr.at image i).pages.toNat = ((Elf64Phdr.at image i).p_memsz.toNat + 4095) / 4096 := by
  have huser := h.user i hi
  unfold Elf64Phdr.pages
  rw [BitVec.toNat_udiv, BitVec.toNat_sub, BitVec.toNat_add]
  have h1 : (4096 : BitVec 64).toNat = 4096 := rfl
  have h2 : (1 : BitVec 64).toNat = 1 := rfl
  rw [h1, h2]
  omega

theorem WellFormed.page (h : WellFormed image n) (hi : IsSegment image i) {j : Nat}
    (hj : j < (Elf64Phdr.at image i).pages.toNat) :
    4096 * j < (Elf64Phdr.at image i).p_memsz.toNat ∧ (BitVec.ofNat 64 j * 4096).toNat = 4096 * j ∧
      ((Elf64Phdr.at image i).page j).toNat = (Elf64Phdr.at image i).p_vaddr.toNat + 4096 * j := by
  have huser := h.user i hi
  rw [h.pages hi] at hj
  have hoffset : (BitVec.ofNat 64 j * 4096).toNat = 4096 * j := by
    rw [BitVec.toNat_mul, BitVec.toNat_ofNat, show (4096 : BitVec 64).toNat = 4096 from rfl]
    omega
  refine ⟨by omega, hoffset, ?_⟩
  unfold Elf64Phdr.page
  rw [BitVec.toNat_add, hoffset]
  omega

theorem WellFormed.imagePages (h : WellFormed image n) : ImagePages UserHalf image := by
  intro i hi htype j hj
  have huser := h.user i ⟨hi, htype⟩
  obtain ⟨hlt, -, hpage⟩ := h.page ⟨hi, htype⟩ hj
  apply userHalf_of_lt
  omega

theorem WellFormed.pageBytes (h : WellFormed image n) (hi : IsSegment image i)
    (hsame : ∀ x < n, elf_data x = image x) (hk : k < (Elf64Phdr.at image i).p_memsz.toNat) :
    pageBytes elf_data (Elf64Phdr.at image i) (k / 4096) (k % 4096) =
      segmentByte image (Elf64Phdr.at image i) k := by
  have hinside := h.inside i hi
  have hlength := h.length
  have huser := h.user i hi
  have hj : k / 4096 < (Elf64Phdr.at image i).pages.toNat := by
    rw [h.pages hi]
    omega
  obtain ⟨-, hoffset, -⟩ := h.page hi hj
  unfold Process.pageBytes segmentByte
  rw [copied_eq _ (by omega)]
  by_cases hfile : k < (Elf64Phdr.at image i).p_filesz.toNat
  · rw [if_pos (by omega), if_pos hfile, BitVec.toNat_add, hoffset, ← hsame _ (by omega)]
    congr 1
    omega
  · rw [if_neg (by omega), if_neg hfile]

theorem foldl_update_eq {α β : Type} (key : α → Nat) (value : α → β) (base : Nat → Option β)
    {l : List α} {p : Nat} {c : β} (hmem : ∃ q ∈ l, key q = p)
    (hall : ∀ q ∈ l, key q = p → value q = c) :
    l.foldl (fun f q => Function.update f (key q) (some (value q))) base p = some c := by
  induction l using List.reverseRecOn with
  | nil => simp at hmem
  | append_singleton l q ih =>
    rw [List.foldl_append, List.foldl_cons, List.foldl_nil]
    by_cases hq : key q = p
    · rw [← hq, Function.update_self, hall q (by simp) hq]
    · rw [Function.update_of_ne (Ne.symm hq)]
      obtain ⟨q', hq', hkey⟩ := hmem
      rcases List.mem_append.mp hq' with hq' | hq'
      · exact ih ⟨q', hq', hkey⟩ fun x hx => hall x (List.mem_append_left _ hx)
      · rw [List.mem_singleton.mp hq'] at hkey
        exact absurd hkey hq

theorem imageContents_eq {p : Nat} {bytes : Nat → BitVec 8}
    (hmem : ∃ q ∈ imagePages elf_data, pageNumber (q.1.page q.2) = p)
    (hall : ∀ q ∈ imagePages elf_data, pageNumber (q.1.page q.2) = p →
      pageBytes elf_data q.1 q.2 = bytes) : imageContents base elf_data p = some bytes :=
  foldl_update_eq (fun q : Elf64Phdr × Nat => pageNumber (q.1.page q.2))
    (fun q => pageBytes elf_data q.1 q.2) base hmem
    hall

theorem hdr_congr (h : WellFormed image n) (hsame : ∀ x < n, elf_data x = image x) :
    Elf64Hdr.at elf_data = Elf64Hdr.at image := by
  have hheader := h.header
  unfold Elf64Hdr.at
  rw [read32_congr (a := 0) fun i hi => hsame _ (by omega), read64_congr (a := 24) fun x _ hx =>
    hsame _ (by omega),
    read64_congr (a := 32) fun x _ hx => hsame _ (by omega), read16, read16, hsame _ (by omega),
      hsame _ (by omega)]

theorem phdr_congr (h : WellFormed image n) (hsame : ∀ x < n, elf_data x = image x)
    (hi : i < (Elf64Hdr.at image).e_phnum.toNat) :
    Elf64Phdr.at elf_data i = Elf64Phdr.at image i := by
  have hheaders := h.headers
  have hlength := h.length
  have haddr : ((Elf64Hdr.at image).e_phoff + BitVec.ofNat 64 (56 * i)).toNat =
      (Elf64Hdr.at image).e_phoff.toNat + 56 * i := by
    rw [BitVec.toNat_add, BitVec.toNat_ofNat, Nat.mod_eq_of_lt (a := 56 * i) (by omega),
      Nat.mod_eq_of_lt (by omega)]
  unfold Elf64Phdr.at
  rw [hdr_congr h hsame, haddr]
  dsimp only
  rw [read32_congr fun j hj => hsame _ (by omega), read64_congr fun x _ hx => hsame _ (by omega),
    read64_congr fun x _ hx => hsame _ (by omega), read64_congr fun x _ hx => hsame _ (by omega),
    read64_congr fun x _ hx => hsame _ (by omega)]

theorem WellFormed.number (h : WellFormed image n) (hi : IsSegment image i) {j : Nat}
    (hj : j < (Elf64Phdr.at image i).pages.toNat)
    (haligned : (Elf64Phdr.at image i).p_vaddr.toNat % 4096 = 0) :
    pageNumber ((Elf64Phdr.at image i).page j) =
      (Elf64Phdr.at image i).p_vaddr.toNat / 4096 + j := by
  have huser := h.user i hi
  obtain ⟨hlt, -, hpage⟩ := h.page hi hj
  rw [pageNumber_of_lt (by omega), hpage]
  omega

theorem contents_of_aligned (h : WellFormed image n) (hsame : ∀ x < n, elf_data x = image x)
    (haligned : ∀ i, IsSegment image i → (Elf64Phdr.at image i).p_vaddr.toNat % 4096 = 0)
    (hi : IsSegment image i) {j : Nat} (hj : j < (Elf64Phdr.at image i).pages.toNat) :
    imageContents base elf_data ((Elf64Phdr.at image i).p_vaddr.toNat / 4096 + j) =
      some (pageBytes elf_data (Elf64Phdr.at image i) j) := by
  have hbase := haligned i hi
  obtain ⟨hlt, -, -⟩ := h.page hi hj
  refine imageContents_eq ⟨(Elf64Phdr.at image i, j), ?_, h.number hi hj hbase⟩ fun q hq hpage => ?_
  · rw [mem_imagePages, hdr_congr h hsame]
    refine ⟨i, hi.1, ?_⟩
    rw [phdr_congr h hsame hi.1]
    exact ⟨hi.2, rfl, hj⟩
  · obtain ⟨i', hi', htype', hph', hj'⟩ := mem_imagePages.mp hq
    rw [hdr_congr h hsame] at hi'
    rw [phdr_congr h hsame hi'] at htype' hph' hj'
    have hseg : IsSegment image i' := ⟨hi', htype'⟩
    have hbase' := haligned i' hseg
    obtain ⟨hlt', -, -⟩ := h.page hseg hj'
    rw [hph', h.number hseg hj' hbase'] at hpage
    -- The start of the page is an address of both segments.
    obtain rfl : i' = i := by
      by_contra hne
      have hdisjoint := h.disjoint i' i hseg hi hne
        ((Elf64Phdr.at image i').p_vaddr.toNat + 4096 * q.2) (by omega) (by omega) (by omega)
      omega
    rw [hph', show q.2 = j by omega]

theorem placed_of_aligned (h : WellFormed image n) (hsame : ∀ x < n, elf_data x = image x)
    (haligned : ∀ i, IsSegment image i → (Elf64Phdr.at image i).p_vaddr.toNat % 4096 = 0) :
    Placed base elf_data image := by
  intro i hi k hk
  have huser := h.user i hi
  have hbase := haligned i hi
  have haddr := toNat_segmentAddr h hi hk
  have hj : k / 4096 < (Elf64Phdr.at image i).pages.toNat := by
    rw [h.pages hi]
    omega
  have hnumber : pageNumber (segmentAddr (Elf64Phdr.at image i) k) =
      (Elf64Phdr.at image i).p_vaddr.toNat / 4096 + k / 4096 := by
    rw [pageNumber_of_lt (by omega), haddr]
    omega
  rw [hnumber, contents_of_aligned h hsame haligned hi hj, Option.map_some, haddr,
    show ((Elf64Phdr.at image i).p_vaddr.toNat + k) % 4096 = k % 4096 by omega, h.pageBytes hi hsame hk]

/-! ## Every image -/

theorem exec_user_program_mm {k k' : Kernel} {out : Option (BitVec 64 × BitVec 64)}
    (hmagic : (Elf64Hdr.at elf_data).e_magic = ELF_MAGIC)
    (hk : exec_user_program k elf_data = .ok (out, k')) :
    ∃ new_cr3, load_image k.mm elf_data = .ok (new_cr3, k'.mm) := by
  unfold exec_user_program at hk
  dsimp only at hk
  rw [if_neg (not_not.mpr hmagic)] at hk
  obtain ⟨⟨new_cr3, mm⟩, hload, hk⟩ := bind_ok.mp hk
  cases hk
  exact ⟨new_cr3, hload⟩

theorem exec_user_program_of_load {k : Kernel} {new_cr3 : BitVec 64}
    (hmagic : (Elf64Hdr.at elf_data).e_magic = ELF_MAGIC)
    (hload : load_image k.mm elf_data = .ok (new_cr3, s')) :
    ∃ out k', exec_user_program k elf_data = .ok (out, k') ∧ k'.mm = s' := by
  unfold exec_user_program
  dsimp only
  rw [if_neg (not_not.mpr hmagic), hload]
  exact ⟨_, _, rfl, rfl⟩

theorem load_image_imageAt {new_cr3 : BitVec 64} (hwf : WellFormed image n)
    (hconsole : s.pmm.page_used consolePage = true) (himage : ImagePages UserHalf elf_data)
    (hload : load_image s elf_data = .ok (new_cr3, s')) :
    ImageAt s'.mem s'.cr3 image ↔ Placed (consoleContents s.mem) elf_data image := by
  rw [(load_image_root hload).1]
  exact (load_image_shows hconsole himage hload).imageAt_iff hwf

theorem load_pages_pool {m : Nat} {pages : List (Elf64Phdr × Nat)}
    (h : Pool (m + 4 * pages.length) s) :
    ∃ s', run (fun s q => load_page elf_data q.1 q.2 s) s pages = .ok s' ∧ Pool m s' := by
  induction pages generalizing s with
  | nil => exact ⟨s, rfl, h⟩
  | cons q pages ih =>
    rw [List.length_cons, Nat.mul_succ, ← Nat.add_assoc] at h
    obtain ⟨s1, hload, h1⟩ := load_page_pool elf_data q.1 q.2 h
    obtain ⟨s', hrun, h'⟩ := ih h1
    exact ⟨s', bind_ok.mpr ⟨s1, hload, hrun⟩, h'⟩

theorem load_elf_pool (h : Pool (4 * (imagePages elf_data).length) s) :
    ∃ entry s', load_elf s elf_data = .ok (entry, s') := by
  rw [← Nat.zero_add (4 * _)] at h
  obtain ⟨s', hrun, -⟩ := load_pages_pool h
  unfold load_elf
  dsimp only
  split_ifs
  · exact ⟨0, s, rfl⟩
  · rw [load_segments_eq, hrun]
    exact ⟨_, s', rfl⟩

theorem load_image_pool (elf_data : Mem) (h : Pool (4 * (imagePages elf_data).length + 4) s) :
    ∃ new_cr3 s', load_image s elf_data = .ok (new_cr3, s') := by
  obtain ⟨new_cr3, s1, hnew, p1⟩ := create_new_address_space_pool
    (n := 4 * (imagePages elf_data).length + 3) h
  have p2 : Pool (4 * (imagePages elf_data).length + 3) (switch_address_space s1 new_cr3) :=
    p1.of_pmm rfl
  obtain ⟨s2, hmap, p3⟩ := arch_map_page_pool p2 0xB8000 0xB8000 (PTE_WRITABLE ||| PTE_GLOBAL)
  rw [← Nat.zero_add (4 * _)] at p3
  obtain ⟨s', hrun, -⟩ := load_pages_pool p3
  rw [← load_segments_eq] at hrun
  exact ⟨new_cr3, s', bind_ok.mpr ⟨_, hnew, bind_ok.mpr ⟨_, hmap, bind_ok.mpr ⟨s', hrun, rfl⟩⟩⟩⟩

/-- Each of the three loaders leaves the segments where their headers say exactly when they are
placed, which they are if all of them start with a page and the whole file was read. -/
theorem image_loaded_iff (hwf : WellFormed image n) :
    (∀ s, Pool (4 * (imagePages image).length) s → ∃ entry s', load_elf s image = .ok (entry, s')) ∧
    (∀ k : Kernel, Pool (4 * (imagePages image).length + 4) k.mm →
      ∃ out k', exec_user_program k image = .ok (out, k')) ∧
    (∀ s s' r entry, FreshHalf s r → load_elf s image = .ok (entry, s') →
      (ImageAt s'.mem r image ↔ Placed noContents image image)) ∧
    (∀ (k k' : Kernel) out, k.mm.pmm.page_used consolePage = true →
      exec_user_program k image = .ok (out, k') →
      (ImageAt k'.mm.mem k'.mm.cr3 image ↔ Placed (consoleContents k.mm.mem) image image)) ∧
    (∀ (k k' : Kernel) regs regs' path ret elf_data, k.mm.pmm.page_used consolePage = true →
      (∀ x < n, x < 4096 → elf_data x = image x) → ImagePages UserHalf elf_data →
      sys_execve k regs (.readable elf_data) path = .ok (ret, regs', k') →
      (ImageAt k'.mm.mem k'.mm.cr3 image ↔ Placed (consoleContents k.mm.mem) elf_data image)) ∧
    ((∀ i, IsSegment image i → (Elf64Phdr.at image i).p_vaddr.toNat % 4096 = 0) →
      ∀ base elf_data, (∀ x < n, elf_data x = image x) → Placed base elf_data image) := by
  refine ⟨fun s h => load_elf_pool h, fun k h => ?_, fun s s' r entry hfresh hload => ?_,
    fun k k' out hconsole hk => ?_, fun k k' regs regs' path ret elf_data hconsole hread
    himage hk => ?_, fun haligned base elf_data hsame => placed_of_aligned hwf hsame haligned⟩
  · obtain ⟨new_cr3, s', hload⟩ := load_image_pool image h
    obtain ⟨out, k', hk, -⟩ := exec_user_program_of_load hwf.magic hload
    exact ⟨out, k', hk⟩
  · exact (load_elf_shows hfresh hwf.magic hwf.imagePages hload).imageAt_iff hwf
  · obtain ⟨new_cr3, hload⟩ := exec_user_program_mm hwf.magic hk
    exact load_image_imageAt hwf hconsole hwf.imagePages hload
  · -- The magic is in the part of the file that was read.
    have hheader := hwf.header
    have hmagic : (Elf64Hdr.at elf_data).e_magic = ELF_MAGIC := by
      rw [← hwf.magic]
      exact read32_congr fun i hi => hread _ (by omega) (by omega)
    rcases sys_execve_mm hk with ⟨-, hnot⟩ | ⟨elf_data', new_cr3, hfile, -, hload⟩
    · exact absurd hmagic (hnot elf_data rfl)
    · cases hfile
      exact load_image_imageAt hwf hconsole himage hload

theorem isSegment_single {ph : Elf64Phdr} (hnum : (Elf64Hdr.at image).e_phnum = 1)
    (hph : Elf64Phdr.at image 0 = ph) (hi : IsSegment image i) :
    i = 0 ∧ Elf64Phdr.at image i = ph := by
  have hlt := hi.1
  rw [hnum] at hlt
  obtain rfl : i = 0 := Nat.lt_one_iff.mp hlt
  exact ⟨rfl, hph⟩

theorem wellFormed_single {ph : Elf64Phdr} (hmagic : (Elf64Hdr.at image).e_magic = ELF_MAGIC)
    (hnum : (Elf64Hdr.at image).e_phnum = 1) (hph : Elf64Phdr.at image 0 = ph)
    (hlength : 64 ≤ n ∧ n ≤ 2 ^ 64) (hheaders : (Elf64Hdr.at image).e_phoff.toNat + 56 ≤ n)
    (hfilesz : ph.p_filesz.toNat ≤ ph.p_memsz.toNat)
    (hcongruent : ph.p_vaddr.toNat % 4096 = ph.p_offset.toNat % 4096)
    (hinside : ph.p_offset.toNat + ph.p_filesz.toNat ≤ n)
    (huser : ph.p_vaddr.toNat + ph.p_memsz.toNat ≤ 2 ^ 47) : WellFormed image n := by
  have hone : ∀ {i}, IsSegment image i → i = 0 ∧ Elf64Phdr.at image i = ph := isSegment_single hnum hph
  refine ⟨hmagic, hlength.1, hlength.2, ?_, ?_, ?_, ?_, ?_, ?_⟩
  · rw [hnum]
    exact hheaders
  · intro i hi
    rwa [(hone hi).2]
  · intro i hi
    rwa [(hone hi).2]
  · intro i hi
    rwa [(hone hi).2]
  · intro i hi
    rwa [(hone hi).2]
  · intro i j hi hj hne
    exact absurd ((hone hi).1.trans (hone hj).1.symm) hne

theorem boot_mm : (Kernel.boot bootMm 0).mm = bootMm := rfl

theorem boot_console : (Kernel.boot bootMm 0).mm.pmm.page_used consolePage = true := by
  rw [boot_mm]
  unfold bootMm start_mm
  rw [pmm_init_used]
  decide

/-- The image that loads itself has its segment at a page. -/
theorem selfImage_loaded :
    ∃ out k', exec_user_program (Kernel.boot bootMm 0) selfImage = .ok (out, k') ∧
    ImageAt k'.mm.mem k'.mm.cr3 selfImage := by
  have hwf : WellFormed selfImage 169 := wellFormed_single rfl rfl selfImage_phdr (by decide)
    (by decide) (by decide)
    (by decide) (by decide) (by decide)
  obtain ⟨-, hreturns, -, hiff, -, haligned⟩ := image_loaded_iff hwf
  obtain ⟨out, k', hk⟩ := hreturns (Kernel.boot bootMm 0) (Vmalloc.small_pool.le (by decide))
  refine ⟨out, k', hk, (hiff _ k' out boot_console hk).mpr
    (haligned (fun i hi => ?_) _ _ fun _ _ => rfl)⟩
  rw [(isSegment_single rfl selfImage_phdr hi).2]
  decide

def headImage : Mem
  | 0 => 0x7F | 1 => 0x45 | 2 => 0x4C | 3 => 0x46
  | 32 => 64
  | 56 => 1
  | 64 => 1
  | 72 => 0x78
  | 80 => 0x78 | 82 => 0x40
  | 96 => 4
  | 104 => 4
  | i => if 120 ≤ i ∧ i < 124 then 0x90 else 0

theorem headImage_phdr : Elf64Phdr.at headImage 0 = ⟨PT_LOAD, 0x78, 0x400078, 4, 4⟩ := rfl

theorem headImage_pages : imagePages headImage = [(⟨PT_LOAD, 0x78, 0x400078, 4, 4⟩, 0)] := rfl

/-- Its first byte is copied to 0x400000, and there is a 0 where it belongs. -/
theorem headImage_shifted : WellFormed headImage 124 ∧ IsSegment headImage 0 ∧
    ∃ out k', exec_user_program (Kernel.boot bootMm 0) headImage = .ok (out, k') ∧
      segmentByte headImage (Elf64Phdr.at headImage 0) 0 = 0x90 ∧
      byteAt k'.mm.mem k'.mm.cr3 0x400000 = some 0x90 ∧
        byteAt k'.mm.mem k'.mm.cr3 0x400078 = some 0 := by
  have hwf : WellFormed headImage 124 := wellFormed_single rfl rfl headImage_phdr (by decide)
    (by decide) (by decide)
    (by decide) (by decide) (by decide)
  obtain ⟨new_cr3, s', hload⟩ := load_image_pool (s := (Kernel.boot bootMm 0).mm) headImage
    (Vmalloc.small_pool.le (by rw [headImage_pages]; decide))
  have hshows := load_image_shows boot_console hwf.imagePages hload
  obtain ⟨out, k', hk, rfl⟩ := exec_user_program_of_load hwf.magic hload
  rw [← (load_image_root hload).1] at hshows
  have hcontents : ∀ base, imageContents base headImage 0x400 =
      some (pageBytes headImage ⟨PT_LOAD, 0x78, 0x400078, 4, 4⟩ 0) := by
    intro base
    unfold imageContents
    rw [headImage_pages, List.foldl_cons, List.foldl_nil]
    unfold putPage
    rw [show pageNumber (Elf64Phdr.page ⟨PT_LOAD, 0x78, 0x400078, 4, 4⟩ 0) = 0x400 by decide,
      Function.update_self]
  refine ⟨hwf, ⟨by decide, rfl⟩, out, k', hk, rfl, ?_, ?_⟩
  · refine (hshows.byteAt (pathOf_user (by decide) 4)).trans ?_
    rw [show pageNumber 0x400000 = 0x400 by decide, hcontents]
    decide
  · refine (hshows.byteAt (pathOf_user (by decide) 4)).trans ?_
    rw [show pageNumber 0x400078 = 0x400 by decide, hcontents]
    decide

end Relis.Process
