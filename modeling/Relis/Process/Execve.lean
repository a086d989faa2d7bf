import Relis.Paging.Huge
import Relis.Process.Contents

/-!
# The kernel half under `sys_execve`

While the segments are in the user half, the call only writes to frames that it takes. The
first page outside changes a table that all spaces share, or maps a new address of the
kernel half.
-/

open Relis.Bytes Relis.Run Relis.Code Relis.PageAlloc Relis.Paging

namespace Relis.Process

variable {V : List Nat → Prop} {s0 s s' : Mm} {R : Set (BitVec 64)} {r t virt v : BitVec 64}
  {elf_data : Mem} {i j : Nat} {L : Kinds} {flags new_cr3 phys : BitVec 64}
  {pages : List (Elf64Phdr × Nat)}

/-- From `s` to `s'`, the kernel half stays as it is, and so do all frames that were not taken. -/
structure KernelKept (s s' : Mm) : Prop where
  translate : ∀ v, KernelHalf v → translate s'.mem (pte_addr s'.cr3) v =
    translate s.mem (pte_addr s.cr3) v
  user : ∀ v, KernelHalf v →
    (Permits s'.mem (pte_addr s'.cr3) v true false ↔ Permits s.mem (pte_addr s.cr3) v true false)
  frames : ∀ k, ¬ (k ∈ freePages s.pmm ∧ k ∉ freePages s'.pmm) → SamePage s.mem s'.mem k

theorem PageLoaded.permits {bytes : Nat → BitVec 8} [PathKind V]
    (h : PageLoaded V s s' r virt phys bytes) (hv : V (pathOf virt 4)) :
    Permits s'.mem r virt true false := by
  have hleaf := h.leaf
  refine ⟨?_, fun n hn _ => ⟨fun _ => ?_, Bool.noConfusion⟩⟩
  · rw [h.tables.translate_eq rfl hv, hleaf, if_pos (pageEntry_present _ _)]
    simp
  · rcases Nat.lt_or_ge n 3 with hlt | hge
    · exact h.user n hlt
    · obtain rfl : n = 3 := by omega
      rw [hleaf, pageEntry_user]
      decide

/-! ## Pages on free parts of the top level -/

structure Loading (V : List Nat → Prop) (s0 s : Mm) (r : BitVec 64) : Prop where
  tables : Forest V s {r}
  current_pgd : s.current_pgd = some r
  fresh : pagesOn V s.mem r ⊆ freePages s0.pmm
  free : freePages s.pmm ⊆ freePages s0.pmm
  used : ∀ k, s0.pmm.page_used k = true → s.pmm.page_used k = true
  same : ∀ k ∉ freePages s0.pmm, SamePage s0.mem s.mem k
  still : ∀ k ∈ freePages s.pmm, SamePage s0.mem s.mem k
  top : ∀ i < 512, ¬ V [i] → table_get s.mem r i = table_get s0.mem (pte_addr s0.cr3) i

variable [PathKind V]

theorem Loading.step (h : Loading V s0 s r) (hv : V (pathOf virt 4)) (hT : Forest V s' {r})
    (hslots : ∀ q j, V q → q.length ≤ 3 → j < 512 → q ++ [j] ≠ pathOf virt (q.length + 1) →
      slot s'.mem r q j = slot s.mem r q j) (honly : Only (pagesOn V s.mem r) s s')
    (hpages : pagesOn V s'.mem r ⊆ pagesOn V s.mem r ∪ freePages s.pmm)
    (hstill : ∀ k ∈ freePages s'.pmm, SamePage s.mem s'.mem k) : Loading V s0 s' r := by
  refine ⟨hT, honly.current_pgd.trans h.current_pgd, ?_, honly.free.trans h.free,
    fun k hk => honly.used k (h.used k hk), ?_, ?_, ?_⟩
  · intro k hk
    rcases hpages hk with hk | hk
    · exact h.fresh hk
    · exact h.free hk
  · intro k hk
    exact (h.same k hk).trans (honly.same k (fun hfree => hk (h.free hfree)) fun hpage =>
      hk (h.fresh hpage))
  · intro k hk
    exact (h.still k (honly.free hk)).trans (hstill k hk)
  · intro i hi hnot
    rw [← h.top i hi hnot]
    refine hslots [] i (PathKind.pathOf hv (Nat.zero_le 4)) (by simp) hi fun hpath => hnot ?_
    rw [List.nil_append, List.length_nil] at hpath
    rw [hpath]
    exact PathKind.pathOf hv (by omega)

structure FreeKind (V : List Nat → Prop) (s0 : Mm) : Prop where
  user : ∀ i < 256, V [i]
  absent : ∀ i, V [i] → 256 ≤ i →
    i < 512 ∧ has (table_get s0.mem (pte_addr s0.cr3) i) PTE_PRESENT = false

theorem create_loading (hV : FreeKind V s0) (hroot : pageOf (pte_addr s0.cr3) ∉ freePages s0.pmm)
    (hnew : create_new_address_space s0 = .ok (r, s)) :
    Loading V s0 (switch_address_space s r) r := by
  have hcreated := create_new_address_space_spec hnew
  have habsent : ∀ i, V [i] → has (table_get s.mem r i) PTE_PRESENT = false := by
    intro i hi
    rcases Nat.lt_or_ge i 256 with hlt | hge
    · rw [hcreated.user i hlt, zero_has]
    · obtain ⟨hlt, habsent⟩ := hV.absent i hi hge
      rw [hcreated.kernel hroot i hge hlt]
      exact habsent
  refine ⟨forest_of_absent hcreated.aligned hcreated.used habsent, congrArg some hcreated.addr, ?_,
    hcreated.only.free, hcreated.only.used, ?_, ?_, ?_⟩
  · rintro k ⟨q, x, hq, -, hx, rfl⟩
    have hx : node s.mem r q = some x := hx
    rw [(node_of_absent habsent hq hx).2]
    exact hcreated.was_free
  · exact fun k hk => hcreated.only.same k hk (Set.notMem_empty k)
  · intro k hk
    have hne : k ≠ pageOf r := by
      rintro rfl
      exact not_free_of_used hcreated.used hk
    have hsame : SamePage s0.mem s.mem k := create_new_address_space_samePage hnew hne
    exact hsame
  · intro i hi hnot
    refine hcreated.kernel hroot i (Nat.le_of_not_lt fun hlt => hnot (hV.user i hlt)) hi

theorem map_loading (h : Loading V s0 s r) (hv : V (pathOf virt 4))
    (hmap : arch_map_page s virt phys flags = .ok s') : Loading V s0 s' r := by
  have hm := arch_map_page_spec h.tables rfl h.current_pgd hv hmap
  refine h.step hv hm.tables (fun q j hq hn hj hoff => hm.slots r rfl q j hq hn hj fun hh =>
    hoff hh.2) hm.only
    (hm.pages_subset rfl) fun k hk => ?_
  refine arch_map_page_samePage h.tables rfl h.current_pgd hv hmap fun n hn t ht => ?_
  rintro rfl
  exact hm.tables.not_free rfl (PathKind.pathOf hv (by omega)) (by simpa using hn) ht hk

def PagesPresent (m : Mem) (r : BitVec 64) (pages : List (Elf64Phdr × Nat)) : Prop :=
  ∀ q ∈ pages, has (slot m r (pathOf (q.1.page q.2) 3) (indexOf (q.1.page q.2) 3)) PTE_PRESENT = true

theorem pages_loading {done : List (Elf64Phdr × Nat)} (h : Loading V s0 s r)
    (hdone : PagesPresent s.mem r done) (hV : ∀ q ∈ done ++ pages, V (pathOf (q.1.page q.2) 4))
    (hrun : run (fun s q => load_page elf_data q.1 q.2 s) s pages = .ok s') :
    Loading V s0 s' r ∧ PagesPresent s'.mem r (done ++ pages) := by
  induction pages generalizing s done with
  | nil =>
    cases hrun
    rw [List.append_nil]
    exact ⟨h, hdone⟩
  | cons q pages ih =>
    obtain ⟨s1, hload, hrun⟩ := bind_ok.mp hrun
    have hv := hV q (by simp)
    obtain ⟨phys, hl⟩ := load_page_spec h.tables h.current_pgd hv hload
    rw [List.append_cons] at hV ⊢
    refine ih (h.step hv hl.tables hl.slots hl.only hl.pages hl.still) (fun q' hq' => ?_) hV hrun
    -- A page of before stays, or gets a new frame.
    by_cases hpath : pathOf (q'.1.page q'.2) 3 ++ [indexOf (q'.1.page q'.2) 3] = pathOf (q.1.page q.2) 4
    · obtain ⟨h1, h2⟩ := snoc_eq_pathOf (v := q.1.page q.2) (q := pathOf (q'.1.page q'.2) 3)
        (by simpa using hpath)
      rw [pathOf_length] at h1 h2
      rw [h1, h2, hl.leaf]
      exact pageEntry_present _ _
    · have hv' : V (pathOf (q'.1.page q'.2) 4) := hV q' (List.mem_append_left _ hq')
      rw [hl.slots _ _ (PathKind.pathOf hv' (by omega)) (by simp) (indexOf_lt _ _)
        (by simpa using hpath)]
      rcases List.mem_append.mp hq' with hq' | hq'
      · exact hdone q' hq'
      · rw [List.mem_singleton.mp hq'] at hpath
        exact absurd (pathOf_succ _ 3).symm hpath

theorem load_pages_loading (h : Loading V s0 s r) (hV : ∀ q ∈ pages, V (pathOf (q.1.page q.2) 4))
    (hrun : run (fun s q => load_page elf_data q.1 q.2 s) s pages = .ok s') :
    Loading V s0 s' r ∧ PagesPresent s'.mem r pages := by
  have hnone : PagesPresent s.mem r [] := fun q hq => by cases hq
  rw [← List.nil_append pages] at hV ⊢
  exact pages_loading h hnone hV hrun

theorem load_image_console (hload : load_image s0 elf_data = .ok (new_cr3, s')) :
    pte_addr s'.cr3 = new_cr3 ∧ ∃ s, (∀ V, [PathKind V] → FreeKind V s0 → V (pathOf 0xB8000 4) →
      pageOf (pte_addr s0.cr3) ∉ freePages s0.pmm → Loading V s0 s new_cr3) ∧
      run (fun s q => load_page elf_data q.1 q.2 s) s (imagePages elf_data) = .ok s' := by
  have hroot := (load_image_root hload).1
  obtain ⟨s1, s2, hnew, hmap, hrun⟩ := load_image_ok hload
  rw [load_segments_eq] at hrun
  refine ⟨?_, s2, fun V _ hV hconsole hused => ?_, hrun⟩
  · rw [hroot]
    exact (create_new_address_space_spec hnew).addr
  · exact map_loading (create_loading hV hused hnew) hconsole hmap

/-! ## Images in the user half -/

theorem userKind (s0 : Mm) : FreeKind UserPath s0 :=
  ⟨fun i hi => ⟨hi, by simp⟩, fun i hi hge => absurd hi.1 (Nat.not_lt.mpr hge)⟩

theorem Loading.kernelKept (h : Loading UserPath s0 s r) (hheld : Held True s0 R L)
    (hr : pte_addr s.cr3 = r) : KernelKept s0 s := by
  have hroot : ∀ i, 256 ≤ i → i < 512 → table_get s.mem (pte_addr s.cr3) i =
      table_get s0.mem (pte_addr s0.cr3) i := by
    intro i hlo hhi
    rw [hr]
    exact h.top i hhi fun hi => Nat.not_lt.mpr hlo hi.1
  have hsame : ∀ p t, KernelPath p → p ≠ [] → p.length ≤ 3 → node s0.mem (pte_addr s0.cr3) p = some t →
      SamePage s0.mem s.mem (pageOf t) := by
    intro p t hp _ hn ht
    exact h.same _
      (hheld.not_free (hheld.node_kind (addr_aligned _) (hheld.root _ hheld.current) hp.lt hn ht))
  have hslots : ∀ v, KernelHalf v → ∀ n ≤ 3, slot s.mem (pte_addr s.cr3) (pathOf v n) (indexOf v n) =
      slot s0.mem (pte_addr s0.cr3) (pathOf v n) (indexOf v n) :=
        fun v hv n hn => slots_kernel hroot hsame hv hn
  refine ⟨fun v hv => translate_congr (hslots v hv), fun v hv => permits_congr (hslots v hv),
    fun k hk => ?_⟩
  by_cases hfree : k ∈ freePages s0.pmm
  · exact h.still k (not_not.mp fun hnot => hk ⟨hfree, hnot⟩)
  · exact h.same k hfree

theorem load_image_loading (hroot : pageOf (pte_addr s0.cr3) ∉ freePages s0.pmm)
    (himage : ImagePages UserHalf elf_data) (hload : load_image s0 elf_data = .ok (new_cr3, s')) :
    Loading UserPath s0 s' new_cr3 := by
  obtain ⟨-, s, hstart, hrun⟩ := load_image_console hload
  have hloading := hstart UserPath (userKind s0) (pathOf_user (by decide) 4) hroot
  exact (load_pages_loading hloading (imagePages_user himage) hrun).1

theorem load_image_kept (hheld : Held True s0 R L) (himage : ImagePages UserHalf elf_data)
    (hload : load_image s0 elf_data = .ok (new_cr3, s')) : KernelKept s0 s' :=
  (load_image_loading (hheld.not_free (hheld.root _ hheld.current)) himage hload).kernelKept hheld
    (load_image_console hload).1

/-! ### Such a call is a part of a run -/

theorem reached_of_only {W : Set Nat} (h : Reached True s R) (hL : Held True s R L)
    (honly : Only W s s') (hW : ∀ κ, ∀ k ∈ L κ, k ∉ W) : Reached True s' R := by
  have hmem : ∀ r ∈ R, ∀ p t, (∀ j ∈ p, j < 512) → p.length ≤ 3 → node s.mem r p = some t →
      pageOf t ∈ L (.ofPath p) := fun r hr p t hp hn ht => hL.node_kind (hL.aligned hr)
    (hL.root r hr) hp hn ht
  refine .other h ⟨fun r hr p t hp hn ht => ?_, fun r hr p t hp hn ht i hi => ?_,
    honly.used 0 hL.low_used, honly.cr3, honly.current_pgd⟩
  · exact honly.used _ (hL.used _ _ (hmem r hr p t hp hn ht))
  · have hkind := hmem r hr p t hp (by omega) ht
    exact (honly.same _ (hL.not_free hkind) (hW _ _ hkind)).table_get
      (node_aligned (hL.aligned hr) ht) hi

theorem load_page_reached {ph : Elf64Phdr} (h : Reached True s R) (hT : Forest UserPath s {r})
    (hr : pte_addr s.cr3 = r) (hv : UserHalf (ph.page j))
    (hload : load_page elf_data ph j s = .ok s') : Reached True s' R := by
  obtain ⟨L, hL⟩ := h.held
  obtain ⟨phys, s1, s2, halloc, hmap, honly⟩ := load_page_cases hload
  have hnew := alloc_page_new halloc
  have hdisj : ∀ r' ∈ ({r} : Set (BitVec 64)), Disjoint (userPages s.mem r') ∅ :=
    fun _ _ => Set.disjoint_empty _
  have h1 := reached_of_only h hL hnew.only fun _ _ _ hk => hk
  have hL1 := hL.step (hL.toKinded.of_only hnew.only fun _ _ _ hk => hk)
  have hhigh : ¬ HighOn s1.mem (pte_addr s1.cr3) (ph.page j) := by
    rw [hnew.cr3, hr]
    exact fun hhigh => (hT.of_only hnew.only hdisj).not_huge rfl (pathOf_user hv 4) hhigh.1
  have h2 := Reached.arch_map_page h1 (fun _ => .inl hv) hhigh hmap
  obtain ⟨L2, hstep⟩ := arch_map_page_kind hL1.toKinded hL1.current_pgd (addr_aligned _)
    (hL1.root _ hL1.current)
    (fun _ => .inl hv) hhigh hmap
  refine reached_of_only h2 (hL1.step hstep) honly ?_
  -- The frame is no table before the mapping, and not free for a new one.
  rintro κ k hk rfl
  rcases hstep.fresh κ _ hk with hk | hk
  · exact hL.not_free hk hnew.was_free
  · exact not_free_of_used (by simp [hnew.used]) hk

theorem load_image_reached (h : Reached True s0 R) (himage : ImagePages UserHalf elf_data)
    (hload : load_image s0 elf_data = .ok (new_cr3, s')) : Reached True s' (insert new_cr3 R) := by
  obtain ⟨s1, s2, hnew, hmap, hrun⟩ := load_image_ok hload
  rw [load_segments_eq] at hrun
  have hcreated := create_new_address_space_spec hnew
  obtain ⟨L, hL⟩ := h.held
  have hloading := create_loading (userKind s0) (hL.not_free (hL.root _ hL.current)) hnew
  have hconsole : UserHalf 0xB8000 := by decide
  have h1 := Reached.switch_address_space (.create_new_address_space h hnew) (Set.mem_insert new_cr3 R)
  have h2 := Reached.arch_map_page h1 (fun _ => .inl hconsole) (fun hhigh => by
    rw [show (switch_address_space s1 new_cr3).cr3 = new_cr3 from rfl, hcreated.addr] at hhigh
    exact hloading.tables.not_huge rfl (pathOf_user hconsole 4) hhigh.1) hmap
  have hcr3 : s2.cr3 = new_cr3 := (arch_map_page_root hmap).1
  refine (run_inv (fun s => Reached True s (insert new_cr3 R) ∧ Loading UserPath s0 s new_cr3 ∧ s.cr3 = new_cr3) ?_
    ⟨h2, map_loading hloading (pathOf_user hconsole 4) hmap, hcr3⟩ hrun).1
  rintro q hq s s' ⟨hs, hl, hcr3⟩ hload
  have hv := imagePages_iff.mp himage q hq
  obtain ⟨phys, hpage⟩ := load_page_spec hl.tables hl.current_pgd (pathOf_user hv 4) hload
  exact ⟨load_page_reached hs hl.tables (hcr3.symm ▸ hcreated.addr) hv hload,
    hl.step (pathOf_user hv 4) hpage.tables hpage.slots hpage.only hpage.pages hpage.still,
    (load_page_root hload).1.trans hcr3⟩

/-! ## Pages of the kernel half -/

/-- Paths that start in the user half, or where the old root has no entry. -/
def FreePath (s0 : Mm) (p : List Nat) : Prop :=
  (∀ j ∈ p, j < 512) ∧ ∀ i, p.head? = some i → i < 256 ∨
    has (table_get s0.mem (pte_addr s0.cr3) i) PTE_PRESENT = false

instance (s0 : Mm) : PathKind (FreePath s0) where
  of_prefix := by
    rintro p q ⟨x, rfl⟩ ⟨hlt, hhead⟩
    refine ⟨fun j hj => hlt j (List.mem_append_left _ hj), fun i hi => hhead i ?_⟩
    rw [List.head?_append, hi]
    rfl
  last_lt := fun p i h => h.1 i (by simp)

theorem freeKind (s0 : Mm) : FreeKind (FreePath s0) s0 := by
  refine ⟨fun i hi => ⟨fun j hj => ?_, fun j hj => ?_⟩, fun i hi hge => ⟨hi.1 i (by simp), ?_⟩⟩
  · rw [List.mem_singleton.mp hj]
    omega
  · cases hj
    exact .inl hi
  · exact (hi.2 i rfl).resolve_left (Nat.not_lt.mpr hge)

theorem freePath_iff : FreePath s0 (pathOf v 4) ↔
    UserHalf v ∨ has (table_get s0.mem (pte_addr s0.cr3) (pgd_index v)) PTE_PRESENT = false := by
  constructor
  · exact fun h => h.2 (pgd_index v) rfl
  · intro h
    refine ⟨fun j hj => lt_of_mem_pathOf hj, fun i hi => ?_⟩
    cases hi
    exact h

theorem translate_of_absent {m : Mem} (h : has (table_get m r (pgd_index v)) PTE_PRESENT = false) :
    translate m r v = none := by
  unfold Paging.translate
  simp [h]

theorem Loading.translate_page {q : Elf64Phdr × Nat} (h : Loading V s0 s r)
    (hpages : PagesPresent s.mem r pages) (hq : q ∈ pages) (hv : V (pathOf (q.1.page q.2) 4)) :
    translate s.mem r (q.1.page q.2) ≠ none := by
  rw [h.tables.translate_eq rfl hv, if_pos (hpages q hq)]
  simp

/-! ### The user bit stays -/

structure UserWord (t : BitVec 64) (i : Nat) (s : Mm) : Prop where
  aligned : Aligned t
  index : i < 512
  used : s.pmm.page_used (pageOf t) = true
  user : has (table_get s.mem t i) PTE_USER = true

theorem UserWord.of_same (h : UserWord t i s)
    (hused : ∀ k, s.pmm.page_used k = true → s'.pmm.page_used k = true)
    (hsame : SamePage s.mem s'.mem (pageOf t)) : UserWord t i s' := by
  refine ⟨h.aligned, h.index, hused _ h.used, ?_⟩
  rw [hsame.table_get h.aligned h.index]
  exact h.user

theorem UserWord.alloc {f : BitVec 64} (h : UserWord t i s)
    (halloc : alloc_page s = .ok (f, s')) : UserWord t i s' ∧ pageOf t ≠ pageOf f := by
  have hnew := alloc_page_new halloc
  have hne := hnew.ne_of_not_free (not_free_of_used h.used)
  exact ⟨h.of_same hnew.only.used (hnew.same _ hne), hne⟩

theorem UserWord.set {e u : BitVec 64} {j : Nat} (h : UserWord t i s) (hu : Aligned u)
    (hj : j < 512) (he : has e PTE_USER = true) : UserWord t i (table_set s u j e) := by
  refine ⟨h.aligned, h.index, h.used, ?_⟩
  rw [table_get_set s e hu h.aligned hj h.index]
  split_ifs
  · exact he
  · exact h.user

theorem UserWord.ensure {u : BitVec 64} {j : Nat} (h : UserWord t i s) (hu : Aligned u)
    (hj : j < 512) (hensure : ensure_table s u j PTE_USER = .ok s') : UserWord t i s' := by
  unfold ensure_table at hensure
  split_ifs at hensure
  · obtain ⟨⟨f, s1⟩, halloc, hensure⟩ := bind_ok.mp hensure
    cases hensure
    exact (h.alloc halloc).1.set hu hj (tableEntry_user f)
  · cases hensure
    refine h.set hu hj ?_
    rw [has_or, show has PTE_USER PTE_USER = true by decide, Bool.or_true]

theorem map_user_levels (hpgd : s.current_pgd = some r) (hflags : has flags PTE_USER = true)
    (hmap : arch_map_page s v phys flags = .ok s') :
    ∃ s1 s2 s3 t1 t2 t3, ensure_table s r (pgd_index v) PTE_USER = .ok s1 ∧
      t1 = pte_addr (table_get s1.mem r (pgd_index v)) ∧
      ensure_table s1 t1 (pud_index v) PTE_USER = .ok s2 ∧ Aligned t2 ∧
      ensure_table s2 t2 (pmd_index v) PTE_USER = .ok s3 ∧ Aligned t3 ∧
      s' = table_set s3 t3 (pte_index v) (pageEntry phys flags) := by
  unfold arch_map_page at hmap
  rw [hpgd] at hmap
  simp only [hflags, if_true, bind_ok] at hmap
  obtain ⟨s1, h1, s2, h2, s3, h3, hmap⟩ := hmap
  cases hmap
  exact ⟨s1, s2, s3, _, _, _, h1, rfl, h2, addr_aligned _, h3, addr_aligned _, rfl⟩

theorem UserWord.map (h : UserWord t i s)
    (hpgd : s.current_pgd = some r) (hr : Aligned r) (hflags : has flags PTE_USER = true)
    (hmap : arch_map_page s v phys flags = .ok s') : UserWord t i s' := by
  obtain ⟨s1, s2, s3, t1, t2, t3, h1, rfl, h2, ht2, h3, ht3, rfl⟩ := map_user_levels hpgd hflags hmap
  have w1 := h.ensure hr (index_lt _) h1
  have w2 := w1.ensure (addr_aligned _) (index_lt _) h2
  have w3 := w2.ensure ht2 (index_lt _) h3
  refine w3.set ht3 (index_lt _) ?_
  rw [pageEntry_user]
  exact hflags

theorem ensure_userWord (ht : Aligned t) (hi : i < 512) (hused : s.pmm.page_used (pageOf t) = true)
    (hensure : ensure_table s t i PTE_USER = .ok s') : UserWord t i s' := by
  refine ⟨ht, hi, ?_, (ensure_table_entry ht hi hensure).user⟩
  unfold ensure_table at hensure
  split_ifs at hensure
  · obtain ⟨⟨f, s1⟩, halloc, hensure⟩ := bind_ok.mp hensure
    cases hensure
    exact (alloc_page_new halloc).only.used _ hused
  · cases hensure
    exact hused

theorem map_userWord (hpgd : s.current_pgd = some r) (hr : Aligned r)
    (hpres : has (table_get s.mem r (pgd_index v)) PTE_PRESENT = true)
    (hused : s.pmm.page_used (pageOf (pte_addr (table_get s.mem r (pgd_index v)))) = true)
    (hflags : has flags PTE_USER = true) (hmap : arch_map_page s v phys flags = .ok s') :
    UserWord (pte_addr (table_get s.mem r (pgd_index v))) (pud_index v) s' := by
  obtain ⟨s1, s2, s3, t1, t2, t3, h1, ht1, h2, ht2, h3, ht3, rfl⟩ := map_user_levels hpgd hflags hmap
  have hfirst : s1.pmm = s.pmm ∧ t1 = pte_addr (table_get s.mem r (pgd_index v)) := by
    unfold ensure_table at h1
    rw [hpres, if_neg (by simp)] at h1
    cases h1
    refine ⟨rfl, ?_⟩
    have hlt : pgd_index v < 512 := index_lt _
    rw [ht1, table_get_set s _ hr hr hlt hlt, if_pos ⟨rfl, rfl⟩, addr_or,
      show pte_addr PTE_USER = 0 by decide]
    simp
  obtain ⟨hpmm, rfl⟩ := hfirst
  have w2 := ensure_userWord (addr_aligned _) (index_lt _) (hpmm ▸ hused) h2
  have w3 := w2.ensure ht2 (index_lt _) h3
  refine w3.set ht3 (index_lt _) ?_
  rw [pageEntry_user]
  exact hflags

theorem UserWord.load_page {ph : Elf64Phdr} (h : UserWord t i s) (hpgd : s.current_pgd = some r)
    (hr : Aligned r) (hload : load_page elf_data ph j s = .ok s') : UserWord t i s' := by
  obtain ⟨phys, s1, s2, halloc, hmap, honly⟩ := load_page_cases hload
  obtain ⟨w1, hne⟩ := h.alloc halloc
  have w2 := w1.map ((alloc_page_new halloc).current_pgd.trans hpgd) hr (by decide) hmap
  exact w2.of_same honly.used (honly.same _ (not_free_of_used w2.used) hne)

theorem UserWord.load_pages (h : UserWord t i s) (hpgd : s.current_pgd = some r) (hr : Aligned r)
    (hrun : run (fun s q => Code.load_page elf_data q.1 q.2 s) s pages = .ok s') :
    UserWord t i s' := by
  refine (run_inv (fun s => UserWord t i s ∧ s.current_pgd = some r) ?_ ⟨h, hpgd⟩ hrun).1
  rintro q - s s' ⟨hw, hpgd⟩ hload
  exact ⟨hw.load_page hpgd hr hload, (load_page_root hload).2.trans hpgd⟩

/-! ### The first page outside -/

theorem forall_or_first {α : Type} (P : α → Prop) (l : List α) :
    (∀ a ∈ l, P a) ∨ ∃ before a after, l = before ++ a :: after ∧ (∀ b ∈ before, P b) ∧ ¬ P a := by
  induction l with
  | nil => exact .inl (by simp)
  | cons a l ih =>
    by_cases ha : P a
    · rcases ih with hall | ⟨before, b, after, rfl, hbefore, hb⟩
      · refine .inl fun x hx => ?_
        rcases List.mem_cons.mp hx with rfl | hx
        · exact ha
        · exact hall x hx
      · refine .inr ⟨a :: before, b, after, rfl, fun x hx => ?_, hb⟩
        rcases List.mem_cons.mp hx with rfl | hx
        · exact ha
        · exact hbefore x hx
    · exact .inr ⟨[], a, l, rfl, by simp, ha⟩

theorem kernel_table_clean (h : Held True s0 R L) (hge : 256 ≤ i) (hi : i < 512)
    (hpres : has (table_get s0.mem (pte_addr s0.cr3) i) PTE_PRESENT = true) :
    s0.pmm.page_used (pageOf (pte_addr (table_get s0.mem (pte_addr s0.cr3) i))) = true ∧
      ∀ j < 512, has (table_get s0.mem (pte_addr (table_get s0.mem (pte_addr s0.cr3) i)) j)
        PTE_USER = false := by
  have hroot := h.root _ h.current
  have hentry := h.entry_ok (by decide) (addr_aligned _) hroot hi
  have hmem := hentry.leads _ (child_of_small hpres fun hd => by simp [Kind.depth] at hd)
  have hkind : Kind.root.next i = .below true 1 := by simp [Kind.next, hge]
  rw [hkind] at hmem
  exact ⟨h.used _ _ hmem,
    fun j hj => (h.entry_ok (by decide) (addr_aligned _) hmem hj).clean trivial rfl⟩

theorem load_page_userWord {ph : Elf64Phdr} {e : BitVec 64} (hr : Aligned r)
    (hroot : s.pmm.page_used (pageOf r) = true) (hpgd : s.current_pgd = some r)
    (he : table_get s.mem r (pgd_index (ph.page j)) = e) (hpres : has e PTE_PRESENT = true)
    (hused : s.pmm.page_used (pageOf (pte_addr e)) = true)
    (hload : load_page elf_data ph j s = .ok s') :
    UserWord (pte_addr e) (pud_index (ph.page j)) s' := by
  obtain ⟨phys, s1, s2, halloc, hmap, honly⟩ := load_page_cases hload
  have hnew := alloc_page_new halloc
  have hget : table_get s1.mem r (pgd_index (ph.page j)) = e := by
    have hne := hnew.ne_of_not_free (not_free_of_used hroot)
    rw [← he]
    exact (hnew.same _ hne).table_get hr (index_lt _)
  have hword := map_userWord (v := ph.page j) (hnew.current_pgd.trans hpgd) hr (by rwa [hget])
    (by rw [hget]; exact hnew.only.used _ hused) (by decide) hmap
  rw [hget] at hword
  have hne := hnew.ne_of_not_free (not_free_of_used hused)
  exact hword.of_same honly.used (honly.same _ (not_free_of_used hword.used) hne)

theorem shared_table_changed {q : Elf64Phdr × Nat} {before after : List (Elf64Phdr × Nat)}
    (hheld : Held True s0 R L) (h : Loading (FreePath s0) s0 s r)
    (hbefore : ∀ b ∈ before, FreePath s0 (pathOf (b.1.page b.2) 4))
    (hq : ¬ FreePath s0 (pathOf (q.1.page q.2) 4))
    (hrun : run (fun s q => load_page elf_data q.1 q.2 s) s (before ++ q :: after) = .ok s') :
    ∃ k ∉ freePages s0.pmm, ¬ SamePage s0.mem s'.mem k := by
  rw [run_append] at hrun
  obtain ⟨s1, hrun1, hrun⟩ := bind_ok.mp hrun
  obtain ⟨s2, hload, hrun2⟩ := bind_ok.mp hrun
  obtain ⟨h1, -⟩ := load_pages_loading h hbefore hrun1
  rw [freePath_iff, not_or, Bool.not_eq_false] at hq
  obtain ⟨hhalf, hpres⟩ := hq
  have hge : 256 ≤ pgd_index (q.1.page q.2) := Nat.le_of_not_lt hhalf
  obtain ⟨hused, hclean⟩ := kernel_table_clean hheld hge (index_lt _) hpres
  -- The entry of the new root is still the one of the old root.
  have htop : table_get s1.mem r (pgd_index (q.1.page q.2)) =
      table_get s0.mem (pte_addr s0.cr3) (pgd_index (q.1.page q.2)) := by
    refine h1.top _ (index_lt _) fun hfree => ?_
    rcases hfree.2 _ rfl with hlo | habsent
    · omega
    · rw [hpres] at habsent
      cases habsent
  have hr := h1.tables.aligned r rfl
  have hroot := h1.tables.used r rfl [] r ⟨by simp, by simp⟩ (by simp) (node_nil _ r)
  have hword := load_page_userWord hr hroot h1.current_pgd htop hpres (h1.used _ hused) hload
  have hpgd2 := (load_page_root hload).2.trans h1.current_pgd
  have hword' := hword.load_pages hpgd2 hr hrun2
  refine ⟨_, not_free_of_used hused, fun hsame => ?_⟩
  have huser := hword'.user
  rw [hsame.table_get hword.aligned hword.index, hclean _ hword.index] at huser
  cases huser

theorem load_image_not_kept (hheld : Held True s0 R L) (himage : ¬ ImagePages UserHalf elf_data)
    (hload : load_image s0 elf_data = .ok (new_cr3, s')) : ¬ KernelKept s0 s' := by
  intro hkept
  obtain ⟨hcr3, s, hstart, hrun⟩ := load_image_console hload
  have hloading := hstart (FreePath s0) (freeKind s0) (freePath_iff.mpr (.inl (by decide)))
    (hheld.not_free (hheld.root _ hheld.current))
  rcases forall_or_first (fun q : Elf64Phdr × Nat => FreePath s0 (pathOf (q.1.page q.2) 4))
    (imagePages elf_data) with
    hall | ⟨before, q, after, hpages, hbefore, hq⟩
  · -- All pages are mapped, and one is at an address that had no mapping.
    obtain ⟨hend, hpresent⟩ := load_pages_loading hloading hall hrun
    rw [imagePages_iff] at himage
    simp only [not_forall] at himage
    obtain ⟨q, hq, hhalf⟩ := himage
    have habsent := (freePath_iff.mp (hall q hq)).resolve_left hhalf
    have hsame := hkept.translate (q.1.page q.2) (Nat.le_of_not_lt hhalf)
    rw [hcr3, translate_of_absent habsent] at hsame
    exact hend.translate_page hpresent hq (hall q hq) hsame
  · rw [hpages] at hrun
    obtain ⟨k, hk, hchanged⟩ := shared_table_changed hheld hloading hbefore hq hrun
    exact hchanged (hkept.frames k fun hh => hk hh.1)

/-! ## Every file -/

def UserImage (file : PathFile) : Prop :=
  ∀ elf_data, file = .readable elf_data → (Elf64Hdr.at elf_data).e_magic = ELF_MAGIC →
    ImagePages UserHalf elf_data

/-- The kernel half and all frames that were not taken stay as they are exactly when no page of
an image is outside the user half. -/
theorem execve_kernelKept_iff {k k' : Kernel} {regs regs' : Registers} {file : PathFile}
    {path : CString} {ret : Int} (h : Reached True k.mm R)
    (hk : sys_execve k regs file path = .ok (ret, regs', k')) :
    (KernelKept k.mm k'.mm ↔ UserImage file) ∧ (UserImage file → ∃ R', Reached True k'.mm R') := by
  obtain ⟨L, hheld⟩ := h.held
  rcases sys_execve_mm hk with ⟨hmm, hnot⟩ | ⟨elf_data, new_cr3, rfl, hmagic, hload⟩
  · rw [hmm]
    refine ⟨⟨fun _ elf_data hfile hmagic => absurd hmagic (hnot elf_data hfile), fun _ => ?_⟩,
      fun _ => ⟨R, h⟩⟩
    exact ⟨fun _ _ => rfl, fun _ _ => Iff.rfl, fun _ _ _ _ => rfl⟩
  · refine ⟨⟨?_, fun himage => ?_⟩, fun himage => ?_⟩
    · rintro hkept elf_data' ⟨⟩ -
      exact not_not.mp fun himage => load_image_not_kept hheld himage hload hkept
    · exact load_image_kept hheld (himage elf_data rfl hmagic) hload
    · exact ⟨_, load_image_reached h (himage elf_data rfl hmagic) hload⟩

theorem execve_small (elf_data : Mem) (hmagic : (Elf64Hdr.at elf_data).e_magic = ELF_MAGIC)
    (hpages : (imagePages elf_data).length ≤ 16000) :
    ∃ k k' regs', Reached True k.mm {0x110000} ∧ pte_addr k.mm.cr3 = 0x110000 ∧
      table_get k.mm.mem 0x110000 288 = 0 ∧
      sys_execve k zeroRegs (.readable elf_data) ⟨[0x2F], by decide⟩ = .ok (0, regs', k') := by
  obtain ⟨s, -, hpool, hreached, hcr3, -, -, hslots⟩ := small_boot True
  obtain ⟨new_cr3, s', hload⟩ := load_image_pool elf_data (hpool.le (by omega))
  obtain ⟨heap_ptr, regs', hexec⟩ := sys_execve_of_load (k := Kernel.boot s 0) zeroRegs
    ⟨[0x2F], by decide⟩ hmagic hload
    (show (0 : BitVec 32).toNat + 4128 ≤ 4194304 by decide)
  have hentry : table_get s.mem 0x110000 288 = 0 := by
    refine (hslots [] 288 288 ⟨by simp, by simp, by simp⟩ (by simp) (by omega) rfl (by omega)).trans ?_
    decide +kernel
  exact ⟨Kernel.boot s 0, _, regs', hreached, hcr3, hentry, hexec _ (if_pos (by decide))⟩

theorem selfImage_keeps_kernel : ∃ k k' regs', Reached True k.mm {0x110000} ∧
    sys_execve k zeroRegs (.readable selfImage) ⟨[0x2F], by decide⟩ = .ok (0, regs', k') ∧
      KernelKept k.mm k'.mm := by
  obtain ⟨k, k', regs', hreached, -, -, hk⟩ := execve_small selfImage rfl (by decide)
  refine ⟨k, k', regs', hreached, hk, (execve_kernelKept_iff hreached hk).1.mpr ?_⟩
  rintro elf_data ⟨⟩ -
  exact selfImage_pages (by decide)

def kernelImage : Mem
  | 0 => 0x7F | 1 => 0x45 | 2 => 0x4C | 3 => 0x46
  | 32 => 64
  | 56 => 1
  | 64 => 1
  | 85 => 0x90 | 86 => 0xFF | 87 => 0xFF
  | 105 => 0x10
  | _ => 0

theorem kernelImage_pages :
    imagePages kernelImage = [(⟨PT_LOAD, 0, 0xFFFF900000000000, 0, 0x1000⟩, 0)] := rfl

/-- The page of the image is mapped in the kernel half, for ring 3. -/
theorem kernelImage_mapped : ∃ k k' regs', Reached True k.mm {0x110000} ∧
    sys_execve k zeroRegs (.readable kernelImage) ⟨[0x2F], by decide⟩ = .ok (0, regs', k') ∧
    KernelHalf 0xFFFF900000000000 ∧ translate k.mm.mem (pte_addr k.mm.cr3) 0xFFFF900000000000 = none ∧
    Permits k'.mm.mem (pte_addr k'.mm.cr3) 0xFFFF900000000000 true false := by
  obtain ⟨k, k', regs', hreached, hcr3, hentry, hk⟩ := execve_small kernelImage rfl
    (by rw [kernelImage_pages]; decide)
  have habsent : has (table_get k.mm.mem (pte_addr k.mm.cr3) (pgd_index 0xFFFF900000000000))
      PTE_PRESENT = false := by
    rw [hcr3, show pgd_index 0xFFFF900000000000 = 288 by decide, hentry, zero_has]
  refine ⟨k, k', regs', hreached, hk, by unfold KernelHalf; decide, translate_of_absent habsent, ?_⟩
  rcases sys_execve_mm hk with ⟨-, hnot⟩ | ⟨elf_data, new_cr3, hfile, -, hload⟩
  · exact absurd rfl (hnot kernelImage rfl)
  cases hfile
  obtain ⟨L, hheld⟩ := hreached.held
  obtain ⟨hnew, s, hstart, hrun⟩ := load_image_console hload
  have hloading := hstart (FreePath k.mm) (freeKind k.mm) (freePath_iff.mpr (.inl (by decide)))
    (hheld.not_free (hheld.root _ hheld.current))
  rw [kernelImage_pages] at hrun
  obtain ⟨s', hload, hrun⟩ := bind_ok.mp hrun
  cases hrun
  have hpage : Elf64Phdr.page ⟨PT_LOAD, 0, 0xFFFF900000000000, 0, 0x1000⟩ 0 =
      0xFFFF900000000000 := by decide
  have hv : FreePath k.mm (pathOf 0xFFFF900000000000 4) := freePath_iff.mpr (.inr habsent)
  obtain ⟨phys, hl⟩ := load_page_spec hloading.tables hloading.current_pgd (hpage ▸ hv) hload
  rw [hnew, ← hpage]
  exact hl.permits (hpage ▸ hv)

end Relis.Process
