import Relis.Code.Vmalloc
import Relis.Paging.Space

/-!
# Pages of the window for `vmalloc`

One page of the window is mapped to a new frame, or is unmapped and its frame given back.
-/

open Relis.Bytes Relis.Run Relis.Code Relis.PageAlloc Relis.Paging

namespace Relis.Vmalloc

variable {pages : Nat → Prop} {flags phys v : BitVec 64} {s1 : Mm}

/-! ## Addresses -/

def windowPage (n : Nat) : BitVec 64 := VMALLOC_START + BitVec.ofNat 64 (4096 * n)

def windowPages : Nat := 14629732352

variable {n k : Nat}

theorem toNat_windowPage (hn : n < windowPages) :
    (windowPage n).toNat = 0xFFFFC90000000000 + 4096 * n := by
  have hstart : VMALLOC_START.toNat = 0xFFFFC90000000000 := rfl
  unfold windowPages at hn
  unfold windowPage
  rw [BitVec.toNat_add, BitVec.toNat_ofNat, hstart]
  omega

theorem windowPage_add (n i : Nat) :
    windowPage n + BitVec.ofNat 64 i * 4096 = windowPage (n + i) := by
  apply BitVec.eq_of_toNat_eq
  unfold windowPage
  simp only [BitVec.toNat_add, BitVec.toNat_mul, BitVec.toNat_ofNat,
    show (4096 : BitVec 64).toNat = 4096 from rfl]
  omega

theorem windowPage_succ (n : Nat) : windowPage n + 4096 = windowPage (n + 1) := by
  rw [← windowPage_add]
  rfl

theorem pgd_index_window (hn : n < windowPages) : pgd_index (windowPage n) = 402 + n / 134217728 := by
  have hlt := hn
  unfold windowPages at hlt
  unfold pgd_index
  rw [toNat_index _ _ 9 0x1FF (by decide), toNat_windowPage hn]
  omega

theorem pud_index_window (hn : n < windowPages) : pud_index (windowPage n) = n / 262144 % 512 := by
  unfold pud_index
  rw [toNat_index _ _ 9 0x1FF (by decide), toNat_windowPage hn]
  omega

theorem pmd_index_window (hn : n < windowPages) : pmd_index (windowPage n) = n / 512 % 512 := by
  unfold pmd_index
  rw [toNat_index _ _ 9 0x1FF (by decide), toNat_windowPage hn]
  omega

theorem pte_index_window (hn : n < windowPages) : pte_index (windowPage n) = n % 512 := by
  unfold pte_index
  rw [toNat_index _ _ 9 0x1FF (by decide), toNat_windowPage hn]
  omega

theorem indexOf_of_path {w : BitVec 64} (h : pathOf v 4 = pathOf w 4) {d : Nat} (hd : d < 4) :
    indexOf v d = indexOf w d := by
  have hget := congrArg (·[d]?) h
  simpa [pathOf, hd] using hget

theorem windowPage_path_inj (hn : n < windowPages) (hk : k < windowPages)
    (h : pathOf (windowPage n) 4 = pathOf (windowPage k) 4) : n = k := by
  have h0 : pgd_index _ = pgd_index _ := indexOf_of_path h (d := 0) (by omega)
  have h1 : pud_index _ = pud_index _ := indexOf_of_path h (d := 1) (by omega)
  have h2 : pmd_index _ = pmd_index _ := indexOf_of_path h (d := 2) (by omega)
  have h3 : pte_index _ = pte_index _ := indexOf_of_path h (d := 3) (by omega)
  rw [pgd_index_window hn, pgd_index_window hk] at h0
  rw [pud_index_window hn, pud_index_window hk] at h1
  rw [pmd_index_window hn, pmd_index_window hk] at h2
  rw [pte_index_window hn, pte_index_window hk] at h3
  omega

theorem arch_map_page_path {w : BitVec 64} (s : Mm) (phys flags : BitVec 64)
    (h : pathOf v 4 = pathOf w 4) :
    arch_map_page s v phys flags = arch_map_page s w phys flags := by
  have h0 : pgd_index v = pgd_index w := indexOf_of_path h (d := 0) (by omega)
  have h1 : pud_index v = pud_index w := indexOf_of_path h (d := 1) (by omega)
  have h2 : pmd_index v = pmd_index w := indexOf_of_path h (d := 2) (by omega)
  have h3 : pte_index v = pte_index w := indexOf_of_path h (d := 3) (by omega)
  unfold arch_map_page
  rw [h0, h1, h2, h3]

/-- A kind of paths with the whole window. -/
class WindowKind (V : List Nat → Prop) : Prop extends PathKind V where
  window : ∀ n < windowPages, V (pathOf (windowPage n) 4)

theorem WindowKind.nil {V : List Nat → Prop} [WindowKind V] : V [] :=
  PathKind.of_prefix _ _ List.nil_prefix (WindowKind.window 0 (by decide))

/-! ## The last-level entry of an address -/

def leaf (m : Mem) (r v : BitVec 64) : BitVec 64 := slot m r (pathOf v 3) (indexOf v 3)

theorem pathOf_four (v : BitVec 64) : pathOf v 4 = pathOf v 3 ++ [indexOf v 3] := pathOf_succ v 3

theorem leaf_congr (m : Mem) (r : BitVec 64) {w : BitVec 64} (h : pathOf v 4 = pathOf w 4) :
    leaf m r v = leaf m r w := by
  rw [pathOf_four, pathOf_four] at h
  obtain ⟨hpath, hindex⟩ := List.append_inj' h rfl
  unfold leaf
  rw [hpath, List.singleton_inj.mp hindex]

variable {V : List Nat → Prop} {s s' : Mm} {r f : BitVec 64}

/-- From `s` to `s'`, only entries on the way to one of the `pages` change. -/
def SlotsOff (V : List Nat → Prop) (s s' : Mm) (r : BitVec 64) (pages : Nat → Prop) : Prop :=
  ∀ q j, V q → q.length ≤ 3 → j < 512 →
    (∀ n < windowPages, pages n → q ++ [j] ≠ pathOf (windowPage n) (q.length + 1)) →
    slot s'.mem r q j = slot s.mem r q j

theorem SlotsOff.refl (V : List Nat → Prop) (s : Mm) (r : BitVec 64) (pages : Nat → Prop) :
    SlotsOff V s s r pages := fun _ _ _ _ _ _ => rfl

theorem SlotsOff.mono {pages' : Nat → Prop} (h : SlotsOff V s s' r pages)
    (hsub : ∀ n, pages n → pages' n) : SlotsOff V s s' r pages' :=
  fun q j hq hn hj hoff => h q j hq hn hj fun n hn hp => hoff n hn (hsub n hp)

theorem SlotsOff.trans (h1 : SlotsOff V s s1 r pages) (h2 : SlotsOff V s1 s' r pages) :
    SlotsOff V s s' r pages :=
  fun q j hq hn hj hoff => (h2 q j hq hn hj hoff).trans (h1 q j hq hn hj hoff)

theorem SlotsOff.leaf [PathKind V] (h : SlotsOff V s s' r pages)
    (hv : V (pathOf v 4)) (hoff : ∀ n < windowPages, pages n → pathOf v 4 ≠ pathOf (windowPage n) 4) :
    leaf s'.mem r v = leaf s.mem r v := by
  apply h _ _ (PathKind.pathOf hv (by omega)) (by simp) (indexOf_lt _ _)
  simpa [← pathOf_four] using hoff

theorem SlotsOff.window [WindowKind V] (h : SlotsOff V s s' r pages) (hn : n < windowPages)
    (hoff : ¬ pages n) :
    Vmalloc.leaf s'.mem r (windowPage n) = Vmalloc.leaf s.mem r (windowPage n) := by
  apply h.leaf (WindowKind.window n hn)
  intro k hk hp heq
  exact hoff (windowPage_path_inj hn hk heq ▸ hp)

/-! ## Spaces that share the window -/

structure Shared (V : List Nat → Prop) (s : Mm) (r c : BitVec 64) : Prop where
  aligned : Aligned c
  apart : pageOf c ∉ pagesOn V s.mem r
  present : has (table_get s.mem r 402) PTE_PRESENT = true
  entry : table_get s.mem c 402 = table_get s.mem r 402

def Sees (V : List Nat → Prop) (s : Mm) (r : BitVec 64) (n : Nat) : Prop :=
  s.current_pgd = some r ∨ (n ≤ 134217728 ∧ ∃ c, s.current_pgd = some c ∧ Shared V s r c)

theorem Sees.mono {k : Nat} (h : Sees V s r n) (hk : k ≤ n) : Sees V s r k := by
  rcases h with h | ⟨hn, h⟩
  · exact .inl h
  · exact .inr ⟨hk.trans hn, h⟩

def reroot (r : BitVec 64) (s : Mm) : Mm := { s with current_pgd := some r }

theorem reroot_mem (r : BitVec 64) (s : Mm) : (reroot r s).mem = s.mem := rfl

theorem reroot_pgd (r : BitVec 64) (s : Mm) : (reroot r s).current_pgd = some r := rfl

theorem reroot_cr3 (r : BitVec 64) (s : Mm) : (reroot r s).cr3 = s.cr3 := rfl

theorem alloc_page_reroot (r : BitVec 64) (h : alloc_page s = .ok (f, s')) :
    alloc_page (reroot r s) = .ok (f, reroot r s') := by
  unfold alloc_page reroot at *
  dsimp only at h ⊢
  split at h
  · cases h
  · cases h
    dsimp only

theorem ensure_table_reroot (r : BitVec 64) {t u : BitVec 64} {i : Nat}
    (h : ensure_table s t i u = .ok s') : ensure_table (reroot r s) t i u = .ok (reroot r s') := by
  unfold ensure_table at h ⊢
  change (if !has (table_get s.mem t i) PTE_PRESENT then _ else _) = _
  split_ifs at h ⊢
  · obtain ⟨⟨f, s1⟩, halloc, h⟩ := bind_ok.mp h
    cases h
    exact bind_ok.mpr ⟨_, alloc_page_reroot r halloc, rfl⟩
  · cases h
    rfl

theorem arch_map_page_reroot {c virt : BitVec 64} (hpgd : s.current_pgd = some c)
    (hpres : has (table_get s.mem r (pgd_index virt)) PTE_PRESENT = true)
    (hentry : table_get s.mem c (pgd_index virt) = table_get s.mem r (pgd_index virt))
    (hflags : has flags PTE_USER = false) (h : arch_map_page s virt phys flags = .ok s') :
    arch_map_page (reroot r s) virt phys flags = .ok (reroot r s') := by
  unfold arch_map_page at h ⊢
  rw [hpgd] at h
  simp only [hflags, Bool.false_eq_true, if_false] at h
  rw [show (reroot r s).current_pgd = some r from rfl]
  simp only [hflags, Bool.false_eq_true, if_false]
  rw [ensure_table_same (hentry ▸ hpres)] at h
  rw [ensure_table_same (s := reroot r s) hpres]
  simp only [bind_ok, Except.ok.injEq, exists_eq_left'] at h ⊢
  obtain ⟨s2, h2, s3, h3, h⟩ := h
  cases h
  rw [hentry] at h2 h3
  exact ⟨_, ensure_table_reroot r h2, _, ensure_table_reroot r h3, by rw [hentry]; rfl⟩

theorem walk_page_table_reroot {c : BitVec 64} (hpgd : s.current_pgd = some c)
    (hentry : table_get s.mem c (pgd_index v) = table_get s.mem r (pgd_index v)) :
    walk_page_table s v = walk_page_table (reroot r s) v := by
  unfold walk_page_table reroot
  rw [hpgd]
  simp only [Option.bind_eq_bind, Option.bind_some, hentry]

/-! ## One more page -/

structure Grown (V : List Nat → Prop) (s s' : Mm) (r : BitVec 64) (pages : Nat → Prop) : Prop where
  slots : SlotsOff V s s' r pages
  only : Only (pagesOn V s.mem r) s s'
  pages : pagesOn V s'.mem r ⊆ pagesOn V s.mem r ∪ freePages s.pmm
  top : ∀ i < 512, has (table_get s.mem r i) PTE_PRESENT = true →
    table_get s'.mem r i = table_get s.mem r i
  total : s'.pmm.pmm_pages_total = s.pmm.pmm_pages_total

theorem Grown.refl (V : List Nat → Prop) (s : Mm) (r : BitVec 64) (pages : Nat → Prop) :
    Grown V s s r pages :=
  ⟨.refl _ _ _ _, .refl _ _, Set.subset_union_left, fun _ _ _ => rfl, rfl⟩

theorem Grown.mono {pages' : Nat → Prop} (h : Grown V s s' r pages) (hsub : ∀ n, pages n → pages' n) :
    Grown V s s' r pages' := ⟨h.slots.mono hsub, h.only, h.pages, h.top, h.total⟩

theorem Grown.trans (h1 : Grown V s s1 r pages) (h2 : Grown V s1 s' r pages) :
    Grown V s s' r pages := by
  refine ⟨h1.slots.trans h2.slots, h1.only.trans_into h2.only h1.pages, ?_, ?_, h2.total.trans h1.total⟩
  · intro k hk
    rcases h2.pages hk with hk | hk
    · exact h1.pages hk
    · exact .inr (h1.only.free hk)
  · intro i hi hpres
    have heq := h1.top i hi hpres
    rw [h2.top i hi (heq ▸ hpres), heq]

def CurrentUsed (s : Mm) : Prop := ∀ c, s.current_pgd = some c → s.pmm.page_used (pageOf c) = true

theorem currentUsed_of_forest [WindowKind V] (hT : Forest V s {r}) (hpgd : s.current_pgd = some r) :
    CurrentUsed s := by
  intro c hc
  cases hpgd.symm.trans hc
  exact hT.used r rfl [] r WindowKind.nil (Nat.zero_le 3) rfl

theorem CurrentUsed.grow (h : CurrentUsed s) (hg : Grown V s s' r pages) : CurrentUsed s' := by
  intro c hc
  rw [hg.only.current_pgd] at hc
  exact hg.only.used _ (h c hc)

theorem Sees.grow (h : Sees V s r n) (hcur : CurrentUsed s) (hg : Grown V s s' r pages) :
    Sees V s' r n := by
  rcases h with hr | ⟨hn, c, hc, hshared⟩
  · exact .inl (hg.only.current_pgd.trans hr)
  · have hfree := not_free_of_used (hcur c hc)
    have hsame := hg.only.same _ hfree hshared.apart
    have htop := hg.top 402 (by omega) hshared.present
    refine .inr ⟨hn, c, hg.only.current_pgd.trans hc, hshared.aligned, fun hpage => ?_,
      htop ▸ hshared.present, ?_⟩
    · exact (hg.pages hpage).elim hshared.apart hfree
    · rw [hsame.table_get hshared.aligned (by omega), htop]
      exact hshared.entry

structure Taken (V : List Nat → Prop) (s s' : Mm) (r : BitVec 64) (n : Nat) (f : BitVec 64) : Prop where
  tables : Forest V s' {r}
  addr : pte_addr f = f
  was_free : pageOf f ∈ freePages s.pmm
  used : s'.pmm.page_used (pageOf f) = true
  apart : pageOf f ∉ pagesOn V s'.mem r
  leaf : leaf s'.mem r (windowPage n) = pageEntry f PTE_WRITABLE
  grown : Grown V s s' r (· = n)

def SameFrame (s s' : Mm) : Prop :=
  s'.pmm.pmm_pages_total = s.pmm.pmm_pages_total ∧ s'.current_pgd = s.current_pgd

theorem SameFrame.trans (h1 : SameFrame s s1) (h2 : SameFrame s1 s') : SameFrame s s' :=
  ⟨h2.1.trans h1.1, h2.2.trans h1.2⟩

theorem alloc_page_frame {t : BitVec 64} (h : alloc_page s = .ok (t, s')) : SameFrame s s' := by
  obtain ⟨i, -, ha⟩ := alloc_page_cases h
  exact ⟨ha.total, ha.current_pgd⟩

theorem ensure_table_frame {t u : BitVec 64} {i : Nat} (h : ensure_table s t i u = .ok s') :
    SameFrame s s' := by
  unfold ensure_table at h
  split_ifs at h
  · obtain ⟨⟨f, s1⟩, halloc, h⟩ := bind_ok.mp h
    cases h
    exact (alloc_page_frame halloc).trans ⟨rfl, rfl⟩
  · cases h
    exact ⟨rfl, rfl⟩

theorem arch_map_page_frame {virt : BitVec 64} (h : arch_map_page s virt phys flags = .ok s') :
    SameFrame s s' := by
  unfold arch_map_page at h
  split at h
  · cases h
    exact ⟨rfl, rfl⟩
  · obtain ⟨s1, h1, h⟩ := bind_ok.mp h
    obtain ⟨s2, h2, h⟩ := bind_ok.mp h
    obtain ⟨s3, h3, h⟩ := bind_ok.mp h
    cases h
    exact (ensure_table_frame h1).trans
      ((ensure_table_frame h2).trans ((ensure_table_frame h3).trans ⟨rfl, rfl⟩))

theorem alloc_page_grown [WindowKind V] (pages : Nat → Prop) (hT : Forest V s {r})
    (h : alloc_page s = .ok (f, s')) : Forest V s' {r} ∧ pagesOn V s'.mem r = pagesOn V s.mem r ∧
      Grown V s s' r pages := by
  have honly := (alloc_page_new h).only
  have hdisj : ∀ r' ∈ ({r} : Set (BitVec 64)), Disjoint (pagesOn V s.mem r') ∅ :=
    fun _ _ => Set.disjoint_empty _
  have hpages : pagesOn V s'.mem r = pagesOn V s.mem r := hT.pagesOn_only honly hdisj rfl
  refine ⟨hT.of_only honly hdisj, hpages, ?_, honly.mono (Set.empty_subset _), ?_, ?_,
    (alloc_page_frame h).1⟩
  · intro q j hq hqn hj _
    exact hT.slot_only honly hdisj rfl hq hqn hj
  · rw [hpages]
    exact Set.subset_union_left
  · intro i hi _
    exact hT.slot_only honly hdisj rfl WindowKind.nil (Nat.zero_le 3) hi

theorem map_window_root [WindowKind V] (hT : Forest V s {r})
    (hpgd : s.current_pgd = some r) (hn : n < windowPages) (hflags : has flags PTE_USER = false)
    (h : arch_map_page s (windowPage n) phys flags = .ok s') : Forest V s' {r} ∧
      leaf s'.mem r (windowPage n) = pageEntry phys flags ∧ Grown V s s' r (· = n) := by
  have hm := arch_map_page_spec hT rfl hpgd (WindowKind.window (V := V) n hn) h
  refine ⟨hm.tables, hm.leaf, ?_, hm.only, hm.pages_subset rfl, ?_, (arch_map_page_frame h).1⟩
  · intro q j hq hqn hj hoff
    exact hm.slots r rfl q j hq hqn hj fun h => hoff n hn rfl h.2
  · intro i hi hpres
    by_cases hon : i = pgd_index (windowPage n)
    · -- The entry is there already, and gets no user bit.
      subst hon
      have huser : userFlag flags = 0 := by simp [userFlag, hflags]
      have hentry := hm.path 0 (by omega)
      rw [huser] at hentry
      rcases hentry with ⟨-, he⟩ | ⟨habsent, -⟩
      · exact he.trans (by simp; rfl)
      · rw [show slot s.mem r (pathOf (windowPage n) 0) (indexOf (windowPage n) 0) =
          table_get s.mem r (pgd_index (windowPage n)) from rfl, hpres] at habsent
        cases habsent
    · apply hm.slots r rfl [] i WindowKind.nil (Nat.zero_le 3) hi
      rintro ⟨-, hpath⟩
      exact hon (List.singleton_inj.mp hpath)

theorem forest_reroot [PathKind V] (hT : Forest V s {r}) (c : BitVec 64) :
    Forest V (Vmalloc.reroot c s) {r} :=
  hT.of_mem rfl fun _ _ _ _ hused => hused

theorem map_window_spec [WindowKind V] (hT : Forest V s {r})
    (hsees : Sees V s r (n + 1)) (hn : n < windowPages) (hflags : has flags PTE_USER = false)
    (h : arch_map_page s (windowPage n) phys flags = .ok s') : Forest V s' {r} ∧
      leaf s'.mem r (windowPage n) = pageEntry phys flags ∧ Grown V s s' r (· = n) := by
  rcases hsees with hpgd | ⟨hlt, c, hpgd, hshared⟩
  · exact map_window_root hT hpgd hn hflags h
  · have hindex : pgd_index (windowPage n) = 402 := by
      rw [pgd_index_window hn]
      omega
    have h' := arch_map_page_reroot hpgd (hindex ▸ hshared.present) (hindex ▸ hshared.entry) hflags h
    obtain ⟨hT', hleaf, hg⟩ := map_window_root (forest_reroot hT r) rfl hn hflags h'
    -- The tables of the two states are the same bytes.
    have honly : Only (pagesOn V s.mem r) s s' :=
      ⟨hg.only.free, hg.only.used, hg.only.same, hg.only.cr3, (arch_map_page_frame h).2⟩
    exact ⟨hT'.of_mem rfl fun _ _ _ _ hused => hused, hleaf, hg.slots, honly, hg.pages,
      hg.top, hg.total⟩

theorem take_spec [WindowKind V] (hT : Forest V s {r}) (hsees : Sees V s r (n + 1))
    (hcur : CurrentUsed s) (hn : n < windowPages) (halloc : alloc_page s = .ok (f, s1))
    (hmap : arch_map_page s1 (windowPage n) f PTE_WRITABLE = .ok s') : Taken V s s' r n f := by
  have hnew := alloc_page_new halloc
  obtain ⟨hT1, hpages, hg1⟩ := alloc_page_grown (· = n) hT halloc
  obtain ⟨hT', hleaf, hg2⟩ := map_window_spec hT1 (hsees.grow hcur hg1) hn (by decide) hmap
  refine ⟨hT', hnew.addr, hnew.was_free, hg2.only.used _ (by simp [hnew.used]), ?_, hleaf,
    hg1.trans hg2⟩
  -- The frame is no table before the mapping, and not free for a new one.
  intro hpage
  rcases hg2.pages hpage with hpage | hfree
  · rw [hpages] at hpage
    obtain ⟨q, x, hq, hqn, hx, heq⟩ := hpage
    exact hT.not_free rfl hq hqn hx (heq ▸ hnew.was_free)
  · rw [Finset.mem_coe, hnew.free_eq] at hfree
    exact (Finset.mem_erase.mp hfree).1 rfl

/-! ## One page less -/

structure Backing (V : List Nat → Prop) (s : Mm) (r f : BitVec 64) : Prop where
  addr : pte_addr f = f
  lt : pageOf f < s.pmm.pmm_pages_total
  used : s.pmm.page_used (pageOf f) = true
  apart : pageOf f ∉ pagesOn V s.mem r

structure GivenBack (V : List Nat → Prop) (s s' : Mm) (r : BitVec 64) (n : Nat) (f : BitVec 64) :
  Prop where
  tables : Forest V s' {r}
  leaf : leaf s'.mem r (windowPage n) = 0
  slots : SlotsOff V s s' r (· = n)
  pages : pagesOn V s'.mem r = pagesOn V s.mem r
  top : ∀ i < 512, table_get s'.mem r i = table_get s.mem r i
  used : ∀ k, s'.pmm.page_used k = (decide (k ≠ pageOf f) && s.pmm.page_used k)
  total : s'.pmm.pmm_pages_total = s.pmm.pmm_pages_total
  same : ∀ k ∉ pagesOn V s.mem r, SamePage s.mem s'.mem k
  cr3 : s'.cr3 = s.cr3
  current_pgd : s'.current_pgd = s.current_pgd

theorem free_page_frame (s : Mm) (phys : BitVec 64) : (free_page s phys).mem = s.mem ∧
    (free_page s phys).cr3 = s.cr3 ∧ (free_page s phys).current_pgd = s.current_pgd := by
  unfold free_page
  dsimp only
  split_ifs <;> exact ⟨rfl, rfl, rfl⟩

theorem free_page_used (hlt : pageOf f < s.pmm.pmm_pages_total)
    (hused : s.pmm.page_used (pageOf f) = true) :
    (∀ k, (free_page s f).pmm.page_used k = (decide (k ≠ pageOf f) && s.pmm.page_used k)) ∧
      (free_page s f).pmm.pmm_pages_total = s.pmm.pmm_pages_total := by
  have htotal := s.pmm.total_le
  simp only [MAX_PHYS_PAGES] at htotal
  have hpage : u32 (f.toNat / PAGE_SIZE) = pageOf f := by
    unfold pageOf at hlt
    exact u32_of_lt (by simp only [PAGE_SIZE]; omega)
  unfold free_page
  simp only [hpage, hused, ge_iff_le, Nat.not_le.mpr hlt, if_true, if_false]
  refine ⟨fun k => ?_, rfl⟩
  rw [← page_used_clear_bit]
  exact page_used_congr rfl k

theorem walk_window_spec [WindowKind V] (hT : Forest V s {r}) (hsees : Sees V s r (n + 1))
    (hn : n < windowPages) :
    walk_page_table s (windowPage n) =
      (node s.mem r (pathOf (windowPage n) 3)).map fun t => t.toNat + 8 * pte_index
        (windowPage n) := by
  have hv := WindowKind.window (V := V) n hn
  rcases hsees with hpgd | ⟨hlt, c, hpgd, hshared⟩
  · exact walk_page_table_spec hT rfl hpgd hv
  · have hindex : pgd_index (windowPage n) = 402 := by
      rw [pgd_index_window hn]
      omega
    rw [walk_page_table_reroot hpgd (hindex ▸ hshared.entry)]
    exact walk_page_table_spec (forest_reroot hT r) rfl rfl hv

theorem vfree_page_eq [WindowKind V] (hT : Forest V s {r}) (hsees : Sees V s r (n + 1))
    (hn : n < windowPages) (hpres : has (leaf s.mem r (windowPage n)) PTE_PRESENT = true) :
    ∃ t, node s.mem r (pathOf (windowPage n) 3) = some t ∧ vfree_page s (windowPage n) =
      table_set (free_page s (pte_addr (leaf s.mem r (windowPage n)))) t
        (indexOf (windowPage n) 3) 0 := by
  cases ht : node s.mem r (pathOf (windowPage n) 3) with
  | none =>
    rw [leaf, slot_of_none ht, zero_has] at hpres
    cases hpres
  | some t =>
    refine ⟨t, rfl, ?_⟩
    have hleaf : leaf s.mem r (windowPage n) = read64 s.mem (t.toNat + 8 * pte_index (windowPage n)) :=
      slot_of_node ht _
    rw [hleaf] at hpres ⊢
    unfold vfree_page
    rw [walk_window_spec hT hsees hn, ht]
    simp only [Option.map_some, hpres, if_true]
    rfl

theorem give_back_spec [WindowKind V] (hT : Forest V s {r}) (hsees : Sees V s r (n + 1))
    (hn : n < windowPages) (hleaf : leaf s.mem r (windowPage n) = pageEntry f PTE_WRITABLE)
    (hf : Backing V s r f) : GivenBack V s (vfree_page s (windowPage n)) r n f := by
  have hv := WindowKind.window (V := V) n hn
  have hpath := PathKind.snoc hv (le_refl 3)
  have hpres : has (leaf s.mem r (windowPage n)) PTE_PRESENT = true := hleaf ▸ pageEntry_present f _
  have haddr : pte_addr (leaf s.mem r (windowPage n)) = f := by
    rw [hleaf, pageEntry_addr f (by decide), hf.addr]
  obtain ⟨t, ht, heq⟩ := vfree_page_eq hT hsees hn hpres
  rw [haddr] at heq
  rw [heq]
  obtain ⟨hmem, hcr3, hcurrent⟩ := free_page_frame s f
  obtain ⟨hused, htotal⟩ := free_page_used hf.lt hf.used
  -- The freed frame holds no table, so the tables stay in use.
  have hT' : Forest V (free_page s f) {r} := by
    apply hT.of_mem hmem
    rintro r' rfl k hk hkused
    rw [hused, hkused, Bool.and_true, decide_eq_true_eq]
    rintro rfl
    exact hf.apart hk
  have ht' : node (free_page s f).mem r (pathOf (windowPage n) 3) = some t := by rw [hmem, ht]
  have hput := put_leaf hT' rfl hpath (by simp) ht' 0
  have hslots : SlotsOff V s (table_set (free_page s f) t (indexOf (windowPage n) 3) 0) r (· = n) := by
    intro q j hq hqn hj hoff
    rw [hput.slots r rfl q j hq hqn hj, if_neg, hmem]
    rintro ⟨-, rfl, rfl⟩
    exact hoff n hn rfl (by rw [pathOf_length, pathOf_four])
  refine ⟨hput.tables, ?_, hslots, ?_, ?_, hused, htotal, ?_, hcr3, hcurrent⟩
  · exact (hput.slots r rfl _ _ (PathKind.init hpath) (by simp) (PathKind.index_lt hpath)).trans
      (if_pos ⟨rfl, rfl, rfl⟩)
  · -- The write is at the last level, so all tables are where they were.
    apply pagesOn_congr
    intro q hq hqn
    apply node_of_slots _ hq hqn
    intro p i hp hpn
    rw [hput.slots r rfl p i (PathKind.init hp) (by omega) (PathKind.index_lt hp), if_neg, hmem]
    rintro ⟨-, rfl, -⟩
    simp at hpn
  · intro i hi
    refine (hput.slots r rfl [] i WindowKind.nil (Nat.zero_le 3) hi).trans ?_
    rw [if_neg (fun h => by simpa using congrArg List.length h.2.1), hmem]
    rfl
  · intro k hk
    rw [← hmem]
    apply samePage_table_set _ _ (hT.node_aligned rfl ht) (PathKind.index_lt hpath)
    rintro rfl
    exact hk ⟨_, t, PathKind.init hpath, by simp, ht, rfl⟩

theorem Sees.give_back {k : Nat} (h : Sees V s r k) (hg : GivenBack V s s' r n f) :
    Sees V s' r k := by
  rcases h with hr | ⟨hn, c, hc, hshared⟩
  · exact .inl (hg.current_pgd.trans hr)
  · have hsame := hg.same _ hshared.apart
    have htop := hg.top 402 (by omega)
    refine .inr ⟨hn, c, hg.current_pgd.trans hc, hshared.aligned, hg.pages ▸ hshared.apart,
      htop ▸ hshared.present, ?_⟩
    rw [hsame.table_get hshared.aligned (by omega), htop]
    exact hshared.entry

end Relis.Vmalloc
