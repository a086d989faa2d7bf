import Relis.Paging.Levels
import Relis.Vmalloc.Run

/-!
# The kernel half of all address spaces

All spaces reach the window for `vmalloc` through the same tables, and no call writes to the
upper half of a root.
-/

open Relis.Bytes Relis.Run Relis.Code Relis.PageAlloc Relis.Paging Relis.Slab

namespace Relis.Vmalloc

/-! ## The calls -/

structure Spaces where
  vm : Vm
  spaces : List (BitVec 64)
  live : List (BitVec 64 × Nat)

inductive WindowOp
  | space (op : SpaceOp)
  | arch_map_page (virt phys flags : BitVec 64)
  | vmalloc (size : BitVec 64)
  | vfree (ptr : BitVec 64)

def InWindow (v : BitVec 64) : Prop := VMALLOC_START.toNat ≤ v.toNat ∧ v.toNat < VMALLOC_END.toNat

instance (v : BitVec 64) : Decidable (InWindow v) := inferInstanceAs (Decidable (_ ∧ _))

/-- Spaces that were made before, kernel pages of the window, and pages of the user half. -/
def WindowOp.Legal (t : Spaces) : WindowOp → Prop
  | .space (.switch_address_space cr3) => cr3 ∈ t.spaces
  | .arch_map_page virt _ flags => (InWindow virt ∧ has flags PTE_USER = false) ∨ UserHalf virt
  | .vmalloc size => t.vm.vmalloc_ptr.toNat + 4096 * pages_needed size ≤ VMALLOC_END.toNat
  | _ => True

instance (t : Spaces) : (op : WindowOp) → Decidable (op.Legal t)
  | .space (.switch_address_space cr3) => inferInstanceAs (Decidable (cr3 ∈ t.spaces))
  | .arch_map_page virt _ flags =>
    inferInstanceAs (Decidable ((InWindow virt ∧ has flags PTE_USER = false) ∨ UserHalf virt))
  | .vmalloc _ => inferInstanceAs (Decidable (_ ≤ _))
  | .space .create_new_address_space | .space .clone_address_space | .vfree _ => isTrue trivial

def WindowOp.call (t : Spaces) : WindowOp → Except Halt Spaces
  | .space op => do
    let (mm, spaces) ← op.call t.vm.mm t.spaces
    return { t with vm := { t.vm with mm := mm }, spaces := spaces }
  | .arch_map_page virt phys flags => do
    let mm ← Code.arch_map_page t.vm.mm virt phys flags
    return { t with vm := { t.vm with mm := mm } }
  | .vmalloc size => do
    let (ptr, k) ← Code.vmalloc t.vm size
    return { t with vm := k, live := if size = 0 then t.live else (ptr, pages_needed size) :: t.live }
  | .vfree ptr => do
    let k ← Code.vfree t.vm ptr
    return { t with vm := k, live := t.live.filter (·.1 ≠ ptr) }

def WindowOp.step (t : Spaces) (op : WindowOp) : Except Halt Spaces :=
  if op.Legal t then op.call t else .error .null_object

/-- No page of a live pointer is mapped to something else. -/
def WindowOp.Careful (t : Spaces) : WindowOp → Prop
  | .arch_map_page virt _ _ => ∀ x ∈ t.live, ¬ InRange x virt
  | _ => True

instance (t : Spaces) : (op : WindowOp) → Decidable (op.Careful t)
  | .arch_map_page virt _ _ => inferInstanceAs (Decidable (∀ x ∈ t.live, ¬ InRange x virt))
  | .space _ | .vmalloc _ | .vfree _ => isTrue trivial

def WindowOp.carefulStep (t : Spaces) (op : WindowOp) : Except Halt Spaces :=
  if op.Careful t then op.step t else .error .null_object

/-! ## The tables of the window -/

def WindowPath : List Nat → Prop
  | [] => True
  | i :: p => 402 ≤ i ∧ i < 511 ∧ ∀ j ∈ p, j < 512

instance : WindowKind WindowPath where
  of_prefix := by
    rintro p q ⟨x, rfl⟩ hq
    cases p with
    | nil => trivial
    | cons i p => exact ⟨hq.1, hq.2.1, fun j hj => hq.2.2 j (List.mem_append_left _ hj)⟩
  last_lt := by
    intro p i h
    cases p with
    | nil => exact h.2.1.trans (by omega)
    | cons j p => exact h.2.2 i (by simp)
  window := by
    intro n hn
    have hfirst := pgd_index_window hn
    unfold windowPages at hn
    refine ⟨?_, ?_, ?_⟩
    · change 402 ≤ pgd_index (windowPage n)
      omega
    · change pgd_index (windowPage n) < 511
      omega
    · intro j hj
      obtain ⟨d, -, rfl⟩ := List.mem_map.mp hj
      exact indexOf_lt _ _

theorem WindowPath.small {p : List Nat} (h : WindowPath p) : SmallPath p := by
  cases p with
  | nil => exact ⟨by simp, by simp, by simp⟩
  | cons i p =>
    obtain ⟨hlo, hhi, hrest⟩ := h
    refine ⟨?_, ?_, fun j => ⟨?_, ?_⟩⟩
    · intro j hj
      rcases List.mem_cons.mp hj with rfl | hj
      · omega
      · exact hrest j hj
    · rw [List.cons_prefix_cons]
      omega
    · rw [List.cons_prefix_cons]
      omega
    · rw [List.cons_prefix_cons]
      omega

variable {s s' : Mm} {b r t : BitVec 64} {L L' : Nat → Set Nat} {spaces : List (BitVec 64)} {n : Nat}

/-- A table of the window other than the root is no user table. -/
def Apart (s : Mm) (b : BitVec 64) (L : Nat → Set Nat) : Prop :=
  ∀ k ∈ pagesOn WindowPath s.mem b, k ≠ pageOf b → ∀ d, k ∉ L d

structure Roots (s : Mm) (spaces : List (BitVec 64)) (b : BitVec 64) (L : Nat → Set Nat) : Prop where
  typed : Typed levels s L
  tables : Forest WindowPath s {b}
  apart : Apart s b L
  boot : b ∈ spaces
  root : ∀ r ∈ spaces, pte_addr r = r ∧ pageOf r ∈ L 0
  kernel : ∀ r ∈ spaces, ∀ i, 256 ≤ i → i < 512 → table_get s.mem r i = table_get s.mem b i
  window : has (table_get s.mem b 402) PTE_PRESENT = true
  current : ∃ c ∈ spaces, s.cr3 = c ∧ s.current_pgd = some c

theorem Roots.aligned (h : Roots s spaces b L) (hr : r ∈ spaces) : Aligned r :=
  (h.root r hr).1 ▸ addr_aligned r

theorem Roots.currentUsed (h : Roots s spaces b L) : CurrentUsed s := by
  obtain ⟨c, hc, -, hpgd⟩ := h.current
  intro c' hc'
  cases hpgd.symm.trans hc'
  exact h.typed.used 0 _ (h.root c hc).2

theorem Roots.sees (h : Roots s spaces b L) (hn : n ≤ 134217728) : Sees WindowPath s b n := by
  obtain ⟨c, hc, -, hpgd⟩ := h.current
  by_cases hcb : c = b
  · exact .inl (hcb ▸ hpgd)
  · refine .inr ⟨hn, c, hpgd, h.aligned hc, fun hpage => ?_, h.window,
      h.kernel c hc 402 (by omega) (by omega)⟩
    refine h.apart _ hpage (fun heq => hcb ?_) 0 (h.root c hc).2
    exact pageOf_inj (h.aligned hc) (h.aligned h.boot) heq

theorem Roots.keep (h : Roots s spaces b L) (htyped : Typed levels s' L')
    (htables : Forest WindowPath s' {b}) (hapart : Apart s' b L') (hmono : ∀ d, L d ⊆ L' d)
    (hkernel : ∀ r ∈ spaces, ∀ i, 256 ≤ i → i < 512 → table_get s'.mem r i = table_get s.mem r i)
    (hcr3 : s'.cr3 = s.cr3) (hpgd : s'.current_pgd = s.current_pgd) : Roots s' spaces b L' := by
  refine ⟨htyped, htables, hapart, h.boot, fun r hr =>
    ⟨(h.root r hr).1, hmono 0 (h.root r hr).2⟩, ?_, ?_, ?_⟩
  · intro r hr i hlo hhi
    rw [hkernel r hr i hlo hhi, hkernel b h.boot i hlo hhi, h.kernel r hr i hlo hhi]
  · rw [hkernel b h.boot 402 (by omega) (by omega)]
    exact h.window
  · obtain ⟨c, hc, hcr3', hpgd'⟩ := h.current
    exact ⟨c, hc, hcr3.trans hcr3', hpgd.trans hpgd'⟩

theorem Roots.add (h : Roots s spaces b L) (hroot : pageOf r ∈ L 0) (haddr : pte_addr r = r)
    (hupper : ∀ i, 256 ≤ i → i < 512 → table_get s.mem r i = table_get s.mem b i) :
    Roots s (r :: spaces) b L := by
  obtain ⟨c, hc, hcur⟩ := h.current
  refine ⟨h.typed, h.tables, h.apart, List.mem_cons_of_mem _ h.boot, ?_, ?_, h.window,
    c, List.mem_cons_of_mem _ hc, hcur⟩
  · rintro x hx
    rcases List.mem_cons.mp hx with rfl | hx
    · exact ⟨haddr, hroot⟩
    · exact h.root x hx
  · rintro x hx
    rcases List.mem_cons.mp hx with rfl | hx
    · exact hupper
    · exact h.kernel x hx

/-! ## Steps on the user half -/

theorem TypedStep.sameOn (hstep : TypedStep levels s s' L L') (hT : Forest WindowPath s {b})
    (hapart : Apart s b L) (hb : pageOf b ∈ L 0) : SameOn WindowPath s.mem s'.mem b := by
  intro p i t hp hn ht
  have haligned := hT.node_aligned rfl ht
  have hfree := hT.not_free rfl (PathKind.init hp) hn ht
  by_cases htb : pageOf t = pageOf b
  · -- Only the root itself lies in its frame.
    obtain rfl := pageOf_inj haligned (hT.aligned b rfl) htb
    obtain ⟨-, rfl⟩ := hT.unshared t rfl t rfl p [] t (PathKind.init hp) trivial hn (by simp) ht rfl
    exact hstep.kernel haligned hb i (hp.1.trans' (by omega)) (hp.2.1.trans (by omega))
  · have hpage : pageOf t ∈ pagesOn WindowPath s.mem b := ⟨p, t, PathKind.init hp, hn, ht, rfl⟩
    exact (hstep.same _ hfree (hapart _ hpage htb)).table_get haligned (PathKind.index_lt hp)

theorem Roots.sameOn (h : Roots s spaces b L) (hstep : TypedStep levels s s' L L') :
    SameOn WindowPath s.mem s'.mem b :=
  TypedStep.sameOn hstep h.tables h.apart (h.root b h.boot).2

theorem Roots.level (h : Roots s spaces b L) (hstep : TypedStep levels s s' L L') :
    Roots s' spaces b L' := by
  have hsame := h.sameOn hstep
  refine h.keep hstep.typed ?_ ?_ hstep.mono ?_ hstep.cr3 hstep.current_pgd
  · apply SameOn.forest h.tables _ fun _ _ k _ => hstep.used k
    rintro r rfl
    exact hsame
  · intro k hk hne d hmem
    rw [hsame.pagesOn] at hk
    rcases hstep.fresh d k hmem with hmem | hfree
    · exact h.apart k hk hne d hmem
    · obtain ⟨q, x, hq, hn, hx, rfl⟩ := hk
      exact h.tables.not_free rfl hq hn hx hfree
  · intro r hr
    exact hstep.kernel (h.aligned hr) (h.root r hr).2

theorem Roots.new_root (h : Roots s spaces b L) (hstep : RootStep levels s s' L L' r) :
    Roots s' (r :: spaces) b L' := by
  have h' := h.level hstep.toTypedStep
  refine h'.add hstep.root hstep.addr fun i hlo hhi => ?_
  obtain ⟨c, hc, hcr3, -⟩ := h.current
  rw [hstep.top i hhi (levels_not_covers hlo), hcr3, (h.root c hc).1, h.kernel c hc i hlo hhi,
    hstep.kernel (h.aligned h.boot) (h.root b h.boot).2 i hlo hhi]

/-! ## Steps on the window -/

theorem Apart.not_mem {d k : Nat} (h : Apart s b L) (hk : k ∈ L d) (hne : k ≠ pageOf b) :
    k ∉ pagesOn WindowPath s.mem b :=
  fun hpage => h k hpage hne d hk

variable {pages : Nat → Prop}

theorem Apart.grow (h : Apart s b L) (hT : Typed levels s L) (hg : Grown WindowPath s s' b pages) :
    Apart s' b L := by
  intro k hk hne d hmem
  rcases hg.pages hk with hk | hk
  · exact h k hk hne d hmem
  · exact hT.not_free hmem hk

theorem typed_window (hT : Typed levels s L) (hb : Aligned b) (hroot : pageOf b ∈ L 0)
    (hapart : Apart s b L) (hused : ∀ d, ∀ k ∈ L d, s'.pmm.page_used k = true)
    (htop : ∀ i < 256, table_get s'.mem b i = table_get s.mem b i)
    (hsame : ∀ k ∉ freePages s.pmm, k ∉ pagesOn WindowPath s.mem b → SamePage s.mem s'.mem k) :
    Typed levels s' L := by
  apply hT.of_entries hused
  intro d hd t ht hmem i hi
  by_cases htb : pageOf t = pageOf b
  · obtain rfl := pageOf_inj ht hb htb
    obtain rfl := hT.apart d 0 _ hmem hroot
    exact htop i hi
  · exact (hsame _ (hT.not_free hmem) (hapart.not_mem hmem htb)).table_get ht (levels.covers_lt hi)

theorem Roots.window_step (h : Roots s spaces b L) (hT : Forest WindowPath s' {b})
    (hapart : Apart s' b L) (hused : ∀ d, ∀ k ∈ L d, s'.pmm.page_used k = true)
    (htop : ∀ i < 512, table_get s'.mem b i = table_get s.mem b i)
    (hsame : ∀ k ∉ freePages s.pmm, k ∉ pagesOn WindowPath s.mem b → SamePage s.mem s'.mem k)
    (hcr3 : s'.cr3 = s.cr3) (hpgd : s'.current_pgd = s.current_pgd) : Roots s' spaces b L := by
  have hb := h.aligned h.boot
  refine h.keep ?_ hT hapart (fun _ _ hk => hk) ?_ hcr3 hpgd
  · exact typed_window h.typed hb (h.root b h.boot).2 h.apart hused
      (fun i hi => htop i (by omega)) hsame
  · intro r hr i hlo hhi
    have hroot := (h.root r hr).2
    by_cases hrb : pageOf r = pageOf b
    · obtain rfl := pageOf_inj (h.aligned hr) hb hrb
      exact htop i hhi
    · exact (hsame _ (h.typed.not_free hroot) (h.apart.not_mem hroot hrb)).table_get
        (h.aligned hr) hhi

theorem Grown.get_top {i x : Nat} (hg : Grown WindowPath s s' b pages)
    (hpages : ∀ n, pages n → n / 134217728 = x) (hi : i < 512) (hx : i ≠ 402 + x) :
    table_get s'.mem b i = table_get s.mem b i := by
  apply hg.slots [] i trivial (by simp) hi
  intro n hn hp heq
  have hindex : i = pgd_index (windowPage n) := List.singleton_inj.mp heq
  rw [pgd_index_window hn, hpages n hp] at hindex
  exact hx hindex

theorem Roots.grow (h : Roots s spaces b L) (hT : Forest WindowPath s' {b})
    (hg : Grown WindowPath s s' b pages) (hpages : ∀ n, pages n → n < 262144) :
    Roots s' spaces b L := by
  refine h.window_step hT (h.apart.grow h.typed hg) ?_ ?_ hg.only.same hg.only.cr3 hg.only.current_pgd
  · exact fun d k hk => hg.only.used k (h.typed.used d k hk)
  · intro i hi
    by_cases hi402 : i = 402
    · rw [hi402]
      exact hg.top 402 (by omega) h.window
    · apply Grown.get_top (x := 0) hg _ hi hi402
      intro n hn
      have := hpages n hn
      omega

theorem Roots.returned {a : Area} (h : Roots s spaces b L)
    (hret : Returned WindowPath s s' b a a.frames.length)
    (hframes : ∀ f ∈ a.frames, ∀ d, pageOf f ∉ L d) : Roots s' spaces b L := by
  refine h.window_step hret.tables ?_ ?_ hret.top (fun k _ => hret.same k) hret.cr3 hret.current_pgd
  · unfold Apart
    rw [hret.pages]
    exact h.apart
  · intro d k hk
    refine (hret.used k).mpr ⟨h.typed.used d k hk, ?_⟩
    rintro f hf rfl
    exact hframes f (List.mem_of_mem_take hf) d hk

/-! ## One call -/

structure Agree (t : Spaces) (b : BitVec 64) (n : Nat) (areas : List Area) (L : Nat → Set Nat) :
  Prop where
  roots : Roots t.vm.mm t.spaces b L
  mapping : Mapping WindowPath t.vm.mm b n areas
  records : Records t.vm areas
  vmalloc_ptr : t.vm.vmalloc_ptr = windowPage n
  fits : n ≤ 262144
  frames : ∀ a ∈ areas, ∀ f ∈ a.frames, ∀ d, pageOf f ∉ L d
  live : ∀ a ∈ areas, a.frames ≠ [] → a.range ∈ t.live

variable {u u' : Spaces} {areas : List Area} {a : Area} {mm : Mm}

theorem Agree.le_windowPages (h : Agree u b n areas L) : n ≤ windowPages := by
  have hfits := h.fits
  unfold windowPages
  omega

theorem Agree.level (h : Agree u b n areas L) (hstep : TypedStep levels u.vm.mm mm L L')
    (hroots : Roots mm spaces b L') :
    Agree ⟨{ u.vm with mm := mm }, spaces, u.live⟩ b n areas L' := by
  have hsame := h.roots.sameOn hstep
  refine ⟨hroots, h.mapping.of_sameOn h.le_windowPages hsame hstep.used hstep.total,
    h.records.of_same rfl rfl rfl, h.vmalloc_ptr, h.fits, ?_, h.live⟩
  intro a ha f hf d hmem
  rcases hstep.fresh d _ hmem with hmem | hfree
  · exact h.frames a ha f hf d hmem
  · exact not_free_of_used (h.mapping.backing a ha f hf).used hfree

theorem Agree.switch {c : BitVec 64} (h : Agree u b n areas L) (hc : c ∈ u.spaces) :
    Agree ⟨{ u.vm with mm := switch_address_space u.vm.mm c }, u.spaces, u.live⟩ b n areas L := by
  have hr := h.roots
  have hT : Forest WindowPath (switch_address_space u.vm.mm c) {b} :=
    hr.tables.of_mem rfl fun _ _ _ _ hused => hused
  refine ⟨⟨hr.typed.congr rfl rfl, hT, hr.apart, hr.boot, hr.root, hr.kernel, hr.window,
    c, hc, rfl, ?_⟩, ?_, h.records.of_same rfl rfl rfl, h.vmalloc_ptr, h.fits, h.frames, h.live⟩
  · change some (pte_addr c) = some c
    rw [(hr.root c hc).1]
  · have hm := h.mapping
    exact ⟨hT, hm.order, hm.below, hm.nodup, hm.mapped, fun a ha f hf =>
      ⟨(hm.backing a ha f hf).addr, (hm.backing a ha f hf).lt, (hm.backing a ha f hf).used,
        (hm.backing a ha f hf).apart⟩⟩

theorem window_page {v : BitVec 64} (h : InWindow v) :
    ∃ k < 262144, pathOf v 4 = pathOf (windowPage k) 4 ∧ v.toNat / 4096 = 0xFFFFC90000000 + k := by
  have hstart : VMALLOC_START.toNat = 0xFFFFC90000000000 := rfl
  have hend : VMALLOC_END.toNat = 0xFFFFC90040000000 := rfl
  obtain ⟨hlo, hhi⟩ := h
  have hlt : (v.toNat - 0xFFFFC90000000000) / 4096 < 262144 := by omega
  have hwin : (v.toNat - 0xFFFFC90000000000) / 4096 < windowPages := hlt.trans (by decide)
  refine ⟨_, hlt, ?_, by omega⟩
  rw [path_window_iff (.inr (by omega)) hwin, toNat_windowPage hwin]
  omega

theorem Agree.map_window {virt phys flags : BitVec 64} (h : Agree u b n areas L) (hv : InWindow virt)
    (hflags : has flags PTE_USER = false) (hcareful : ∀ x ∈ u.live, ¬ InRange x virt)
    (hmap : arch_map_page u.vm.mm virt phys flags = .ok mm) :
    Agree ⟨{ u.vm with mm := mm }, u.spaces, u.live⟩ b n areas L := by
  obtain ⟨k, hk, hpath, hpage⟩ := window_page hv
  have hwin : k < windowPages := hk.trans (by decide)
  rw [arch_map_page_path _ _ _ hpath] at hmap
  obtain ⟨hT, -, hg⟩ := map_window_spec h.mapping.tables (h.roots.sees (by omega)) hwin hflags hmap
  refine ⟨h.roots.grow hT hg (by omega), h.mapping.grow h.le_windowPages hT hg ?_,
    h.records.of_same rfl rfl rfl, h.vmalloc_ptr, h.fits, h.frames, h.live⟩
  -- A page of an area is a page of a live pointer.
  rintro a ha j ⟨hlo, hhi⟩ rfl
  unfold Area.stop at hhi
  have hne : a.frames ≠ [] := by
    rintro hnil
    rw [hnil, List.length_nil] at hhi
    omega
  apply hcareful _ (h.live a ha hne)
  unfold InRange Area.range
  dsimp only
  rw [toNat_windowPage (by omega)]
  omega

theorem Agree.vmalloc {size ptr : BitVec 64} {k : Vm} (h : Agree u b n areas L) (hsize : size ≠ 0)
    (hfit : u.vm.vmalloc_ptr.toNat + 4096 * pages_needed size ≤ VMALLOC_END.toNat)
    (hv : Code.vmalloc u.vm size = .ok (ptr, k)) :
    ∃ n' areas', Agree ⟨k, u.spaces, (ptr, pages_needed size) :: u.live⟩ b n' areas' L := by
  have hfits := h.fits
  have hend : VMALLOC_END.toNat = 0xFFFFC90040000000 := rfl
  rw [h.vmalloc_ptr, toNat_windowPage (by unfold windowPages; omega), hend] at hfit
  obtain ⟨rfl, a, hlen, hvm⟩ := vmalloc_spec h.mapping h.records (h.roots.sees (by omega))
    h.roots.currentUsed
    h.vmalloc_ptr (by unfold windowPages; omega) hsize hv
  have hstop : a.stop = n + pages_needed size := by rw [Area.stop, hvm.first, hlen]
  have hroots : Roots k.mm u.spaces b L := by
    apply h.roots.grow hvm.mapping.tables hvm.grown
    rintro j ⟨-, hj⟩
    omega
  have hframes : ∀ c ∈ a :: areas, ∀ f ∈ c.frames, ∀ d, pageOf f ∉ L d := by
    intro c hc f hf d hmem
    rcases List.mem_cons.mp hc with rfl | hc
    · exact h.roots.typed.not_free hmem (hvm.fresh f hf)
    · exact h.frames c hc f hf d hmem
  have hlive : ∀ c ∈ a :: areas, c.frames ≠ [] →
      c.range ∈ (windowPage n, pages_needed size) :: u.live := by
    intro c hc hne
    rcases List.mem_cons.mp hc with rfl | hc
    · rw [Area.range, hvm.first, hlen]
      exact List.mem_cons_self
    · exact List.mem_cons_of_mem _ (h.live c hc hne)
  have hsub : ∀ c ∈ areas, c ∈ a :: areas := fun c hc => List.mem_cons_of_mem _ hc
  rcases hvm.records with ⟨-, -, hrec⟩ | ⟨-, -, hrec⟩
  · exact ⟨a.stop, areas, hroots, hvm.mapping.sublist (List.sublist_cons_self a areas), hrec,
      hvm.vmalloc_ptr, by omega, fun c hc => hframes c (hsub c hc), fun c hc => hlive c (hsub c hc)⟩
  · exact ⟨a.stop, a :: areas, hroots, hvm.mapping, hrec, hvm.vmalloc_ptr, by omega, hframes, hlive⟩

theorem Agree.vfree {ptr : BitVec 64} {k : Vm} (h : Agree u b n areas L)
    (hv : Code.vfree u.vm ptr = .ok k) :
    ∃ areas', Agree ⟨k, u.spaces, u.live.filter (·.1 ≠ ptr)⟩ b n areas' L := by
  have hwin := h.le_windowPages
  have hkeep : ∀ c ∈ areas, c.frames ≠ [] → windowPage c.first ≠ ptr →
      c.range ∈ u.live.filter (·.1 ≠ ptr) := fun c hc hne hptr => List.mem_filter.mpr
    ⟨h.live c hc hne, decide_eq_true hptr⟩
  have hfirst : ∀ c ∈ areas, c.first < windowPages := by
    intro c hc
    have hbelow : c.first + c.frames.length ≤ n := h.mapping.below c hc
    have hfits := h.fits
    unfold windowPages
    omega
  by_cases hzero : ptr = 0
  · subst hzero
    cases (vfree_zero u.vm).symm.trans hv
    exact ⟨areas, h.roots, h.mapping, h.records, h.vmalloc_ptr, h.fits, h.frames,
      fun c hc hne => hkeep c hc hne (windowPage_ne_zero (hfirst c hc))⟩
  cases hfind : findArea areas ptr with
  | none =>
    cases (vfree_none h.records hfind).symm.trans hv
    refine ⟨areas, h.roots, h.mapping, h.records, h.vmalloc_ptr, h.fits, h.frames,
      fun c hc hne => hkeep c hc hne ?_⟩
    simpa using List.find?_eq_none.mp hfind c hc
  | some a =>
    obtain ⟨A, B, k', rfl, hbefore, hptr, hv', hrec, hmm, -, hvptr⟩ := vfree_some h.records
      (fun _ => h.mapping.length_le) hzero hfind
    cases hv'.symm.trans hv
    have hmem : a ∈ A ++ a :: B := by simp
    have hsub : ∀ c ∈ A ++ B, c ∈ A ++ a :: B :=
      fun c hc => ((List.sublist_cons_self a B).append_left A).subset hc
    have hret := h.mapping.returned hmem (h.roots.sees (by have := h.fits; omega)) hwin (le_refl _)
    rw [← hmm] at hret
    refine ⟨A ++ B, h.roots.returned hret (h.frames a hmem), h.mapping.remove hwin hret, hrec,
      hvptr.trans h.vmalloc_ptr, h.fits, fun c hc => h.frames c (hsub c hc), fun c hc hne => ?_⟩
    refine hkeep c (hsub c hc) hne fun heq => ?_
    -- The areas before `a` have other pointers, and those behind it end before it begins.
    rcases List.mem_append.mp hc with hcA | hcB
    · exact hbefore c hcA heq
    · obtain ⟨-, hB, -⟩ := List.pairwise_append.mp h.mapping.order
      have hstop := (List.pairwise_cons.mp hB).1 c hcB
      have hsame := windowPage_inj (hfirst c (hsub c hc)) (hfirst a hmem) (heq.trans hptr.symm)
      have hpos := List.length_pos_of_ne_nil hne
      unfold Area.stop at hstop
      omega

theorem agree_step {op : WindowOp} (h : ∃ n areas L, Agree u b n areas L)
    (hstep : op.carefulStep u = .ok u') : ∃ n areas L, Agree u' b n areas L := by
  obtain ⟨n, areas, L, h⟩ := h
  obtain ⟨c, hc, hcr3, hpgd⟩ := h.roots.current
  obtain ⟨haddr, hroot⟩ := h.roots.root c hc
  have hcurrent : pageOf (pte_addr u.vm.mm.cr3) ∈ L 0 := by rwa [hcr3, haddr]
  unfold WindowOp.carefulStep WindowOp.step at hstep
  split_ifs at hstep with hcareful hlegal
  rcases op with op | ⟨virt, phys, flags⟩ | size | ptr
  · obtain ⟨⟨mm, spaces⟩, hcall, hstep⟩ := bind_ok.mp hstep
    cases hstep
    rcases op with _ | _ | cr3
    · obtain ⟨⟨r, mm⟩, hcreate, hcall⟩ := bind_ok.mp hcall
      cases hcall
      obtain ⟨L', hnew⟩ := create_new_address_space_typed h.roots.typed hcurrent hcreate
      exact ⟨n, areas, L', h.level hnew.toTypedStep (h.roots.new_root hnew)⟩
    · obtain ⟨⟨r, mm⟩, hclone, hcall⟩ := bind_ok.mp hcall
      cases hcall
      obtain ⟨L', hnew⟩ := clone_address_space_typed h.roots.typed hcurrent hclone
      exact ⟨n, areas, L', h.level hnew.toTypedStep (h.roots.new_root hnew)⟩
    · cases hcall
      exact ⟨n, areas, L, h.switch hlegal⟩
  · obtain ⟨mm, hmap, hstep⟩ := bind_ok.mp hstep
    cases hstep
    rcases hlegal with ⟨hv, hflags⟩ | hv
    · exact ⟨n, areas, L, h.map_window hv hflags hcareful hmap⟩
    · obtain ⟨L', hlevel⟩ := arch_map_page_level h.roots.typed hpgd (h.roots.aligned hc) hroot hv hmap
      exact ⟨n, areas, L', h.level hlevel (h.roots.level hlevel)⟩
  · obtain ⟨⟨ptr, k⟩, hv, hstep⟩ := bind_ok.mp hstep
    cases hstep
    split_ifs with hsize
    · subst hsize
      cases (vmalloc_zero u.vm).symm.trans hv
      exact ⟨n, areas, L, h⟩
    · obtain ⟨n', areas', h'⟩ := h.vmalloc hsize hlegal hv
      exact ⟨n', areas', L, h'⟩
  · obtain ⟨k, hv, hstep⟩ := bind_ok.mp hstep
    cases hstep
    obtain ⟨areas', h'⟩ := h.vfree hv
    exact ⟨n, areas', L, h'⟩

/-! ## The start -/

/-- The boot tables of the user half, and the frame that the low huge page begins with. -/
def bootLevels (p4 : BitVec 64) : Nat → Set Nat :=
  fun d => {k | d ≤ 3 ∧ k = if d < 3 then pageOf (boot_table p4 d) else 0}

variable {p4 kernel_end : BitVec 64} {m : Mem}

theorem Layout.page_pos (h : Layout p4 m kernel_end) {d : Nat} (hd : d < 7) :
    0 < pageOf (boot_table p4 d) := by
  have hlow := h.low
  unfold pageOf
  rw [h.toNat_table hd]
  omega

theorem boot_typed (h : Layout p4 m kernel_end) :
    Typed levels (start_mm p4 m kernel_end) (bootLevels p4) := by
  refine ⟨?_, ?_, ?_⟩
  · rintro d k ⟨-, rfl⟩
    split_ifs with hd
    · exact h.used (by omega)
    · have hpages := h.pageOf_table (n := 0) (by omega)
      unfold start_mm
      rw [pmm_init_used, decide_eq_true_eq]
      omega
  · rintro d e k ⟨hd, rfl⟩ ⟨he, hk⟩
    split_ifs at hk with hd' he' he'
    · exact (h.table_inj (by omega) (by omega)).mp
        (pageOf_inj (h.table_aligned (by omega)) (h.table_aligned (by omega)) hk)
    · have := Layout.page_pos h (d := d) (by omega)
      omega
    · have := Layout.page_pos h (d := e) (by omega)
      omega
    · omega
  · rintro d (hd : d < 3) t ht ⟨-, hmem⟩ i (hi : i < width d) hpres
    rw [if_pos hd] at hmem
    obtain rfl := pageOf_inj ht (h.table_aligned (by omega)) hmem
    refine ⟨hd, ?_⟩
    rw [start_mm_mem] at hpres ⊢
    unfold width at hi
    rcases h.get_start (n := d) (i := i) (by omega) (by split_ifs at hi <;> omega) with
      ⟨k, hk, hlink, he⟩ | ⟨hhuge, he⟩ | he
    · -- The links of the user half go down by one level each.
      have hnext : k = d + 1 ∧ d + 1 < 3 := by
        simp only [bootLinks, List.mem_cons, Prod.mk.injEq, List.not_mem_nil, or_false] at hlink
        split_ifs at hi <;> omega
      rw [he, h.addr_entry hk, hnext.1, if_pos hnext.2]
    · unfold HugeAt at hhuge
      obtain ⟨rfl, rfl⟩ : d = 2 ∧ i = 0 := by omega
      rw [he, if_neg (by omega)]
      decide
    · rw [he, zero_has] at hpres
      cases hpres

theorem typed_reroot (c : BitVec 64) (h : Typed levels s L) : Typed levels (reroot c s) L :=
  h.congr rfl rfl

theorem boot_apart (h : Layout p4 m kernel_end) : Apart (start_mm p4 m kernel_end) p4 L := by
  rintro k ⟨q, x, hq, -, hx, rfl⟩ hne
  exfalso
  obtain ⟨n, hpath, rfl⟩ := h.node_boot hq.small hx
  have hmem := List.mem_of_getElem? hpath
  simp only [bootPaths, List.mem_cons, List.not_mem_nil, or_false] at hmem
  rcases hmem with rfl | rfl | rfl | rfl | rfl | rfl | rfl
  · rw [node_nil, Option.some.injEq] at hx
    exact hne (hx ▸ rfl)
  all_goals
    have hlo := hq.1
    have hhi := hq.2.1
    omega

theorem roots_start (h : Layout p4 m kernel_end)
    (hinit : arch_paging_init (start_mm p4 m kernel_end) = .ok mm) :
    Roots mm [p4] p4 (bootLevels p4) := by
  have haddr := h.addr_table (n := 0) (by omega)
  rw [boot_table_zero] at haddr
  have hT0 : Forest WindowPath (start_mm p4 m kernel_end) {p4} :=
    h.forest.mono fun _ => WindowPath.small
  obtain ⟨hT, hg, hleaf, -⟩ := arch_paging_init_spec hT0 (start_mm_cr3 _ _ _) haddr hinit
  have htyped := typed_reroot p4 (boot_typed h)
  have hapart : Apart (reroot p4 (start_mm p4 m kernel_end)) p4 (bootLevels p4) := by
    unfold Apart
    rw [reroot_mem]
    exact boot_apart h
  have hroot : pageOf p4 ∈ bootLevels p4 0 := by
    refine ⟨by omega, ?_⟩
    rw [if_pos (by omega), boot_table_zero]
  refine ⟨?_, hT, hapart.grow htyped hg, by simp, ?_, ?_, ?_, p4, by simp, ?_, ?_⟩
  · refine typed_window htyped h.aligned hroot hapart ?_ ?_ hg.only.same
    · exact fun d k hk => hg.only.used k (htyped.used d k hk)
    · intro i hi
      exact Grown.get_top (x := 0) hg (by omega) (by omega) (by omega)
  · intro r hr
    rw [List.mem_singleton.mp hr]
    exact ⟨haddr, hroot⟩
  · intro r hr i _ _
    rw [List.mem_singleton.mp hr]
  · -- There is a last-level table, so the entry for it on the top level is present.
    have hpres : has (leaf mm.mem p4 LAPIC_VADDR) PTE_PRESENT = true := hleaf ▸ pageEntry_present _ _
    cases ht : node mm.mem p4 (pathOf LAPIC_VADDR 3) with
    | none =>
      rw [leaf, slot_of_none ht, zero_has] at hpres
      cases hpres
    | some t => exact present_above ht (n := 0) (by omega)
  · exact hg.only.cr3.trans ((reroot_cr3 _ _).trans (start_mm_cr3 _ _ _))
  · exact hg.only.current_pgd.trans (reroot_pgd _ _)

theorem agree_start (h : Layout p4 m kernel_end)
    (hinit : arch_paging_init (start_mm p4 m kernel_end) = .ok mm) (heap_ptr : BitVec 32) :
    Agree ⟨Vm.start mm heap_ptr, [p4], []⟩ p4 0 [] (bootLevels p4) := by
  have hroots := roots_start h hinit
  have hstart := holds_start (booted h hinit).1 heap_ptr
  exact ⟨hroots, ⟨hroots.tables, by simp, by simp, by simp, by simp, by simp⟩, hstart.records,
    hstart.vmalloc_ptr,
    by omega, by simp, by simp⟩

/-- In every run in which no page of a live pointer is mapped to something else, all spaces have the
same kernel half and translate it in the same way. -/
theorem kernel_half_shared {heap_ptr : BitVec 32} {ops : List WindowOp} {u : Spaces}
    (hlayout : Layout p4 m kernel_end)
    (hinit : arch_paging_init (start_mm p4 m kernel_end) = .ok mm)
    (hrun : run WindowOp.carefulStep ⟨Vm.start mm heap_ptr, [p4], []⟩ ops = .ok u) :
    ∀ r ∈ u.spaces, ∀ r' ∈ u.spaces,
      (∀ i, 256 ≤ i → i < 512 → table_get u.vm.mm.mem r i = table_get u.vm.mm.mem r' i) ∧
      ∀ v, KernelHalf v → translate u.vm.mm.mem r v = translate u.vm.mm.mem r' v := by
  obtain ⟨n, areas, L, h⟩ := run_inv (fun u => ∃ n areas L, Agree u p4 n areas L)
    (fun _ _ _ _ => agree_step)
    ⟨0, [], _, agree_start hlayout hinit heap_ptr⟩ hrun
  intro r hr r' hr'
  have hkernel : ∀ i, 256 ≤ i → i < 512 → table_get u.vm.mm.mem r i = table_get u.vm.mm.mem r' i := by
    intro i hlo hhi
    rw [h.roots.kernel r hr i hlo hhi, h.roots.kernel r' hr' i hlo hhi]
  exact ⟨hkernel, fun v hv => translate_kernel hkernel (fun _ _ _ _ _ _ _ _ => rfl) hv⟩

theorem step_of_call {op : WindowOp} (hlegal : op.Legal u) (hcall : op.call u = .ok u') :
    op.step u = .ok u' := by
  unfold WindowOp.step
  rw [if_pos hlegal, hcall]

theorem carefulStep_of_call {op : WindowOp} (hcareful : op.Careful u) (hlegal : op.Legal u)
    (hcall : op.call u = .ok u') : op.carefulStep u = .ok u' := by
  unfold WindowOp.carefulStep
  rw [if_pos hcareful, step_of_call hlegal hcall]

theorem call_create {mm : Mm} (hcreate : create_new_address_space u.vm.mm = .ok (r, mm)) :
    (WindowOp.space .create_new_address_space).call u =
      .ok { u with vm := { u.vm with mm := mm }, spaces := r :: u.spaces } := by
  have hcall : SpaceOp.create_new_address_space.call u.vm.mm u.spaces = .ok (mm, r :: u.spaces) :=
    bind_ok.mpr ⟨_, hcreate, rfl⟩
  exact bind_ok.mpr ⟨_, hcall, rfl⟩

theorem room_for_page : VMALLOC_START.toNat + 4096 * pages_needed 4096 ≤ VMALLOC_END.toNat :=
  by decide

/-- A page is mapped in the second space, and the first one has it too. -/
theorem kernel_half_shared_small : ∃ mm r u,
    arch_paging_init (start_mm 0x110000 (fun _ => 0) 0xFFFFFFFF80200000) = .ok mm ∧
    run WindowOp.carefulStep ⟨Vm.start mm 0, [0x110000], []⟩
      [.space .create_new_address_space, .space (.switch_address_space r), .vmalloc 4096] = .ok u ∧
    u.spaces = [r, 0x110000] ∧
    translate u.vm.mm.mem r VMALLOC_START = translate u.vm.mm.mem 0x110000 VMALLOC_START := by
  obtain ⟨mm, hinit, hpool⟩ := arch_paging_init_pool (n := 65018) small_pool
  have hstart := agree_start small_layout hinit 0
  obtain ⟨r, mm1, hcreate, hpool1⟩ := create_new_address_space_pool (n := 65017) hpool
  have hrec : Records { Vm.start mm 0 with mm := switch_address_space mm1 r } [] :=
    hstart.records.of_same rfl rfl rfl
  obtain ⟨ptr, k, hv, -⟩ := vmalloc_pool (n := 65013) 4096 (hpool1.of_pmm rfl) hrec hstart.vmalloc_ptr
  have hrun : run WindowOp.carefulStep ⟨Vm.start mm 0, [0x110000], []⟩
      [.space .create_new_address_space, .space (.switch_address_space r), .vmalloc 4096] =
      .ok ⟨k, [r, 0x110000], [(ptr, pages_needed 4096)]⟩ := by
    refine bind_ok.mpr ⟨_, carefulStep_of_call trivial trivial (call_create hcreate), ?_⟩
    refine bind_ok.mpr ⟨_, carefulStep_of_call trivial (List.mem_cons_self) rfl, ?_⟩
    exact bind_ok.mpr ⟨_, carefulStep_of_call trivial room_for_page (bind_ok.mpr ⟨_, hv, rfl⟩), rfl⟩
  have hshared := kernel_half_shared small_layout hinit hrun r (by simp) 0x110000 (by simp)
  exact ⟨mm, r, _, hinit, hrun, rfl, hshared.2 VMALLOC_START (by unfold KernelHalf; decide)⟩

/-! ## A page of a live pointer that is mapped to a root -/

theorem create_over_freed_root (hT : Forest WindowPath s {b}) (haddr : pte_addr b = b)
    (hpgd : s.current_pgd = some b) (hcr3 : s.cr3 = b)
    (hleaf : leaf s.mem b (windowPage 0) = pageEntry b PTE_WRITABLE) (hinv : Inv s.pmm)
    (hlt : pageOf b < s.pmm.pmm_pages_total) (hbelow : ∀ k < pageOf b, s.pmm.page_used k = true) :
    ∃ s', create_new_address_space (vfree_page s (windowPage 0)) = .ok (b, s') ∧
      table_get s'.mem b 402 = 0 ∧
      ∀ k ∉ pagesOn WindowPath s.mem b, s.pmm.page_used k = true → SamePage s.mem s'.mem k := by
  have hb : Aligned b := hT.aligned b rfl
  have hroot : pageOf b ∈ pagesOn WindowPath s.mem b := ⟨[], b, trivial, by simp, rfl, rfl⟩
  obtain ⟨t, ht, heq⟩ := vfree_page_eq hT (.inl hpgd) (n := 0) (by decide)
    (hleaf ▸ pageEntry_present b _)
  rw [hleaf, pageEntry_addr b (by decide), haddr] at heq
  have htpage : pageOf t ∈ pagesOn WindowPath s.mem b :=
    ⟨_, t, PathKind.pathOf (WindowKind.window 0 (by decide)) (by omega), by simp, ht, rfl⟩
  obtain ⟨hmem, hcr3', -⟩ := free_page_frame s b
  obtain ⟨hused, htotal⟩ := free_page_used hlt (hT.used b rfl [] b trivial (by simp) rfl)
  set s1 := vfree_page s (windowPage 0) with hs1
  have hpmm1 : s1.pmm = (free_page s b).pmm := by rw [heq, table_set_pmm]
  have hinv1 : Inv s1.pmm := hpmm1 ▸ free_page_inv b hinv
  have hfree1 : pageOf b ∈ freePages s1.pmm := by
    rw [mem_freePages, hpmm1, htotal, hused]
    simpa using hlt
  cases halloc : alloc_page s1 with
  | error e =>
    have hall := (alloc_page_error halloc).2 _ (hinv1.hint_le_of_mem hfree1) (mem_freePages.mp hfree1).1
    rw [(mem_freePages.mp hfree1).2] at hall
    cases hall
  | ok p =>
    obtain ⟨f, s2⟩ := p
    have hnew := alloc_page_new halloc
    -- All pages below the root are in use, so its frame is the lowest free one.
    obtain rfl : f = b := by
      apply pageOf_inj hnew.aligned hb
      obtain ⟨i, hi, ha⟩ := alloc_page_cases halloc
      have hfi : pageOf f = i := by
        unfold pageOf
        omega
      have hwas := ha.was_free
      rw [hfi]
      apply le_antisymm
      · by_contra hgt
        have := ha.skipped _ (hinv1.hint_le_of_mem hfree1) (by omega)
        rw [(mem_freePages.mp hfree1).2] at this
        cases this
      · by_contra hgt
        rw [hpmm1, hused, hbelow i (by omega)] at hwas
        simp at hwas
        omega
    obtain ⟨s3, hcopy⟩ := copy_kernel_half_ok (pte_addr s2.cr3) f s2
    obtain ⟨-, honly, hget⟩ := copy_kernel_half_spec (addr_aligned _) hb hcopy
    refine ⟨s3, bind_ok.mpr ⟨_, halloc, bind_ok.mpr ⟨_, hcopy, rfl⟩⟩, ?_, ?_⟩
    · have hroot2 : pte_addr s2.cr3 = f := by
        rw [hnew.cr3, heq]
        change pte_addr (free_page s f).cr3 = f
        rw [hcr3', hcr3, haddr]
      rw [hget 402 (by omega), if_pos (by omega), hroot2, hnew.table_get_zero (by omega)]
    · intro k hk hku x hx
      have hkb : k ≠ pageOf f := fun h => hk (h ▸ hroot)
      have hkt : k ≠ pageOf t := fun h => hk (h ▸ htpage)
      have hku2 : s2.pmm.page_used k = true := by
        rw [hnew.used, hpmm1, hused, hku]
        simp [hkb]
      rw [honly.same k (not_free_of_used hku2) hkb x hx, hnew.same k hkb x hx, heq,
        samePage_table_set _ _ (hT.node_aligned rfl ht) (indexOf_lt _ _) hkt x hx, hmem]

theorem remap_root {k : Vm} (hroots : Roots k.mm spaces b L) (hmapping : Mapping WindowPath k.mm b 0 [])
    (hrec : Records k []) (hptr : k.vmalloc_ptr = windowPage 0) (hheap : k.heap_ptr.toNat + 32 ≤ 4194304)
    (hpool : Pool 7 k.mm) :
    ∃ k2 mm3 k4, Code.vmalloc k 4096 = .ok (windowPage 0, k2) ∧
      arch_map_page k2.mm (windowPage 0) b PTE_WRITABLE = .ok mm3 ∧
      Code.vfree { k2 with mm := mm3 } (windowPage 0) = .ok k4 ∧ k4.mm = vfree_page mm3 (windowPage 0) ∧
      Roots mm3 spaces b L ∧ leaf mm3.mem b (windowPage 0) = pageEntry b PTE_WRITABLE ∧ Inv mm3.pmm ∧
      Only (pagesOn WindowPath k.mm.mem b) k.mm mm3 ∧ mm3.pmm.pmm_pages_total = k.mm.pmm.pmm_pages_total := by
  obtain ⟨ptr, k2, hv, hpool2⟩ := vmalloc_pool (n := 3) 4096 hpool hrec hptr
  obtain ⟨rfl, a, hlen, hvm⟩ := vmalloc_spec hmapping hrec (hroots.sees (by decide))
    hroots.currentUsed hptr
    (by decide) (by decide) hv
  have hlen : a.frames.length = 1 := hlen
  have hrec2 : Records k2 [a] := by
    rcases hvm.records with ⟨hfull, -⟩ | ⟨-, -, hrec⟩
    · omega
    · exact hrec
  have hroots2 : Roots k2.mm spaces b L := by
    apply hroots.grow hvm.mapping.tables hvm.grown
    rintro j ⟨-, hj⟩
    rw [Area.stop, hvm.first, hlen] at hj
    omega
  obtain ⟨mm3, hmap, hpool3⟩ := arch_map_page_pool (n := 0) hpool2 (windowPage 0) b PTE_WRITABLE
  obtain ⟨hT3, hleaf, hg3⟩ := map_window_spec hvm.mapping.tables (hroots2.sees (by decide))
    (by decide) (by decide) hmap
  have hfind : findArea [a] (windowPage 0) = some a := by simp [findArea, hvm.first]
  have hrec3 : Records { k2 with mm := mm3 } [a] := hrec2.of_same rfl rfl rfl
  obtain ⟨A, B, k4, -, -, -, hfree, -, hmm4, -, -⟩ := vfree_some hrec3 (by simp [hlen])
    (windowPage_ne_zero (by decide)) hfind
  refine ⟨k2, mm3, k4, hv, hmap, hfree, ?_, hroots2.grow hT3 hg3 (by omega), hleaf, hpool3.inv,
    hvm.grown.only.trans_into hg3.only hvm.grown.pages, hg3.total.trans hvm.grown.total⟩
  rw [hmm4, hvm.first, hlen]
  rfl

/-- The page of a live pointer is mapped to the root of the boot tables and freed. The next
space is made in the frame of that root, and the one before it keeps the old entries. -/
theorem kernel_half_lost : ∃ mm r u,
    arch_paging_init (start_mm 0x110000 (fun _ => 0) 0xFFFFFFFF80200000) = .ok mm ∧
    run WindowOp.step ⟨Vm.start mm 0, [0x110000], []⟩
      [.space .create_new_address_space, .vmalloc 4096,
        .arch_map_page VMALLOC_START 0x110000 PTE_WRITABLE, .vfree VMALLOC_START,
        .space .create_new_address_space] = .ok u ∧
    u.spaces = [0x110000, r, 0x110000] ∧ table_get u.vm.mm.mem r 402 ≠
      table_get u.vm.mm.mem 0x110000 402 := by
  obtain ⟨mm, hinit, hpool⟩ := arch_paging_init_pool (n := 65018) small_pool
  have hboot := (booted small_layout hinit).1
  obtain ⟨-, hg, -⟩ := arch_paging_init_spec small_layout.forest (start_mm_cr3 _ _ _) (by decide) hinit
  have hroots := roots_start small_layout hinit
  have hstart := agree_start small_layout hinit 0
  obtain ⟨haddr, hroot⟩ := hroots.root _ hroots.boot
  obtain ⟨r, mm1, hcreate, hpool1⟩ := create_new_address_space_pool (n := 65017) hpool
  obtain ⟨L, hnew⟩ := create_new_address_space_typed hroots.typed
    (by rw [hboot.cr3, haddr]; exact hroot) hcreate
  have hroots1 := hroots.new_root hnew
  have h1 := hstart.level hnew.toTypedStep hroots1
  obtain ⟨k2, mm3, k4, hv, hmap, hfree, hmm4, hroots3, hleaf, hinv, honly, htotal⟩ :=
    remap_root (k := { Vm.start mm 0 with mm := mm1 }) hroots1 h1.mapping h1.records h1.vmalloc_ptr
      (show (0 : BitVec 32).toNat + 32 ≤ 4194304 by decide) (hpool1.le (by omega))
  have htotal : mm3.pmm.pmm_pages_total = 65536 := by
    rw [htotal, hnew.total, hg.total]
    rfl
  have hbelow : ∀ k < pageOf 0x110000, mm3.pmm.page_used k = true := by
    intro k hk
    apply honly.used k (hnew.used k (hg.only.used k _))
    change (start_mm 0x110000 (fun _ => 0) 0xFFFFFFFF80200000).pmm.page_used k = true
    unfold start_mm
    rw [pmm_init_used, decide_eq_true_eq]
    exact hk.trans (by decide)
  obtain ⟨mm5, hcreate5, hzero, hsame⟩ := create_over_freed_root hroots3.tables haddr
    (honly.current_pgd.trans (hnew.current_pgd.trans hboot.current_pgd))
    (honly.cr3.trans (hnew.cr3.trans hboot.cr3)) hleaf hinv (by rw [htotal]; decide) hbelow
  rw [← hmm4] at hcreate5
  rw [show VMALLOC_START = windowPage 0 by decide]
  refine ⟨mm, r, ⟨{ k4 with mm := mm5 }, [0x110000, r, 0x110000],
    [(windowPage 0, pages_needed 4096)].filter (·.1 ≠ windowPage 0)⟩, hinit, ?_, rfl, ?_⟩
  · refine bind_ok.mpr ⟨_, step_of_call trivial (call_create hcreate), ?_⟩
    refine bind_ok.mpr ⟨_, step_of_call room_for_page (bind_ok.mpr ⟨_, hv, rfl⟩), ?_⟩
    refine bind_ok.mpr ⟨_, step_of_call (.inl ⟨by decide, by decide⟩) (bind_ok.mpr ⟨_, hmap, rfl⟩), ?_⟩
    refine bind_ok.mpr ⟨_, step_of_call trivial (bind_ok.mpr ⟨_, hfree, rfl⟩), ?_⟩
    exact bind_ok.mpr ⟨_, step_of_call trivial (call_create hcreate5), rfl⟩
  · obtain ⟨-, hr⟩ := hroots3.root r (by simp)
    have hne : pageOf r ≠ pageOf 0x110000 := by
      intro heq
      apply hroots.typed.not_free hroot
      rw [← heq]
      exact (create_new_address_space_spec hcreate).was_free
    have hpage := hsame _ (hroots3.apart.not_mem hr hne) (hroots3.typed.used 0 _ hr)
    dsimp only
    rw [hzero, hpage.table_get (hroots3.aligned (by simp)) (by omega),
      hroots3.kernel r (by simp) 402 (by omega) (by omega)]
    intro heq
    have hwindow := hroots3.window
    rw [heq, zero_has] at hwindow
    cases hwindow

end Relis.Vmalloc
