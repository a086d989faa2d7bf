import Relis.Lists
import Relis.Slab
import Relis.Vmalloc.Window

/-!
# The areas that `vmalloc` has given out

An area is a range of pages with the frames behind them and a `vm_struct`.
-/

open Relis.Bytes Relis.Run Relis.Code Relis.PageAlloc Relis.Paging Relis.Lists Relis.Dll
open Relis.Slab

namespace Relis.Vmalloc

structure Area where
  first : Nat
  frames : List (BitVec 64)
  /-- Where its `vm_struct` lies in the heap. -/
  node : Nat

def Area.stop (a : Area) : Nat := a.first + a.frames.length

def Area.pages (a : Area) (n : Nat) : Prop := a.first ≤ n ∧ n < a.stop

/-! ## The memory behind the areas -/

/-- Each page of each area is mapped to a frame of its own, and `n` is the next page. -/
structure Mapping (V : List Nat → Prop) (s : Mm) (r : BitVec 64) (n : Nat) (areas : List Area) :
  Prop where
  tables : Forest V s {r}
  order : areas.Pairwise fun a b => b.stop ≤ a.first
  below : ∀ a ∈ areas, a.stop ≤ n
  nodup : (areas.flatMap Area.frames).Nodup
  mapped : ∀ a ∈ areas, ∀ i f, a.frames[i]? = some f →
    leaf s.mem r (windowPage (a.first + i)) = pageEntry f PTE_WRITABLE
  backing : ∀ a ∈ areas, ∀ f ∈ a.frames, Backing V s r f

variable {V : List Nat → Prop} {s s' : Mm} {r f : BitVec 64} {n : Nat} {a : Area}
  {areas A B : List Area}

theorem lt_of_getElem? {α : Type} {l : List α} {i : Nat} {x : α} (h : l[i]? = some x) :
    i < l.length :=
  (List.getElem?_eq_some_iff.mp h).1

theorem Backing.grow {pages : Nat → Prop} (h : Backing V s r f) (hg : Grown V s s' r pages) :
    Backing V s' r f := by
  refine ⟨h.addr, hg.total ▸ h.lt, hg.only.used _ h.used, fun hpage => ?_⟩
  rcases hg.pages hpage with hpage | hpage
  · exact h.apart hpage
  · exact not_free_of_used h.used hpage

theorem Taken.backing (h : Taken V s s' r n f) : Backing V s' r f := by
  refine ⟨h.addr, ?_, h.used, h.apart⟩
  rw [h.grown.total]
  exact (mem_freePages.mp h.was_free).1

theorem Mapping.grow [WindowKind V] {pages : Nat → Prop} (h : Mapping V s r n areas)
    (hn : n ≤ windowPages) (hT : Forest V s' {r}) (hg : Grown V s s' r pages)
    (hoff : ∀ a ∈ areas, ∀ k, a.pages k → ¬ pages k) : Mapping V s' r n areas := by
  refine ⟨hT, h.order, h.below, h.nodup, ?_, fun a ha f hf => (h.backing a ha f hf).grow hg⟩
  intro a ha i f hf
  have hlt := lt_of_getElem? hf
  have hbelow : a.first + a.frames.length ≤ n := h.below a ha
  have hpage : a.pages (a.first + i) := ⟨by omega, by unfold Area.stop; omega⟩
  rw [hg.slots.window (by omega) (hoff a ha _ hpage), h.mapped a ha i f hf]

theorem Mapping.of_sameOn [WindowKind V] (h : Mapping V s r n areas) (hn : n ≤ windowPages)
    (hsame : SameOn V s.mem s'.mem r)
    (hused : ∀ k, s.pmm.page_used k = true → s'.pmm.page_used k = true)
    (htotal : s'.pmm.pmm_pages_total = s.pmm.pmm_pages_total) : Mapping V s' r n areas := by
  have hT : Forest V s' {r} := by
    apply SameOn.forest h.tables _ fun _ _ k _ => hused k
    rintro r' rfl
    exact hsame
  refine ⟨hT, h.order, h.below, h.nodup, ?_, ?_⟩
  · intro a ha i f hf
    have hlt := lt_of_getElem? hf
    have hbelow : a.first + a.frames.length ≤ n := h.below a ha
    have hpath := WindowKind.window (V := V) (a.first + i) (by omega)
    rw [← h.mapped a ha i f hf]
    exact hsame.slot (PathKind.snoc hpath (le_refl 3)) (by simp)
  · intro a ha f hf
    have hback := h.backing a ha f hf
    exact ⟨hback.addr, htotal ▸ hback.lt, hused _ hback.used, hsame.pagesOn ▸ hback.apart⟩

theorem Mapping.take [WindowKind V] (h : Mapping V s r n (a :: areas)) (hstop : a.stop = n)
    (hn : n < windowPages) (ht : Taken V s s' r n f) :
    Mapping V s' r (n + 1) ({ a with frames := a.frames ++ [f] } :: areas) := by
  have hlen : a.first + a.frames.length = n := hstop
  have hold : Mapping V s' r n (a :: areas) := by
    apply h.grow hn.le ht.tables ht.grown
    intro b hb k hk
    exact (hk.2.trans_le (h.below b hb)).ne
  obtain ⟨horder, hrest⟩ := List.pairwise_cons.mp h.order
  refine ⟨ht.tables, List.pairwise_cons.mpr ⟨horder, hrest⟩, ?_, ?_, ?_, ?_⟩
  · intro b hb
    rcases List.mem_cons.mp hb with rfl | hb
    · simp only [Area.stop, List.length_append, List.length_singleton]
      omega
    · exact (h.below b (List.mem_cons_of_mem _ hb)).trans (Nat.le_succ n)
  · -- The new frame was free, and all others are in use.
    have hnodup := h.nodup
    rw [List.flatMap_cons] at hnodup ⊢
    rw [List.append_assoc, List.singleton_append]
    refine (List.perm_middle.nodup_iff).mpr (List.nodup_cons.mpr ⟨fun hmem => ?_, hnodup⟩)
    have hmem' : f ∈ (a :: areas).flatMap Area.frames := hmem
    obtain ⟨b, hb, hf⟩ := List.mem_flatMap.mp hmem'
    exact not_free_of_used (h.backing b hb f hf).used ht.was_free
  · intro b hb i g hg
    rcases List.mem_cons.mp hb with rfl | hb
    · rw [List.getElem?_append] at hg
      split_ifs at hg with hi
      · exact hold.mapped a List.mem_cons_self i g hg
      · have hi' := lt_of_getElem? hg
        rw [List.length_singleton] at hi'
        have hg' : f = g := by simpa [show i - a.frames.length = 0 by omega] using hg
        rw [← hg', show a.first + i = n by omega]
        exact ht.leaf
    · exact hold.mapped b (List.mem_cons_of_mem _ hb) i g hg
  · intro b hb g hg
    rcases List.mem_cons.mp hb with rfl | hb
    · rcases List.mem_append.mp hg with hg | hg
      · exact hold.backing a List.mem_cons_self g hg
      · rw [List.mem_singleton] at hg
        exact hg ▸ ht.backing
    · exact hold.backing b (List.mem_cons_of_mem _ hb) g hg

theorem Mapping.open (h : Mapping V s r n areas) (node : Nat) :
    Mapping V s r n (⟨n, [], node⟩ :: areas) := by
  refine ⟨h.tables, List.pairwise_cons.mpr ⟨h.below, h.order⟩, ?_, by simpa using h.nodup, ?_, ?_⟩
  · intro b hb
    rcases List.mem_cons.mp hb with rfl | hb
    · simp [Area.stop]
    · exact h.below b hb
  · intro b hb i g hg
    rcases List.mem_cons.mp hb with rfl | hb
    · simp at hg
    · exact h.mapped b hb i g hg
  · intro b hb g hg
    rcases List.mem_cons.mp hb with rfl | hb
    · simp at hg
    · exact h.backing b hb g hg

theorem Mapping.sublist (h : Mapping V s r n areas) (hsub : A.Sublist areas) : Mapping V s r n A :=
  ⟨h.tables, h.order.sublist hsub, fun a ha => h.below a (hsub.subset ha),
    h.nodup.sublist (hsub.flatMap _), fun a ha => h.mapped a (hsub.subset ha),
    fun a ha => h.backing a (hsub.subset ha)⟩

theorem Mapping.length_le (h : Mapping V s r n areas) (ha : a ∈ areas) : a.frames.length ≤ 65536 := by
  have hnodup : a.frames.Nodup := (List.nodup_flatMap.mp h.nodup).1 a ha
  have hmap : (a.frames.map pageOf).Nodup := by
    refine List.Nodup.map_on (fun f hf g hg heq => ?_) hnodup
    have hf' := (h.backing a ha f hf).addr
    have hg' := (h.backing a ha g hg).addr
    exact pageOf_inj (hf' ▸ addr_aligned f) (hg' ▸ addr_aligned g) heq
  have hsub : a.frames.map pageOf ⊆ List.range 65536 := by
    intro k hk
    obtain ⟨f, hf, rfl⟩ := List.mem_map.mp hk
    have hlt := (h.backing a ha f hf).lt
    have htotal := s.pmm.total_le
    simp only [MAX_PHYS_PAGES] at htotal
    exact List.mem_range.mpr (by omega)
  simpa using (hmap.subperm hsub).length_le

theorem vmalloc_page_spec [WindowKind V] {k k' : Vm} (h : Mapping V k.mm r n (a :: areas)) (hstop : a.stop = n)
    (hsees : Sees V k.mm r (n + 1)) (hcur : CurrentUsed k.mm) (hptr : k.vmalloc_ptr = windowPage n)
    (hn : n < windowPages) (hk : vmalloc_page k = .ok k') :
    ∃ f mm, k' = { k with mm := mm, vmalloc_ptr := windowPage (n + 1) } ∧ pageOf f ∈ freePages k.mm.pmm ∧
      Mapping V mm r (n + 1) ({ a with frames := a.frames ++ [f] } :: areas) ∧ Grown V k.mm mm r (· = n) := by
  unfold vmalloc_page at hk
  obtain ⟨⟨f, mm1⟩, halloc, hk⟩ := bind_ok.mp hk
  obtain ⟨mm, hmap, hk⟩ := bind_ok.mp hk
  cases hk
  rw [hptr] at hmap
  have ht := take_spec h.tables hsees hcur hn halloc hmap
  exact ⟨f, mm, by rw [hptr, windowPage_succ], ht.was_free, h.take hstop hn ht, ht.grown⟩

theorem vmalloc_loop_spec [WindowKind V] {k k' : Vm} {count : Nat} (h : Mapping V k.mm r n areas)
    (hsees : Sees V k.mm r (n + count)) (hcur : CurrentUsed k.mm) (hptr : k.vmalloc_ptr = windowPage n)
    (hfit : n + count ≤ windowPages) (node : Nat) (hloop : loop 0 count (fun _ k => vmalloc_page k) k = .ok k') :
    ∃ frames mm, frames.length = count ∧ k' = { k with mm := mm, vmalloc_ptr := windowPage (n + count) } ∧
      (∀ f ∈ frames, pageOf f ∈ freePages k.mm.pmm) ∧ Mapping V mm r (n + count) (⟨n, frames, node⟩ :: areas) ∧
      Grown V k.mm mm r (fun j => n ≤ j ∧ j < n + count) := by
  have hinv := loop_inv (fun i k1 => ∃ frames mm, frames.length = i ∧
    k1 = { k with mm := mm, vmalloc_ptr := windowPage (n + i) } ∧
    (∀ f ∈ frames, pageOf f ∈ freePages k.mm.pmm) ∧
    Mapping V mm r (n + i) (⟨n, frames, node⟩ :: areas) ∧
    Grown V k.mm mm r (fun j => n ≤ j ∧ j < n + count)) ?_ ?_ hloop
  · rwa [Nat.zero_add] at hinv
  · rintro i k1 k2 - hi ⟨frames, mm, hlen, rfl, hfresh, hmap, hgrown⟩ hpage
    obtain ⟨f, mm', rfl, hfree, hmap', hgrown'⟩ := vmalloc_page_spec hmap (by simp [Area.stop, hlen])
      ((hsees.mono (by omega)).grow hcur hgrown) (hcur.grow hgrown) rfl (by omega) hpage
    refine ⟨frames ++ [f], mm', by simp [hlen], rfl, ?_, hmap', hgrown.trans (hgrown'.mono ?_)⟩
    · intro g hg
      rcases List.mem_append.mp hg with hg | hg
      · exact hfresh g hg
      · rw [List.mem_singleton.mp hg]
        exact hgrown.only.free hfree
    · rintro j rfl
      omega
  · exact ⟨[], k.mm, rfl, by rw [Nat.add_zero, ← hptr], by simp, h.open node, .refl _ _ _ _⟩

/-! ## An area is given back -/

structure Returned (V : List Nat → Prop) (s s' : Mm) (r : BitVec 64) (a : Area) (i : Nat) : Prop where
  tables : Forest V s' {r}
  slots : SlotsOff V s s' r (fun n => a.first ≤ n ∧ n < a.first + i)
  leaves : ∀ j < i, leaf s'.mem r (windowPage (a.first + j)) = 0
  pages : pagesOn V s'.mem r = pagesOn V s.mem r
  top : ∀ i < 512, table_get s'.mem r i = table_get s.mem r i
  sees : ∀ k, Sees V s r k → Sees V s' r k
  used : ∀ k, s'.pmm.page_used k = true ↔ s.pmm.page_used k = true ∧ ∀ f ∈ a.frames.take i, k ≠ pageOf f
  total : s'.pmm.pmm_pages_total = s.pmm.pmm_pages_total
  same : ∀ k ∉ pagesOn V s.mem r, SamePage s.mem s'.mem k
  cr3 : s'.cr3 = s.cr3
  current_pgd : s'.current_pgd = s.current_pgd

theorem Backing.pageOf_ne {g : BitVec 64} (hf : Backing V s r f) (hg : Backing V s r g)
    (hne : f ≠ g) : pageOf f ≠ pageOf g :=
  fun heq => hne (pageOf_inj (hf.addr ▸ addr_aligned f) (hg.addr ▸ addr_aligned g) heq)

theorem vfree_pages_succ (s : Mm) (ptr : BitVec 64) (i : Nat) :
    vfree_pages s ptr (i + 1) = vfree_page (vfree_pages s ptr i)
      (ptr + BitVec.ofNat 64 i * 4096) := by
  rw [vfree_pages, List.range_succ, List.foldl_append]
  rfl

theorem Mapping.returned [WindowKind V] (h : Mapping V s r n areas) (ha : a ∈ areas)
    (hsees : Sees V s r n) (hn : n ≤ windowPages) {i : Nat} (hi : i ≤ a.frames.length) :
    Returned V s (vfree_pages s (windowPage a.first) i) r a i := by
  induction i with
  | zero =>
    refine ⟨h.tables, .refl _ _ _ _, by omega, rfl, fun _ _ => rfl, fun _ hk => hk, ?_, rfl,
      fun _ _ _ _ => rfl, rfl, rfl⟩
    intro k
    simp [vfree_pages]
  | succ i ih =>
    have hprev := ih (by omega)
    have hstop : a.first + a.frames.length ≤ n := h.below a ha
    have hlt : a.first + i < windowPages := by omega
    obtain ⟨f, hf⟩ : ∃ f, a.frames[i]? = some f := ⟨_, List.getElem?_eq_getElem (by omega)⟩
    have hmem : f ∈ a.frames := List.mem_of_getElem? hf
    have hback := h.backing a ha f hmem
    have htake : a.frames.take (i + 1) = a.frames.take i ++ [f] := by
      rw [List.take_add_one, hf]
      rfl
    -- The frame of this page is still in use, since it is none of the earlier ones.
    have hback' : Backing V (vfree_pages s (windowPage a.first) i) r f := by
      refine ⟨hback.addr, hprev.total ▸ hback.lt, ?_, hprev.pages ▸ hback.apart⟩
      refine (hprev.used _).mpr ⟨hback.used, fun g hg => ?_⟩
      apply hback.pageOf_ne (h.backing a ha g (List.mem_of_mem_take hg))
      rintro rfl
      have hnodup := ((List.nodup_flatMap.mp h.nodup).1 a ha).sublist
        (List.take_sublist (i + 1) a.frames)
      rw [htake, List.nodup_append] at hnodup
      exact hnodup.2.2 f hg f (by simp) rfl
    have hleaf := hprev.slots.window hlt (by omega)
    rw [h.mapped a ha i f hf] at hleaf
    have hgive := give_back_spec hprev.tables ((hprev.sees n hsees).mono (by omega)) hlt hleaf hback'
    rw [vfree_pages_succ, windowPage_add]
    refine ⟨hgive.tables, ?_, ?_, hgive.pages.trans hprev.pages,
      fun i hi => (hgive.top i hi).trans (hprev.top i hi),
      fun k hk => (hprev.sees k hk).give_back hgive, ?_, hgive.total.trans hprev.total, ?_,
      hgive.cr3.trans hprev.cr3, hgive.current_pgd.trans hprev.current_pgd⟩
    · exact (hprev.slots.mono (by omega)).trans (hgive.slots.mono (by omega))
    · intro j hj
      by_cases hji : j = i
      · rw [hji]
        exact hgive.leaf
      · rw [hgive.slots.window (by omega) (by omega), hprev.leaves j (by omega)]
    · intro k
      rw [hgive.used, Bool.and_eq_true, decide_eq_true_eq, hprev.used, htake]
      simp only [List.mem_append, List.mem_singleton, or_imp, forall_and, forall_eq]
      tauto
    · intro k hk x hx
      rw [hgive.same k (hprev.pages ▸ hk) x hx, hprev.same k hk x hx]

theorem Mapping.remove [WindowKind V] (h : Mapping V s r n (A ++ a :: B)) (hn : n ≤ windowPages)
    (hret : Returned V s s' r a a.frames.length) : Mapping V s' r n (A ++ B) := by
  have hsub : (A ++ B).Sublist (A ++ a :: B) := (List.sublist_cons_self a B).append_left A
  have hmem : ∀ b ∈ A ++ B, b ∈ A ++ a :: B := fun b hb => hsub.subset hb
  -- An area before `a` lies behind it, and an area behind `a` lies before it.
  have hapart : ∀ b ∈ A ++ B, a.stop ≤ b.first ∨ b.stop ≤ a.first := by
    intro b hb
    obtain ⟨-, hB, hA⟩ := List.pairwise_append.mp h.order
    rcases List.mem_append.mp hb with hb | hb
    · exact .inl (hA b hb a List.mem_cons_self)
    · exact .inr ((List.pairwise_cons.mp hB).1 b hb)
  have hdisj : ∀ b ∈ A ++ B, ∀ f ∈ b.frames, f ∉ a.frames := by
    intro b hb f hf hfa
    have hnodup := (List.perm_middle.flatMap_right Area.frames).nodup_iff.mp h.nodup
    rw [List.flatMap_cons, List.nodup_append] at hnodup
    exact hnodup.2.2 f hfa f (List.mem_flatMap.mpr ⟨b, hb, hf⟩) rfl
  refine ⟨hret.tables, h.order.sublist hsub, fun b hb => h.below b (hmem b hb),
    h.nodup.sublist (hsub.flatMap _), ?_, ?_⟩
  · intro b hb i f hf
    have hlt := lt_of_getElem? hf
    have hbelow : b.first + b.frames.length ≤ n := h.below b (hmem b hb)
    rw [hret.slots.window (by omega), h.mapped b (hmem b hb) i f hf]
    have := hapart b hb
    unfold Area.stop at this
    omega
  · intro b hb f hf
    have hback := h.backing b (hmem b hb) f hf
    refine ⟨hback.addr, hret.total ▸ hback.lt, ?_, hret.pages ▸ hback.apart⟩
    refine (hret.used _).mpr ⟨hback.used, fun g hg => ?_⟩
    rw [List.take_length] at hg
    apply hback.pageOf_ne (h.backing a (by simp) g hg)
    rintro rfl
    exact hdisj b hb f hf hg

/-! ## The list of areas -/

theorem links_at_set_links (k : Vm) (a b : VmNode) (l : VmLinks) [Decidable (b = a)] :
    (k.set_links a l).links_at b = if b = a then l else k.links_at b := by
  cases a <;> cases b <;> simp only [Vm.set_links, Vm.links_at, VmNode.list.injEq,
    reduceCtorEq, if_true, if_false, Function.update_apply]
  split <;> rfl

instance : LawfulListHeap Vm where
  next_set_next k a b v _ := by
    change ((k.set_links a _).links_at b).next = if b = a then v else (k.links_at b).next
    rw [links_at_set_links]
    split <;> rfl
  prev_set_next k a b v := by
    change ((k.set_links a _).links_at b).prev = (k.links_at b).prev
    rw [links_at_set_links]
    split
    · rw [‹b = a›]
    · rfl
  next_set_prev k a b v := by
    change ((k.set_links a _).links_at b).next = (k.links_at b).next
    rw [links_at_set_links]
    split
    · rw [‹b = a›]
    · rfl
  prev_set_prev k a b v _ := by
    change ((k.set_links a _).links_at b).prev = if b = a then v else (k.links_at b).prev
    rw [links_at_set_links]
    split <;> rfl

structure SameBut (k k' : Vm) : Prop where
  mm : k'.mm = k.mm
  heap_ptr : k'.heap_ptr = k.heap_ptr
  vmalloc_ptr : k'.vmalloc_ptr = k.vmalloc_ptr
  vm : ∀ p, (k'.vm p).addr = (k.vm p).addr ∧ (k'.vm p).size = (k.vm p).size

theorem sameBut_set_links (k : Vm) (n : VmNode) (l : VmLinks) : SameBut k (k.set_links n l) := by
  cases n with
  | vm_struct_list => exact ⟨rfl, rfl, rfl, fun _ => ⟨rfl, rfl⟩⟩
  | list q =>
    refine ⟨rfl, rfl, rfl, fun p => ?_⟩
    simp only [Vm.set_links, Function.update_apply]
    split_ifs with h
    · rw [h]
      exact ⟨rfl, rfl⟩
    · exact ⟨rfl, rfl⟩

theorem SameBut.trans {k k1 k' : Vm} (h1 : SameBut k k1) (h2 : SameBut k1 k') : SameBut k k' :=
  ⟨h2.mm.trans h1.mm, h2.heap_ptr.trans h1.heap_ptr, h2.vmalloc_ptr.trans h1.vmalloc_ptr,
    fun p => ⟨(h2.vm p).1.trans (h1.vm p).1, (h2.vm p).2.trans (h1.vm p).2⟩⟩

theorem sameBut_of_relinks {k k' : Vm} (h : Relinks k k') : SameBut k k' := by
  induction h with
  | refl => exact ⟨rfl, rfl, rfl, fun _ => ⟨rfl, rfl⟩⟩
  | next a v _ ih => exact ih.trans (sameBut_set_links _ a _)
  | prev a v _ ih => exact ih.trans (sameBut_set_links _ a _)

structure Records (k : Vm) (areas : List Area) : Prop where
  ring : Ring (links k) .vm_struct_list (areas.map fun a => .list a.node)
  fresh : ∀ a ∈ areas, a.node < k.heap_ptr.toNat
  addr : ∀ a ∈ areas, (k.vm a.node).addr = windowPage a.first
  size : ∀ a ∈ areas, (k.vm a.node).size = BitVec.ofNat 64 a.frames.length * 4096

variable {k k' : Vm}

theorem Records.length_le (h : Records k areas) : areas.length ≤ k.heap_ptr.toNat := by
  have hnodup := (List.nodup_cons.mp h.ring.nodup).2
  have hnodes : (areas.map Area.node).Nodup := by
    apply List.Nodup.of_map VmNode.list
    rwa [List.map_map]
  have hsub : areas.map Area.node ⊆ List.range k.heap_ptr.toNat := by
    intro p hp
    obtain ⟨a, ha, rfl⟩ := List.mem_map.mp hp
    exact List.mem_range.mpr (h.fresh a ha)
  simpa using (hnodes.subperm hsub).length_le

def findArea (areas : List Area) (ptr : BitVec 64) : Option Area :=
  areas.find? fun a => windowPage a.first = ptr

theorem find_vm_spec (h : Records k areas) (ptr : BitVec 64) :
    find_vm k ptr = .ok ((findArea areas ptr).map Area.node) := by
  refine list_for_each_find Area.node _ h.ring (Nat.lt_succ_of_le h.length_le) fun a ha => ?_
  rw [← h.addr a ha]
  rfl

/-! ## The two functions -/

theorem Records.of_same (h : Records k areas) (hlist : k'.vm_struct_list = k.vm_struct_list)
    (hvm : k'.vm = k.vm) (hheap : k'.heap_ptr = k.heap_ptr) : Records k' areas := by
  have hlinks : links k' = links k := by
    have hat : k'.links_at = k.links_at := by
      funext n
      cases n with
      | vm_struct_list => exact hlist
      | list p => simp only [Vm.links_at, hvm]
    change (⟨fun n => (k'.links_at n).next, fun n => (k'.links_at n).prev⟩ : Links VmNode) = _
    rw [hat]
    rfl
  exact ⟨hlinks ▸
    h.ring, by rw [hheap]; exact h.fresh, by rw [hvm]; exact h.addr, by rw [hvm]; exact h.size⟩

theorem Records.add {heap_ptr : BitVec 32} (h : Records k areas) (hnode : a.node = k.heap_ptr.toNat)
    (hheap : heap_ptr.toNat = k.heap_ptr.toNat + 32) :
    let area : VmStruct := ⟨windowPage a.first, BitVec.ofNat 64 a.frames.length * 4096, (k.vm a.node).list⟩
    ∃ k', list_add { k with heap_ptr := heap_ptr, vm := Function.update k.vm a.node area }
      (.list a.node)
        .vm_struct_list = .ok k' ∧
      Records k' (a :: areas) ∧ k'.mm = k.mm ∧ k'.heap_ptr = heap_ptr ∧
        k'.vmalloc_ptr = k.vmalloc_ptr := by
  intro area
  have hne : ∀ b ∈ areas, b.node ≠ a.node := by
    intro b hb
    have := h.fresh b hb
    omega
  let k1 : Vm := { k with heap_ptr := heap_ptr, vm := Function.update k.vm a.node area }
  -- Only the new record changes, and it is in no ring yet.
  have hring : Ring (links k1) .vm_struct_list (areas.map fun a => .list a.node) := by
    refine ring_of_sameLinks h.ring fun n hn => ?_
    rcases List.mem_cons.mp hn with rfl | hn
    · exact ⟨rfl, rfl⟩
    · obtain ⟨b, hb, rfl⟩ := List.mem_map.mp hn
      have hsame : k1.links_at (.list b.node) = k.links_at (.list b.node) := by
        simp only [Vm.links_at, k1, Function.update_of_ne (hne b hb)]
      exact ⟨congrArg VmLinks.next hsame, congrArg VmLinks.prev hsame⟩
  have hnot : VmNode.list a.node ∉ VmNode.vm_struct_list :: areas.map fun a => .list a.node := by
    rw [List.mem_cons, List.mem_map]
    rintro (heq | ⟨b, hb, heq⟩)
    · cases heq
    · exact hne b hb (VmNode.list.inj heq)
  obtain ⟨k', hadd, hins⟩ := list_add_spec hring hnot
  have hsame := sameBut_of_relinks hins.relinks
  refine ⟨k', hadd, ⟨hins.ring, ?_, ?_, ?_⟩, hsame.mm, hsame.heap_ptr, hsame.vmalloc_ptr⟩
  · intro b hb
    rw [hsame.heap_ptr, show k1.heap_ptr = heap_ptr from rfl, hheap]
    rcases List.mem_cons.mp hb with rfl | hb
    · omega
    · have := h.fresh b hb
      omega
  · intro b hb
    rw [(hsame.vm _).1]
    rcases List.mem_cons.mp hb with rfl | hb
    · simp [k1, area]
    · simp only [k1, Function.update_of_ne (hne b hb)]
      exact h.addr b hb
  · intro b hb
    rw [(hsame.vm _).2]
    rcases List.mem_cons.mp hb with rfl | hb
    · simp [k1, area]
    · simp only [k1, Function.update_of_ne (hne b hb)]
      exact h.size b hb

theorem vmalloc_zero (k : Vm) : vmalloc k 0 = .ok (0, k) := rfl

structure Vmalloced (V : List Nat → Prop) (k k' : Vm) (r : BitVec 64) (n : Nat)
  (areas : List Area) (a : Area) :
    Prop where
  first : a.first = n
  fresh : ∀ f ∈ a.frames, pageOf f ∈ freePages k.mm.pmm
  mapping : Mapping V k'.mm r a.stop (a :: areas)
  grown : Grown V k.mm k'.mm r a.pages
  vmalloc_ptr : k'.vmalloc_ptr = windowPage a.stop
  records : (4194304 < k.heap_ptr.toNat + 32 ∧ k'.heap_ptr = k.heap_ptr ∧ Records k' areas) ∨
    (k.heap_ptr.toNat + 32 ≤ 4194304 ∧ k'.heap_ptr.toNat = k.heap_ptr.toNat + 32 ∧
      Records k' (a :: areas))

theorem vmalloc_spec [WindowKind V] {size ptr : BitVec 64} (hmap : Mapping V k.mm r n areas)
    (hrec : Records k areas) (hsees : Sees V k.mm r (n + pages_needed size))
    (hcur : CurrentUsed k.mm) (hptr : k.vmalloc_ptr = windowPage n)
    (hfit : n + pages_needed size ≤ windowPages) (hsize : size ≠ 0)
    (hv : vmalloc k size = .ok (ptr, k')) :
    ptr = windowPage n ∧ ∃ a, a.frames.length = pages_needed size ∧
      Vmalloced V k k' r n areas a := by
  unfold vmalloc at hv
  rw [if_neg hsize] at hv
  obtain ⟨k1, hloop, hv⟩ := bind_ok.mp hv
  obtain ⟨frames, mm, hlen, rfl, hfresh, hmap', hgrown⟩ :=
    vmalloc_loop_spec hmap hsees hcur hptr hfit k.heap_ptr.toNat hloop
  have hrec1 : Records { k with mm := mm, vmalloc_ptr := windowPage (n + pages_needed size) } areas :=
    hrec.of_same rfl rfl rfl
  rw [← hlen] at hmap' hgrown
  rcases kmalloc_spec k.heap_ptr sizeof_vm_struct (by decide) with
    ⟨hk, hfull⟩ | ⟨heap_ptr, hk, hle, hheap⟩
  · dsimp only at hv
    rw [hk] at hv
    cases hv
    refine ⟨hptr, ⟨n, frames, k.heap_ptr.toNat⟩, hlen, rfl, hfresh, hmap', hgrown, ?_,
      .inl ⟨hfull, rfl, hrec1⟩⟩
    simp only [Area.stop, hlen]
  · dsimp only at hv
    rw [hk] at hv
    obtain ⟨k2, hadd, hrec2, hmm, hheap2, hptr2⟩ :=
      hrec1.add (a := ⟨n, frames, k.heap_ptr.toNat⟩) rfl hheap
    dsimp only at hv hadd
    rw [← hptr, hlen] at hadd
    rw [hadd] at hv
    cases hv
    refine ⟨hptr, ⟨n, frames, k.heap_ptr.toNat⟩, hlen, rfl, hfresh, ?_, ?_, ?_, .inr ⟨hle, ?_, hrec2⟩⟩
    · rw [hmm]
      exact hmap'
    · rw [hmm]
      exact hgrown
    · rw [hptr2]
      simp only [Area.stop, hlen]
    · rw [hheap2, hheap]
      rfl

theorem vfree_zero (k : Vm) : vfree k 0 = .ok k := rfl

theorem vfree_none {ptr : BitVec 64} (hrec : Records k areas) (h : findArea areas ptr = none) :
    vfree k ptr = .ok k := by
  unfold vfree
  split_ifs
  · rfl
  · rw [find_vm_spec hrec, h]
    rfl

theorem pages_of_size {len : Nat} (h : len ≤ 65536) :
    u32 ((BitVec.ofNat 64 len * 4096) / 4096).toNat = len := by
  rw [BitVec.toNat_udiv, BitVec.toNat_mul, BitVec.toNat_ofNat,
    show (4096 : BitVec 64).toNat = 4096 from rfl]
  unfold u32
  omega

theorem vfree_some {ptr : BitVec 64} (hrec : Records k areas)
    (hlen : ∀ a ∈ areas, a.frames.length ≤ 65536) (hptr : ptr ≠ 0)
    (h : findArea areas ptr = some a) :
    ∃ A B k', areas = A ++ a :: B ∧ (∀ b ∈ A, windowPage b.first ≠ ptr) ∧ windowPage a.first = ptr ∧
      vfree k ptr = .ok k' ∧ Records k' (A ++ B) ∧
      k'.mm = vfree_pages k.mm (windowPage a.first) a.frames.length ∧
      k'.heap_ptr = k.heap_ptr ∧ k'.vmalloc_ptr = k.vmalloc_ptr := by
  obtain ⟨hfirst, A, B, rfl, hbefore⟩ := List.find?_eq_some_iff_append.mp h
  rw [decide_eq_true_eq] at hfirst
  have hmem : a ∈ A ++ a :: B := by simp
  have hpages : u32 ((k.vm a.node).size / 4096).toNat = a.frames.length := by
    rw [hrec.size a hmem]
    exact pages_of_size (hlen a hmem)
  let k1 : Vm := { k with mm := vfree_pages k.mm ptr a.frames.length }
  have hrec1 : Records k1 (A ++ a :: B) := hrec.of_same rfl rfl rfl
  have hring := hrec1.ring
  rw [List.map_append, List.map_cons] at hring
  obtain ⟨k', hdel, hring', hrelinks, -⟩ := list_del_spec hring
  have hsame := sameBut_of_relinks hrelinks
  have hsub : ∀ b ∈ A ++ B, b ∈ A ++ a :: B :=
    fun b hb => ((List.sublist_cons_self a B).append_left A).subset hb
  refine ⟨A, B, k', rfl, ?_, hfirst, ?_, ⟨?_, ?_, ?_, ?_⟩, ?_, hsame.heap_ptr, hsame.vmalloc_ptr⟩
  · intro b hb
    simpa using hbefore b hb
  · unfold vfree
    rw [if_neg hptr, find_vm_spec hrec, h]
    simp only [Option.map_some, bind, Except.bind, hpages]
    exact hdel
  · rwa [List.map_append]
  · intro b hb
    rw [hsame.heap_ptr]
    exact hrec1.fresh b (hsub b hb)
  · intro b hb
    rw [(hsame.vm _).1]
    exact hrec1.addr b (hsub b hb)
  · intro b hb
    rw [(hsame.vm _).2]
    exact hrec1.size b (hsub b hb)
  · rw [hsame.mm, hfirst]

end Relis.Vmalloc
