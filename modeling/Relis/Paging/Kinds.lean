import Relis.Paging.Typing

/-!
# The kinds of tables

Each frame with a table has one kind: a root, or a table of one of the two halves at its
depth. This holds for all spaces, and for the boot tables with their huge pages.
-/

open Relis.Bytes Relis.Run Relis.Code Relis.PageAlloc

namespace Relis.Paging

inductive Kind
  | root
  | below (kernel : Bool) (d : Nat)
  deriving DecidableEq

namespace Kind

def depth : Kind → Nat
  | root => 0
  | below _ d => d

def next : Kind → Nat → Kind
  | root, i => below (256 ≤ i) 1
  | below kernel d, _ => below kernel (d + 1)

def inKernel : Kind → Bool
  | root => false
  | below kernel _ => kernel

@[simp] theorem depth_next (κ : Kind) (i : Nat) : (κ.next i).depth = κ.depth + 1 := by
  cases κ <;> rfl

theorem inKernel_next (κ : Kind) (i j : Nat) :
    ((κ.next i).next j).inKernel = (κ.next i).inKernel := by
  cases κ <;> rfl

def ofPath (p : List Nat) : Kind := p.foldl next root

theorem ofPath_snoc (p : List Nat) (i : Nat) : ofPath (p ++ [i]) = (ofPath p).next i := by
  simp [ofPath]

theorem depth_ofPath (p : List Nat) : (ofPath p).depth = p.length := by
  induction p using List.reverseRecOn with
  | nil => rfl
  | append_singleton p i ih =>
    rw [ofPath_snoc, depth_next, ih, List.length_append, List.length_singleton]

end Kind

abbrev Kinds := Kind → Set Nat

/-- An entry that may stand at `i` in a table of the kind. With `clean`, no entry for a kernel table
has the user bit. -/
structure EntryOk (clean : Prop) (L : Kinds) (κ : Kind) (i : Nat) (e : BitVec 64) : Prop where
  leads : ∀ t, child κ.depth e = some t → pageOf t ∈ L (κ.next i)
  small : κ.depth = 1 → has e PTE_PRESENT = true → has e PTE_HUGE = false
  clean : clean → (κ.next i).inKernel = true → has e PTE_USER = false

section Entries

variable {clean : Prop} {L : Kinds} {κ : Kind} {f u e : BitVec 64} {i : Nat}

theorem entryOk_zero : EntryOk clean L κ i 0 := by
  refine ⟨fun t ht => ?_, fun _ h => ?_, fun _ _ => zero_has _⟩
  · rw [child_of_absent (zero_has _)] at ht
    cases ht
  · rw [zero_has] at h
    cases h

theorem entryOk_user (h : EntryOk clean L κ i e) (hu : UserFlag u)
    (hclean : clean → (κ.next i).inKernel = true → u = 0) : EntryOk clean L κ i (e ||| u) := by
  refine ⟨fun t ht => ?_, fun hd hp => ?_, fun hc hk => ?_⟩
  · rw [child_or_user hu] at ht
    exact h.leads t ht
  · rw [has_or, hu.has (by decide), Bool.or_false] at hp ⊢
    exact h.small hd hp
  · rw [has_or, h.clean hc hk, hclean hc hk, zero_has]
    rfl

theorem entryOk_table (hf : pte_addr f = f) (hmem : pageOf f ∈ L (κ.next i)) (hu : UserFlag u)
    (hclean : clean → (κ.next i).inKernel = true → u = 0) :
    EntryOk clean L κ i (tableEntry f u) := by
  refine ⟨fun t ht => ?_, fun _ _ => tableEntry_huge f hu, fun hc hk => ?_⟩
  · rw [child_tableEntry hf hu, Option.some.injEq] at ht
    rwa [← ht]
  · rw [hclean hc hk, tableEntry, has_or, has_or, has_or, addr_has _ _ (by decide)]
    decide

theorem entryOk_clone (h : EntryOk clean L κ i e) (hf : pte_addr f = f)
    (hmem : pageOf f ∈ L (κ.next i)) : EntryOk clean L κ i (cloneEntry f e) := by
  have hflags := cloneEntry_flags hf e
  refine ⟨fun t ht => ?_, fun hd hp => ?_, fun hc hk => ?_⟩
  · rw [(child_eq_some ht).1, cloneEntry_addr hf]
    exact hmem
  · rw [has_of_flags hflags (by decide)] at hp ⊢
    exact h.small hd hp
  · rw [has_of_flags hflags (by decide)]
    exact h.clean hc hk

theorem entryOk_leads (h : EntryOk clean L κ i e) (hpres : has e PTE_PRESENT = true)
    (hsmall : κ.depth = 2 → has e PTE_HUGE = false) : pageOf (pte_addr e) ∈ L (κ.next i) := by
  refine h.leads _ (child_of_small hpres fun hd => ?_)
  rcases hd with hd | hd
  · exact h.small hd hpres
  · exact hsmall hd

end Entries

def kinds (clean : Prop) : Typing Kind where
  root := .root
  depth := Kind.depth
  next := Kind.next
  Covers _ i := i < 512
  Ok := EntryOk clean
  Allows κ i u := clean → (κ.next i).inKernel = true → u = 0
  depth_root := rfl
  depth_next := Kind.depth_next
  covers_lt h := h
  covers_user h _ := h
  ok_zero := entryOk_zero
  ok_mono hL h := ⟨fun t ht => hL _ (h.leads t ht), h.small, h.clean⟩
  ok_table := entryOk_table
  ok_user := entryOk_user
  ok_clone := entryOk_clone
  leads := entryOk_leads

variable {clean : Prop} {s s' s1 : Mm} {L L' L1 : Kinds} {κ : Kind} {t f r virt : BitVec 64} {i : Nat}

/-- The frame 0, which the lowest huge page starts with, is in use and is no table. -/
structure Kinded (clean : Prop) (s : Mm) (L : Kinds) : Prop extends Typed (kinds clean) s L where
  low : ∀ κ, 0 ∉ L κ
  low_used : s.pmm.page_used 0 = true

theorem Kinded.entry_ok (h : Kinded clean s L) (hκ : κ.depth < 3) (ht : Aligned t)
    (hmem : pageOf t ∈ L κ) (hi : i < 512) : EntryOk clean L κ i (table_get s.mem t i) :=
  h.entry κ hκ t ht hmem i hi

theorem Kinded.node_kind (h : Kinded clean s L) (hr : Aligned r) (hroot : pageOf r ∈ L .root)
    {p : List Nat} (hp : ∀ j ∈ p, j < 512) (hn : p.length ≤ 3) (ht : node s.mem r p = some t) :
    pageOf t ∈ L (.ofPath p) := by
  induction p using List.reverseRecOn generalizing t with
  | nil =>
    cases ht
    exact hroot
  | append_singleton p i ih =>
    rw [List.length_append, List.length_singleton] at hn
    rw [node_snoc, Option.bind_eq_some_iff] at ht
    obtain ⟨u, hu, hchild⟩ := ht
    have hmem := ih (fun j hj => hp j (by simp [hj])) (by omega) hu
    have hentry := h.entry_ok (by rw [Kind.depth_ofPath]; omega) (node_aligned hr hu) hmem
      (hp i (by simp))
    rw [Kind.ofPath_snoc]
    exact hentry.leads t (by rwa [Kind.depth_ofPath])

/-! ## Steps -/

structure KindStep (clean : Prop) (s s' : Mm) (L L' : Kinds) : Prop where
  kinded : Kinded clean s' L'
  mono : ∀ κ, L κ ⊆ L' κ
  fresh : ∀ κ, ∀ k ∈ L' κ, k ∈ L κ ∨ k ∈ freePages s.pmm
  free : freePages s'.pmm ⊆ freePages s.pmm
  cr3 : s'.cr3 = s.cr3
  current_pgd : s'.current_pgd = s.current_pgd

theorem KindStep.trans (h1 : KindStep clean s s1 L L1) (h2 : KindStep clean s1 s' L1 L') :
    KindStep clean s s' L L' := by
  refine ⟨h2.kinded, fun κ k hk => h2.mono κ (h1.mono κ hk), fun κ k hk => ?_,
    h2.free.trans h1.free, h2.cr3.trans h1.cr3, h2.current_pgd.trans h1.current_pgd⟩
  rcases h2.fresh κ k hk with hk | hk
  · exact h1.fresh κ k hk
  · exact .inr (h1.free hk)

theorem TypedStep.kindStep (hstep : TypedStep (kinds clean) s s' L L') (h : Kinded clean s L) :
    KindStep clean s s' L L' := by
  refine ⟨⟨hstep.typed, fun κ hk => ?_, hstep.used 0 h.low_used⟩, hstep.mono,
    hstep.fresh, hstep.free, hstep.cr3, hstep.current_pgd⟩
  rcases hstep.fresh κ 0 hk with hk | hfree
  · exact h.low κ hk
  · exact not_free_of_used h.low_used hfree

theorem Kinded.congr (h : Kinded clean s L) (hmem : s'.mem = s.mem) (hpmm : s'.pmm = s.pmm) :
    Kinded clean s' L :=
  ⟨h.toTyped.congr hmem hpmm, h.low, hpmm ▸ h.low_used⟩

theorem Kinded.of_only {W : Set Nat} (h : Kinded clean s L) (honly : Only W s s')
    (hW : ∀ κ, ∀ k ∈ L κ, k ∉ W) : KindStep clean s s' L L := by
  refine ⟨⟨h.of_entries (fun κ k hk => honly.used k (h.used κ k hk)) ?_, h.low,
    honly.used 0 h.low_used⟩, fun _ _ hk => hk, fun _ _ hk => .inl hk, honly.free, honly.cr3,
    honly.current_pgd⟩
  intro κ _ t ht hmem i hi
  exact (honly.same _ (h.not_free hmem) (hW κ _ hmem)).table_get ht hi

/-! ## The way of one address -/

def OnWay (v : BitVec 64) (n : Nat) (p : List Nat) : Prop := p <+: pathOf v n

theorem lt_of_mem_pathOf {v : BitVec 64} {n j : Nat} (h : j ∈ pathOf v n) : j < 512 := by
  unfold pathOf at h
  obtain ⟨d, -, rfl⟩ := List.mem_map.mp h
  exact indexOf_lt v d

theorem OnWay.lt {v : BitVec 64} {n : Nat} {p : List Nat} (h : OnWay v n p) : ∀ j ∈ p, j < 512 :=
  fun _ hj => lt_of_mem_pathOf (h.subset hj)

instance (v : BitVec 64) (n : Nat) : PathKind (OnWay v n) where
  of_prefix _ _ hpq hq := hpq.trans hq
  last_lt _ i h := OnWay.lt h i (by simp)

theorem OnWay.eq_pathOf {v : BitVec 64} {n : Nat} {p : List Nat} (h : OnWay v n p) :
    p = pathOf v p.length := by
  unfold OnWay pathOf at h
  have hlen : p.length ≤ n := by simpa using h.length_le
  rw [List.prefix_iff_eq_take, ← List.map_take, List.take_range, Nat.min_eq_left hlen] at h
  exact h

/-- The entry for `v` in the last table above the pages of 4 KiB. -/
def middleEntry (m : Mem) (r v : BitVec 64) : BitVec 64 := slot m r (pathOf v 2) (indexOf v 2)

def HugeOn (m : Mem) (r v : BitVec 64) : Prop :=
  has (middleEntry m r v) PTE_PRESENT = true ∧ has (middleEntry m r v) PTE_HUGE = true

instance (m : Mem) (r v : BitVec 64) : Decidable (HugeOn m r v) := inferInstanceAs (Decidable (_ ∧ _))

theorem Kinded.forest (h : Kinded clean s L) (hr : Aligned r) (hroot : pageOf r ∈ L .root)
    (v : BitVec 64) (n : Nat) (hhuge : 3 ≤ n → ¬ HugeOn s.mem r v) : Forest (OnWay v n) s {r} := by
  have hkind : ∀ p x, OnWay v n p → p.length ≤ 3 → node s.mem r p = some x → pageOf x ∈ L (.ofPath p) :=
    fun p x hp hn hx => h.node_kind hr hroot hp.lt hn hx
  refine ⟨?_, ?_, ?_, ?_⟩
  · rintro r' rfl
    exact hr
  · rintro r1 rfl r2 rfl p1 p2 x hp1 hp2 hn1 hn2 hx1 hx2
    have hsame := h.apart _ _ _ (hkind p1 x hp1 hn1 hx1) (hkind p2 x hp2 hn2 hx2)
    have hlen := congrArg Kind.depth hsame
    rw [Kind.depth_ofPath, Kind.depth_ofPath] at hlen
    refine ⟨rfl, ?_⟩
    rw [hp1.eq_pathOf, hp2.eq_pathOf, hlen]
  · rintro r' rfl p t hp hn ht
    exact h.used _ _ (hkind p t hp hn ht)
  · rintro r' rfl p i hp hn hpres
    have hway := (PathKind.init hp).eq_pathOf
    rcases hn with hn | hn
    · cases ht : node s.mem r' p with
      | none =>
        rw [slot_of_none ht, zero_has] at hpres
        cases hpres
      | some t =>
        rw [slot_of_node ht] at hpres ⊢
        have hmem := hkind p t (PathKind.init hp) (by omega) ht
        have hdepth : (Kind.ofPath p).depth = 1 := (Kind.depth_ofPath p).trans hn
        exact (h.entry_ok (by omega) (node_aligned hr ht) hmem (PathKind.index_lt hp)).small hdepth hpres
    · -- The entry is the one that the condition is about.
      have hlen : 3 ≤ n := by
        have hle := hp.length_le
        rw [List.length_append, List.length_singleton, pathOf_length] at hle
        omega
      have hp' : p ++ [i] = pathOf v (p.length + 1) := by
        have hp' := OnWay.eq_pathOf hp
        rwa [List.length_append, List.length_singleton] at hp'
      obtain ⟨h1, h2⟩ := snoc_eq_pathOf hp'
      rw [hn] at h1 h2
      have hnot := hhuge hlen
      unfold HugeOn middleEntry at hnot
      rw [h1, h2] at hpres ⊢
      rw [not_and, Bool.not_eq_true] at hnot
      exact hnot hpres

/-! ## `arch_map_page` -/

theorem ensure_table_kind {u : BitVec 64} (h : Kinded clean s L) (hκ : κ.depth < 3) (ht : Aligned t)
    (hmem : pageOf t ∈ L κ) (hi : i < 512) (hu : UserFlag u)
    (hclean : clean → (κ.next i).inKernel = true → u = 0)
    (hensure : ensure_table s t i u = .ok s') :
    ∃ L', KindStep clean s s' L L' ∧ has (table_get s'.mem t i) PTE_PRESENT = true := by
  obtain ⟨L', hstep, hpres⟩ :=
    ensure_table_typed (T := kinds clean) h.toTyped hκ ht hmem hi hu hclean hensure
  exact ⟨L', hstep.kindStep h, hpres⟩

theorem ensure_above {n : Nat} {u : BitVec 64} (hT : Forest (OnWay virt 2) s {r}) (hn : n ≤ 1)
    (hu : UserFlag u) (ht : node s.mem r (pathOf virt n) = some t)
    (h : ensure_table s t (indexOf virt n) u = .ok s') :
    Forest (OnWay virt 2) s' {r} ∧
      node s'.mem r (pathOf virt (n + 1)) = some (pte_addr (table_get s'.mem t (indexOf virt n))) ∧
      middleEntry s'.mem r virt = middleEntry s.mem r virt := by
  have hway : ∀ k ≤ 2, OnWay virt 2 (pathOf virt k) := by
    intro k hk
    unfold OnWay pathOf
    rw [← Nat.add_sub_cancel' hk, List.range_add, List.map_append]
    exact List.prefix_append _ _
  have hnext : OnWay virt 2 (pathOf virt n ++ [indexOf virt n]) := by
    rw [← pathOf_succ]
    exact hway (n + 1) (by omega)
  obtain ⟨e, he, hput, -⟩ := ensure_table_spec hT rfl hnext (by simpa using by omega) ht hu h
  have htable := hput.keeps r rfl _ t (hway n (by omega)) (by simpa using by omega) ht
  refine ⟨hput.tables, ?_, ?_⟩
  · rw [pathOf_succ]
    apply hput.tables.node_next rfl hnext htable
    have hslot := hput.slots r rfl _ _ (hway n (by omega)) (by simpa using by omega) (indexOf_lt virt n)
    rw [if_pos ⟨rfl, rfl, rfl⟩, slot_of_node htable] at hslot
    rw [hslot]
    exact he.present
  · refine (hput.slots r rfl _ _ (hway 2 (le_refl 2)) (by simp) (indexOf_lt virt 2)).trans (if_neg ?_)
    rintro ⟨-, hpath, -⟩
    have hlen := congrArg List.length hpath
    rw [pathOf_length, pathOf_length] at hlen
    omega

theorem ensure_table_entry {u : BitVec 64} (ht : Aligned t) (hi : i < 512)
    (h : ensure_table s t i u = .ok s') :
    EnsuredEntry s (table_get s.mem t i) u (table_get s'.mem t i) := by
  unfold ensure_table at h
  split_ifs at h with hpres
  · obtain ⟨⟨f, s1⟩, halloc, h⟩ := bind_ok.mp h
    cases h
    have hnew := alloc_page_new halloc
    rw [Bool.not_eq_true'] at hpres
    rw [table_get_set s1 _ ht ht hi hi, if_pos ⟨rfl, rfl⟩]
    exact .inr ⟨hpres, f, hnew.addr, hnew.was_free, rfl⟩
  · cases h
    simp only [Bool.not_eq_true', Bool.not_eq_false] at hpres
    rw [table_get_set s _ ht ht hi hi, if_pos ⟨rfl, rfl⟩]
    exact .inl ⟨hpres, rfl⟩

theorem aligned_zero : Aligned 0 := rfl

theorem ensure_last_kind {u e : BitVec 64} {j : Nat} (h : Kinded clean s L) (hκ : κ.depth = 2)
    (ht : Aligned t) (hmem : pageOf t ∈ L κ) (hi : i < 512) (hj : j < 512) (hu : UserFlag u)
    (hclean : clean → (κ.next i).inKernel = true → u = 0)
    (hlow : has (table_get s.mem t i) PTE_PRESENT = true →
      has (table_get s.mem t i) PTE_HUGE = true → pte_addr (table_get s.mem t i) = 0)
    (hensure : ensure_table s t i u = .ok s1) :
    ∃ L', KindStep clean s (table_set s1 (pte_addr (table_get s1.mem t i)) j e) L L' := by
  obtain ⟨L', hstep, hpres⟩ := ensure_table_kind h (by omega) ht hmem hi hu hclean hensure
  refine ⟨L', hstep.trans ?_⟩
  have hentry := ensure_table_entry ht hi hensure
  by_cases hhuge : has (table_get s1.mem t i) PTE_HUGE = true
  · have hzero : pte_addr (table_get s1.mem t i) = 0 := by
      rcases hentry with ⟨hp, he⟩ | ⟨-, f, -, -, he⟩
      · rw [he, has_or, hu.has (by decide), Bool.or_false] at hhuge
        rw [he, addr_or, hu.addr, hlow hp hhuge]
        rfl
      · rw [he, tableEntry_huge f hu] at hhuge
        cases hhuge
    rw [hzero]
    refine hstep.kinded.of_only (only_table_set s1 e aligned_zero hj) ?_
    rintro κ k hk rfl
    exact hstep.kinded.low κ hk
  · have hchild : child κ.depth (table_get s1.mem t i) = some (pte_addr (table_get s1.mem t i)) :=
      child_of_small hpres fun _ => Bool.eq_false_iff.mpr hhuge
    have hleads := (hstep.kinded.entry_ok (by omega) ht (hstep.mono κ hmem) hi).leads _ hchild
    refine (typed_set (T := kinds clean) hstep.kinded.toTyped (addr_aligned _) hleads hj ?_).kindStep
      hstep.kinded
    intro (hdepth : (κ.next i).depth < 3)
    rw [Kind.depth_next, hκ] at hdepth
    omega

/-- The way of `v` ends in a huge page, but not in the one of the lowest addresses. -/
def HighOn (m : Mem) (r v : BitVec 64) : Prop := HugeOn m r v ∧ pte_addr (middleEntry m r v) ≠ 0

theorem arch_map_page_kind {phys flags : BitVec 64} (h : Kinded clean s L)
    (hpgd : s.current_pgd = some r) (hr : Aligned r) (hroot : pageOf r ∈ L .root)
    (hclean : clean → UserHalf virt ∨ has flags PTE_USER = false) (hhigh : ¬ HighOn s.mem r virt)
    (hmap : arch_map_page s virt phys flags = .ok s') : ∃ L', KindStep clean s s' L L' := by
  have hu := userFlag_cases flags
  have hflag : clean → (Kind.root.next (pgd_index virt)).inKernel = true → userFlag flags = 0 := by
    intro hc hk
    have hkernel : 256 ≤ pgd_index virt := of_decide_eq_true hk
    rcases hclean hc with hv | hv
    · exact absurd hv (Nat.not_lt.mpr hkernel)
    · unfold userFlag
      rw [if_neg (by simp [hv])]
  unfold arch_map_page at hmap
  rw [hpgd] at hmap
  simp only [bind_ok] at hmap
  obtain ⟨s1, h1, s2, h2, s3, h3, hmap⟩ := hmap
  cases hmap
  have hforest := h.forest hr hroot virt 2 (by omega)
  obtain ⟨hforest1, ht1, hmiddle1⟩ := ensure_above (n := 0) hforest (by omega) hu (node_nil _ _) h1
  obtain ⟨-, ht2, hmiddle2⟩ := ensure_above (n := 1) hforest1 (by omega) hu ht1 h2
  obtain ⟨L1, st1, -⟩ := ensure_table_kind h (κ := .root) (by decide) hr hroot (index_lt _) hu hflag h1
  have hk1 := st1.kinded.node_kind hr (st1.mono _ hroot) (fun _ => lt_of_mem_pathOf) (by simp) ht1
  rw [← Kind.inKernel_next _ _ (pud_index virt)] at hflag
  obtain ⟨L2, st2, -⟩ := ensure_table_kind st1.kinded (by simp [Kind.depth_ofPath]) (addr_aligned _) hk1
    (index_lt _) hu hflag h2
  have hk2 := st2.kinded.node_kind hr (st2.mono _ (st1.mono _ hroot))
    (fun _ => lt_of_mem_pathOf) (by simp) ht2
  rw [← Kind.inKernel_next _ _ (pmd_index virt)] at hflag
  have hmiddle := (slot_of_node ht2 (indexOf virt 2)).symm.trans (hmiddle2.trans hmiddle1)
  obtain ⟨L3, st3⟩ := ensure_last_kind (e := pageEntry phys flags) st2.kinded
    (by simp [Kind.depth_ofPath])
    (addr_aligned _) hk2 (indexOf_lt virt 2) (index_lt (virt >>> 12)) hu hflag
    (by
      rw [hmiddle]
      exact fun hp hh => of_not_not fun hne => hhigh ⟨⟨hp, hh⟩, hne⟩) h3
  exact ⟨L3, st1.trans (st2.trans st3)⟩

/-! ## New spaces -/

theorem RootStep.kindStep (hstep : RootStep (kinds clean) s s' L L' f) (h : Kinded clean s L) :
    KindStep clean s s' L L' ∧ pte_addr f = f ∧ pageOf f ∈ L' .root :=
  ⟨hstep.toTypedStep.kindStep h, hstep.addr, hstep.root⟩

theorem create_new_address_space_kind (h : Kinded clean s L)
    (hroot : pageOf (pte_addr s.cr3) ∈ L .root) (hnew : create_new_address_space s = .ok (f, s')) :
    ∃ L', KindStep clean s s' L L' ∧ pte_addr f = f ∧ pageOf f ∈ L' .root := by
  obtain ⟨L', hstep⟩ := create_new_address_space_typed h.toTyped hroot hnew
  exact ⟨L', hstep.kindStep h⟩

theorem clone_address_space_kind (h : Kinded clean s L)
    (hroot : pageOf (pte_addr s.cr3) ∈ L .root) (hclone : clone_address_space s = .ok (f, s')) :
    ∃ L', KindStep clean s s' L L' ∧ pte_addr f = f ∧ pageOf f ∈ L' .root := by
  obtain ⟨L', hstep⟩ := clone_address_space_typed h.toTyped hroot hclone
  exact ⟨L', hstep.kindStep h⟩

end Relis.Paging
