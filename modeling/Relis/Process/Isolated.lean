import Relis.Process.Fault

/-!
# Spaces apart

What calls and programs do to memory is a sequence of a few small edits. None of them gives
a page of one space to another one, but for frames that are meant to be shared.
-/

open Relis.Bytes Relis.Code Relis.PageAlloc Relis.Paging Relis.Run Relis.Sched Relis.Slab

namespace Relis.Process

variable {s : Mm} {roots : Set (BitVec 64)}

/-! ## Pages of spaces -/

/-- The memory and its spaces. With `shared f path`, the frame `f` is meant for all spaces, at
`path`. -/
structure SharedMm where
  mm : Mm
  roots : Set (BitVec 64)
  shared : Nat → List Nat → Prop

structure PageAt (x : SharedMm) (r : BitVec 64) (p : List Nat) (i : Nat) (e : BitVec 64) : Prop where
  root : r ∈ x.roots
  user : UserPath (p ++ [i])
  length : p.length = 3
  entry : slot x.mm.mem r p i = e
  present : has e PTE_PRESENT = true

def frame (e : BitVec 64) : Nat := pageOf (pte_addr e)

def Alone (x : SharedMm) (r : BitVec 64) (p : List Nat) (i : Nat) (e : BitVec 64) : Prop :=
  ∀ r' p' i' e', PageAt x r' p' i' e' → frame e' = frame e → r' = r ∧ p' = p ∧ i' = i

variable {T : Set (BitVec 64)} {W : Set Nat} {x x' x'' : SharedMm} {r e virt phys flags : BitVec 64}
  {p : List Nat} {i : Nat}
  {mm s0 s1 s2 : Mm}

theorem PageAt.of_slot (h : PageAt x' r p i e) (hr : r ∈ x.roots)
    (hslot : slot x'.mm.mem r p i = slot x.mm.mem r p i) : PageAt x r p i e :=
  ⟨hr, h.user, h.length, hslot.symm.trans h.entry, h.present⟩

theorem PageAt.data (h : PageAt x r p i e) (howner : Owner x.mm x.roots) :
    Data x.mm x.roots (frame e) := by
  have hdata := howner.leaves r h.root p i h.user h.length
  rw [h.entry] at hdata
  exact hdata h.present

theorem off_none : ∀ r ∈ roots, Disjoint (userPages s.mem r) ∅ := fun _ _ => Set.disjoint_empty _

theorem data_not_free {k : Nat} (h : Data s roots k) : k ∉ freePages s.pmm :=
  not_free_of_used h.1

/-! ## Edits -/

/-- One thing that happens to memory. Of the spaces that were there, those in `T` may get pages, and
of the frames with data, those in `W` may be written to. -/
inductive Edit (T : Set (BitVec 64)) (W : Set Nat) (x : SharedMm) : SharedMm → Prop
  | load {mm : Mm} (hmem : mm.mem = x.mm.mem) (hpmm : mm.pmm = x.mm.pmm) :
    Edit T W x { x with mm := mm }
  | write {mm : Mm} {V : Set Nat} (honly : Only V x.mm mm)
    (htables : ∀ r ∈ x.roots, Disjoint (userPages x.mm.mem r) V)
      (hV : V ⊆ W) : Edit T W x { x with mm := mm }
  | map_new {mm s1 s2 : Mm} {r virt phys flags : BitVec 64} (hr : r ∈ x.roots) (hT : r ∈ T)
      (hflags : pte_flags flags = flags) (hnew : NewPage x.mm s1 phys)
        (hm : Mapped s1 s2 x.roots r virt phys flags)
      (hfill : Only {pageOf phys} s2 mm) : Edit T W x { x with mm := mm }
  | map_shared {mm : Mm} {r virt phys flags : BitVec 64} (hr : r ∈ x.roots) (hT : r ∈ T)
    (hflags : pte_flags flags = flags)
      (hshared : x.shared (frame phys) (pathOf virt 4))
        (huser : frame phys = consolePage → has flags PTE_USER = false)
      (hm : Mapped x.mm mm x.roots r virt phys flags) : Edit T W x { x with mm := mm }
  | new_root {mm : Mm} {r : BitVec 64} (hnew : NewRoot x.mm mm r) :
    Edit T W x ⟨mm, insert r x.roots, x.shared⟩
  | share {mm : Mm} {phys : BitVec 64} (path : List Nat) (hnew : NewPage x.mm mm phys) :
      Edit T W x ⟨mm, x.roots, fun f q => x.shared f q ∨ (f = pageOf phys ∧ q = path)⟩

/-- What is known after an edit. A page that was not there has a new frame or a shared one. -/
structure Edited (T : Set (BitVec 64)) (W : Set Nat) (x x' : SharedMm) : Prop where
  owner : Owner x'.mm x'.roots
  grows : Grows x.mm x'.mm x.roots x'.roots
  free : freePages x'.mm.pmm ⊆ freePages x.mm.pmm
  roots : x.roots ⊆ x'.roots
  same : ∀ k, Data x.mm x.roots k → k ∉ W → SamePage x.mm.mem x'.mm.mem k
  slots : ∀ r ∈ x.roots, r ∉ T → ∀ p i, UserPath p → p.length ≤ 3 → i < 512 →
    slot x'.mm.mem r p i = slot x.mm.mem r p i
  kept : ∀ f path, x.shared f path → x'.shared f path
  shared : ∀ f path, x'.shared f path → x.shared f path ∨
    (f ∈ freePages x.mm.pmm ∧ Data x'.mm x'.roots f ∧ (∀ path', x'.shared f path' → path' = path) ∧
      ∀ r p i e, PageAt x' r p i e → frame e ≠ f)
  page : ∀ r p i e, PageAt x' r p i e → PageAt x r p i e ∨
    (frame e ∈ freePages x.mm.pmm ∧ Alone x' r p i e) ∨
    (x.shared (frame e) (p ++ [i]) ∧ (frame e = consolePage → has e PTE_USER = false))

theorem owner_of_mem {s' : Mm} (h : Owner s roots) (hmem : s'.mem = s.mem) (hpmm : s'.pmm = s.pmm) :
    Owner s' roots := by
  have hdata : ∀ k, Data s' roots k ↔ Data s roots k := fun k => by
    unfold Data
    rw [hmem, hpmm]
  refine ⟨h.tables.of_mem hmem fun _ _ _ _ hused => ?_, h.addr, ?_, (hdata _).mpr h.console⟩
  · rw [hpmm]
    exact hused
  · intro r hr p i hp hn hpres
    rw [hmem] at hpres ⊢
    exact (hdata _).mpr (h.leaves r hr p i hp hn hpres)

theorem load_edited (h : Owner x.mm x.roots) (hmem : mm.mem = x.mm.mem) (hpmm : mm.pmm = x.mm.pmm) :
    Edited T W x { x with mm := mm } := by
  refine ⟨owner_of_mem h hmem hpmm, ⟨?_, ?_⟩, ?_, subset_rfl, ?_, ?_, fun _ _ hs => hs,
    fun _ _ hs => .inl hs, ?_⟩
  · dsimp only
    rw [hpmm]
    exact fun _ hk => hk
  · dsimp only
    rw [hmem]
    exact fun _ hk => .inl hk
  · dsimp only
    rw [hpmm]
  · intro k _ _
    dsimp only
    rw [hmem]
    exact fun _ _ => rfl
  · intro r _ _ p i _ _ _
    dsimp only
    rw [hmem]
  · intro r p i e hpage
    refine .inl (hpage.of_slot hpage.root ?_)
    dsimp only
    rw [hmem]

theorem write_edited {V : Set Nat} (h : Owner x.mm x.roots) (honly : Only V x.mm mm)
    (htables : ∀ r ∈ x.roots, Disjoint (userPages x.mm.mem r) V) (hV : V ⊆ W) :
    Edited T W x { x with mm := mm } := by
  refine ⟨h.of_only honly htables, grows_of_only h.tables honly htables, honly.free, subset_rfl,
    fun k hk hW => ?_, fun r hr _ p i hp hn hi => h.tables.slot_only honly htables hr hp hn hi,
    fun _ _ hs => hs, fun _ _ hs => .inl hs, fun r p i e hpage =>
    .inl (hpage.of_slot hpage.root ?_)⟩
  · exact honly.same k (data_not_free hk) fun hmem => hW (hV hmem)
  · exact h.tables.slot_only honly htables hpage.root hpage.user.init hpage.length.le hpage.user.last_lt

theorem PageAt.of_mapped {s' : Mm} {shared : Nat → List Nat → Prop} {r' : BitVec 64}
    (h : PageAt ⟨s', roots, shared⟩ r' p i e) (hm : Mapped s s' roots r virt phys flags) :
    (r' = r ∧ p ++ [i] = pathOf virt 4 ∧ e = pageEntry phys flags) ∨
      PageAt ⟨s, roots, shared⟩ r' p i e := by
  by_cases hhere : r' = r ∧ p ++ [i] = pathOf virt (p.length + 1)
  · obtain ⟨rfl, hpath⟩ := hhere
    obtain ⟨h1, h2⟩ := snoc_eq_pathOf hpath
    have hentry := h.entry
    rw [h.length] at h1 h2 hpath
    rw [h1, h2] at hentry
    exact .inl ⟨rfl, hpath, hentry.symm.trans hm.leaf⟩
  · exact .inr (h.of_slot h.root (hm.slots r' h.root p i h.user.init h.length.le h.user.last_lt hhere))

theorem mapped_slot {s' : Mm} {r' : BitVec 64} (hm : Mapped s s' roots r virt phys flags)
    (hr' : r' ∈ roots) (hne : r' ≠ r) (hp : UserPath p) (hn : p.length ≤ 3) (hi : i < 512) :
    slot s'.mem r' p i = slot s.mem r' p i := hm.slots r' hr' p i hp hn hi fun heq => hne heq.1

theorem map_shared_edited (h : Owner x.mm x.roots) (hdata : Data x.mm x.roots (frame phys))
    (hr : r ∈ x.roots) (hT : r ∈ T) (hflags : pte_flags flags = flags)
    (hshared : x.shared (frame phys) (pathOf virt 4))
    (huser : frame phys = consolePage → has flags PTE_USER = false)
    (hm : Mapped x.mm mm x.roots r virt phys flags) : Edited T W x { x with mm := mm } := by
  refine ⟨h.map hr hflags hdata hm, hm.grows hr, hm.only.free, subset_rfl, fun k hk _ => ?_,
    fun r' hr' hT' p i hp hn hi => ?_, fun _ _ hs => hs, fun _ _ hs => .inl hs,
    fun r' p i e hpage => ?_⟩
  · exact hm.only.same k (data_not_free hk) fun hmem => hk.2 ⟨r, hr, hmem⟩
  · exact mapped_slot hm hr' (fun heq => hT' (heq ▸ hT)) hp hn hi
  · rcases hpage.of_mapped hm with ⟨-, hpath, rfl⟩ | hold
    · rw [frame, pageEntry_addr phys hflags, pageEntry_user, hpath]
      exact .inr (.inr ⟨hshared, huser⟩)
    · exact .inl hold

theorem map_new_edited (h : Owner x.mm x.roots) (hr : r ∈ x.roots) (hT : r ∈ T)
    (hflags : pte_flags flags = flags) (hnew : NewPage x.mm s1 phys)
    (hm : Mapped s1 s2 x.roots r virt phys flags) (hfill : Only {pageOf phys} s2 mm) :
    Edited T W x { x with mm := mm } := by
  have h1 := h.of_only hnew.only off_none
  have hg1 := grows_of_only h.tables hnew.only off_none
  have hdata1 := hnew.data h.tables
  have h2 := h1.map hr hflags (hnew.addr.symm ▸ hdata1) hm
  have hdata2 := hdata1.grow (hm.grows hr)
  have hW : ∀ r ∈ x.roots, Disjoint (userPages s2.mem r) {pageOf phys} := fun r hr =>
    Set.disjoint_singleton_right.mpr fun hmem => hdata2.2 ⟨r, hr, hmem⟩
  have hg2 := (hg1.trans (hm.grows hr) hnew.only.free).trans (grows_of_only h2.tables hfill hW)
    (hm.only.free.trans hnew.only.free)
  -- An entry other than the new one is what it was.
  have hslot : ∀ r' ∈ x.roots, ∀ p i, UserPath p → p.length ≤ 3 → i < 512 →
    slot s2.mem r' p i = slot s1.mem r' p i →
      slot mm.mem r' p i = slot x.mm.mem r' p i := fun r' hr' p i hp hn hi hsame => by
    rw [h2.tables.slot_only hfill hW hr' hp hn hi, hsame,
      h.tables.slot_only hnew.only off_none hr' hp hn hi]
  have hcases : ∀ r' p i e, PageAt { x with mm := mm } r' p i e →
      (r' = r ∧ p ++ [i] = pathOf virt 4 ∧ e = pageEntry phys flags) ∨ PageAt x r' p i e := by
    intro r' p i e hpage
    have hpage2 : PageAt { x with mm := s2 } r' p i e := hpage.of_slot hpage.root
      (h2.tables.slot_only hfill hW hpage.root hpage.user.init hpage.length.le hpage.user.last_lt)
    refine (hpage2.of_mapped hm).imp_right fun hold => hold.of_slot hold.root ?_
    exact h.tables.slot_only hnew.only off_none hold.root hold.user.init hold.length.le
      hold.user.last_lt
  have hframe : frame (pageEntry phys flags) = pageOf phys := by
    rw [frame, pageEntry_addr phys hflags, hnew.addr]
  refine ⟨h2.of_only hfill hW, hg2, (hfill.free.trans hm.only.free).trans hnew.only.free,
    subset_rfl, fun k hk _ => ?_, fun r' hr' hT' p i hp hn hi => hslot r' hr' p i hp hn hi
    (mapped_slot hm hr' (fun heq => hT' (heq ▸ hT)) hp hn hi), fun _ _ hs => hs,
    fun _ _ hs => .inl hs, fun r' p i e hpage => ?_⟩
  · have hk1 := hk.grow hg1
    have hk2 := hk1.grow (hm.grows hr)
    refine (hnew.same k (hnew.ne_of_not_free (data_not_free hk))).trans
      ((hm.only.same k (data_not_free hk1) fun hmem => ?_).trans
      (hfill.same k (data_not_free hk2) (hnew.ne_of_not_free (data_not_free hk))))
    exact hk1.2 ⟨r, hr, hmem⟩
  · rcases hcases r' p i e hpage with ⟨rfl, hpath, rfl⟩ | hold
    · refine .inr (.inl ⟨hframe.symm ▸ hnew.was_free, fun r'' p' i' e' hpage' heq => ?_⟩)
      rcases hcases r'' p' i' e' hpage' with ⟨rfl, hpath', -⟩ | hold'
      · obtain ⟨rfl, hi⟩ := List.append_inj' (hpath'.trans hpath.symm) rfl
        exact ⟨rfl, rfl, List.singleton_injective hi⟩
      · rw [hframe] at heq
        exact absurd (heq ▸ hnew.was_free) (data_not_free (hold'.data h))
    · exact .inl hold

theorem new_root_edited (h : Owner x.mm x.roots) (hnew : NewRoot x.mm mm r) :
    Edited T W x ⟨mm, insert r x.roots, x.shared⟩ := by
  have hold : ∀ r' p i e, PageAt ⟨mm, insert r x.roots, x.shared⟩ r' p i e → r' = r ∨
      PageAt x r' p i e := by
    intro r' p i e hpage
    refine hpage.root.imp_right fun hr' => hpage.of_slot hr' ?_
    exact h.tables.slot_only hnew.only off_none hr' hpage.user.init hpage.length.le hpage.user.last_lt
  have hnode : ∀ p i e, PageAt ⟨mm, insert r x.roots, x.shared⟩ r p i e →
      node mm.mem r (p ++ [i]) = some (pte_addr e) := by
    intro p i e hpage
    rw [node_of_slot, hpage.entry]
    exact child_of_small hpage.present (by have := hpage.length; omega)
  have hlen : ∀ p i e, PageAt ⟨mm, insert r x.roots, x.shared⟩ r p i e → (p ++ [i]).length ≤ 4 := by
    intro p i e hpage
    rw [List.length_append, hpage.length]
    rfl
  refine ⟨h.insert hnew, hnew.grows h.tables, hnew.only.free, Set.subset_insert _ _,
    fun k hk _ => hnew.only.same k (data_not_free hk) (Set.notMem_empty _),
    fun r' hr' _ p i hp hn hi => h.tables.slot_only hnew.only off_none hr' hp hn hi,
    fun _ _ hs => hs, fun _ _ hs => .inl hs, fun r' p i e hpage => ?_⟩
  rcases hold r' p i e hpage with rfl | hpage'
  · have hfree := (hnew.frames _ _ hpage.user (hlen p i e hpage) (hnode p i e hpage)).1
    refine .inr (.inl ⟨hfree, fun r'' p' i' e' hpage' heq => ?_⟩)
    rcases hold r'' p' i' e' hpage' with rfl | hpage''
    · -- The tree has each frame only once.
      have hnode' := hnode p' i' e' hpage'
      rw [pageOf_inj (addr_aligned e') (addr_aligned e) heq] at hnode'
      have hpath := hnew.inj _ _ _ hpage'.user hpage.user (hlen p' i' e' hpage') (hlen p i e hpage)
        hnode' (hnode p i e hpage)
      obtain ⟨rfl, hi⟩ := List.append_inj' hpath rfl
      exact ⟨rfl, rfl, List.singleton_injective hi⟩
    · exact absurd (show frame e' ∈ freePages x.mm.pmm from heq ▸ hfree)
        (data_not_free (hpage''.data h))
  · exact .inl hpage'

theorem share_edited {path : List Nat} (h : Owner x.mm x.roots)
    (hshared : ∀ f path, x.shared f path → Data x.mm x.roots f) (hnew : NewPage x.mm mm phys) :
    Edited T W x ⟨mm, x.roots, fun f q => x.shared f q ∨ (f = pageOf phys ∧ q = path)⟩ := by
  have hwrite : Edited T W x { x with mm := mm } :=
    write_edited h hnew.only off_none (Set.empty_subset _)
  have hold : ∀ r p i e, PageAt ⟨mm, x.roots, fun f q => x.shared f q ∨
      (f = pageOf phys ∧ q = path)⟩ r p i e → PageAt x r p i e := fun r p i e hpage =>
    hpage.of_slot hpage.root
      (h.tables.slot_only hnew.only off_none hpage.root hpage.user.init hpage.length.le
        hpage.user.last_lt)
  refine ⟨hwrite.owner, hwrite.grows, hwrite.free, hwrite.roots, hwrite.same, hwrite.slots,
    fun _ _ hs => .inl hs, ?_, fun r p i e hpage => .inl (hold r p i e hpage)⟩
  rintro f q (hs | ⟨rfl, rfl⟩)
  · exact .inl hs
  · refine .inr ⟨hnew.was_free, hnew.data h.tables, ?_, fun r p i e hpage heq => ?_⟩
    · rintro q' (hs | ⟨-, rfl⟩)
      · exact absurd hnew.was_free (data_not_free (hshared _ _ hs))
      · rfl
    · exact data_not_free ((hold r p i e hpage).data h) (heq ▸ hnew.was_free)

theorem Edit.edited (hedit : Edit T W x x') (h : Owner x.mm x.roots)
    (hshared : ∀ f path, x.shared f path → Data x.mm x.roots f) : Edited T W x x' := by
  cases hedit with
  | load hmem hpmm => exact load_edited h hmem hpmm
  | write honly htables hV => exact write_edited h honly htables hV
  | map_new hr hT hflags hnew hm hfill => exact map_new_edited h hr hT hflags hnew hm hfill
  | map_shared hr hT hflags hs huser hm =>
    exact map_shared_edited h (hshared _ _ hs) hr hT hflags hs huser hm
  | new_root hnew => exact new_root_edited h hnew
  | share path hnew => exact share_edited h hshared hnew

/-! ## What every edit keeps -/

/-- A frame has one page in one space, or it is shared and stands at its path in all spaces.
Programs get only frames that were free in `s0`. -/
structure Isolated (s0 : Mm) (x : SharedMm) : Prop extends Owner x.mm x.roots where
  grown : freePages x.mm.pmm ⊆ freePages s0.pmm
  data : ∀ f path, x.shared f path → Data x.mm x.roots f
  path : ∀ f path path', x.shared f path → x.shared f path' → path = path'
  origin : ∀ f path, x.shared f path → f = consolePage ∨ f ∈ freePages s0.pmm
  place : ∀ r p i e, PageAt x r p i e → ∀ path, x.shared (frame e) path → path = p ++ [i]
  alone : ∀ r p i e r' p' i' e', PageAt x r p i e → PageAt x r' p' i' e' → frame e' = frame e →
    (r' = r ∧ p' = p ∧ i' = i) ∨ ∃ path, x.shared (frame e) path
  user : ∀ r p i e, PageAt x r p i e → has e PTE_USER = true → frame e ∈ freePages s0.pmm

theorem Edited.path (hedit : Edited T W x x') (h : Isolated s0 x) {f : Nat} {path path' : List Nat}
    (hs : x'.shared f path) (hs' : x'.shared f path') : path = path' := by
  rcases hedit.shared f path hs with hold | ⟨-, -, hone, -⟩
  · rcases hedit.shared f path' hs' with hold' | ⟨-, -, hone, -⟩
    · exact h.path f path path' hold hold'
    · exact hone path hs
  · exact (hone path' hs').symm

theorem Edited.place (hedit : Edited T W x x') (h : Isolated s0 x) (hpage : PageAt x' r p i e)
    {path : List Nat} (hs : x'.shared (frame e) path) : path = p ++ [i] := by
  rcases hedit.shared _ path hs with hold | ⟨-, -, -, hnone⟩
  · rcases hedit.page r p i e hpage with hpage' | ⟨hfree, -⟩ | ⟨hs', -⟩
    · exact h.place r p i e hpage' path hold
    · exact absurd hfree (data_not_free (h.data _ _ hold))
    · exact h.path _ _ _ hold hs'
  · exact absurd rfl (hnone r p i e hpage)

theorem Edited.isolated (hedit : Edited T W x x') (h : Isolated s0 x) : Isolated s0 x' := by
  refine ⟨hedit.owner, hedit.free.trans h.grown, fun f path hs => ?_,
    fun f path path' => hedit.path h, fun f path hs => ?_,
    fun r p i e hpage path => hedit.place h hpage, fun r p i e r' p' i' e' hpage hpage' heq => ?_,
    fun r p i e hpage huser => ?_⟩
  · rcases hedit.shared f path hs with hold | ⟨-, hdata, -⟩
    · exact (h.data f path hold).grow hedit.grows
    · exact hdata
  · rcases hedit.shared f path hs with hold | ⟨hfree, -⟩
    · exact h.origin f path hold
    · exact .inr (h.grown hfree)
  · rcases hedit.page r p i e hpage with hold | ⟨-, halone⟩ | ⟨hs, -⟩
    · rcases hedit.page r' p' i' e' hpage' with hold' | ⟨-, halone⟩ | ⟨hs, -⟩
      · refine (h.alone r p i e r' p' i' e' hold hold' heq).imp_right ?_
        rintro ⟨path, hs⟩
        exact ⟨path, hedit.kept _ _ hs⟩
      · obtain ⟨rfl, rfl, rfl⟩ := halone r p i e hpage heq.symm
        exact .inl ⟨rfl, rfl, rfl⟩
      · exact .inr ⟨_, heq ▸ hedit.kept _ _ hs⟩
    · exact .inl (halone r' p' i' e' hpage' heq)
    · exact .inr ⟨_, hedit.kept _ _ hs⟩
  · rcases hedit.page r p i e hpage with hold | ⟨hfree, -⟩ | ⟨hs, hconsole⟩
    · exact h.user r p i e hold huser
    · exact h.grown hfree
    · refine (h.origin _ _ hs).resolve_left fun heq => ?_
      rw [hconsole heq] at huser
      cases huser

/-! ## Sequences of edits -/

abbrev Edits (T : Set (BitVec 64)) (W : Set Nat) : SharedMm → SharedMm → Prop :=
  Relation.ReflTransGen (Edit T W)

theorem Isolated.edits (h : Isolated s0 x) (hedits : Edits T W x x') : Isolated s0 x' := by
  induction hedits with
  | refl => exact h
  | tail _ hedit ih => exact (hedit.edited ih.toOwner ih.data).isolated ih

structure Untouched (T : Set (BitVec 64)) (W : Set Nat) (x x' : SharedMm) : Prop where
  roots : x.roots ⊆ x'.roots
  data : ∀ k, Data x.mm x.roots k → Data x'.mm x'.roots k
  same : ∀ k, Data x.mm x.roots k → k ∉ W → SamePage x.mm.mem x'.mm.mem k
  slots : ∀ r ∈ x.roots, r ∉ T → ∀ p i, UserPath p → p.length ≤ 3 → i < 512 →
    slot x'.mm.mem r p i = slot x.mm.mem r p i
  shared : ∀ f path, Data x.mm x.roots f → x'.shared f path → x.shared f path

theorem Untouched.refl (T : Set (BitVec 64)) (W : Set Nat) (x : SharedMm) : Untouched T W x x :=
  ⟨subset_rfl, fun _ hk => hk, fun _ _ _ _ _ => rfl, fun _ _ _ _ _ _ _ _ => rfl, fun _ _ _ hs => hs⟩

theorem Untouched.trans (h1 : Untouched T W x x') (h2 : Untouched T W x' x'') :
    Untouched T W x x'' := by
  refine ⟨h1.roots.trans h2.roots, fun k hk => h2.data k (h1.data k hk), fun k hk hW => ?_,
    fun r hr hT p i hp hn hi => ?_, fun f path hf hs => h1.shared f path hf
    (h2.shared f path (h1.data f hf) hs)⟩
  · exact (h1.same k hk hW).trans (h2.same k (h1.data k hk) hW)
  · rw [h2.slots r (h1.roots hr) hT p i hp hn hi, h1.slots r hr hT p i hp hn hi]

theorem Edited.untouched (hedit : Edited T W x x') : Untouched T W x x' := by
  refine ⟨hedit.roots, fun k hk => hk.grow hedit.grows, hedit.same, hedit.slots, fun f path hf hs => ?_⟩
  rcases hedit.shared f path hs with hold | ⟨hfree, -⟩
  · exact hold
  · exact absurd hfree (data_not_free hf)

theorem Isolated.untouched (h : Isolated s0 x) (hedits : Edits T W x x') : Untouched T W x x' := by
  induction hedits with
  | refl => exact .refl T W x
  | tail hedits hedit ih =>
    have hmid := h.edits hedits
    exact ih.trans (hedit.edited hmid.toOwner hmid.data).untouched

end Relis.Process
