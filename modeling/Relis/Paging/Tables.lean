import Relis.Paging.Spec

/-!
# User tables form a forest

No user table is reached in two ways, and each one lies in an allocated page. `ensure_table`
adds at most one, and a write to an entry changes one slot.
-/

open Relis.Bytes Relis.Run Relis.Code Relis.PageAlloc

namespace Relis.Paging

variable {e f u : BitVec 64} {s1 : Mm} {m' : Mem}

/-! ## What a new page is -/

structure NewPage (s s' : Mm) (t : BitVec 64) : Prop where
  aligned : Aligned t
  addr : pte_addr t = t
  was_free : pageOf t ∈ freePages s.pmm
  used : ∀ k, s'.pmm.page_used k = (decide (k = pageOf t) || s.pmm.page_used k)
  free_eq : freePages s'.pmm = (freePages s.pmm).erase (pageOf t)
  zero : ∀ x, x / 4096 = pageOf t → s'.mem x = 0
  same : ∀ k ≠ pageOf t, SamePage s.mem s'.mem k
  cr3 : s'.cr3 = s.cr3
  current_pgd : s'.current_pgd = s.current_pgd

theorem alloc_page_new {s s' : Mm} {t : BitVec 64} (h : alloc_page s = .ok (t, s')) :
    NewPage s s' t := by
  obtain ⟨i, ht, ha⟩ := alloc_page_cases h
  have htotal := s.pmm.total_le
  have hi := ha.lt
  simp only [MAX_PHYS_PAGES] at htotal
  have hpage : pageOf t = i := by unfold pageOf; omega
  refine ⟨by unfold Aligned; omega, addr_of_page ht (by omega), ?_, ?_, ?_, ?_, ?_, ha.cr3,
    ha.current_pgd⟩
  · rw [hpage]
    exact ha.mem_free
  · rw [hpage]
    exact ha.used
  · rw [hpage]
    exact ha.freePages_eq
  · intro x hx
    rw [ha.mem, kmemset_apply, if_pos (by omega)]
  · intro k hk x hx
    rw [ha.mem, kmemset_apply, if_neg (by omega)]

theorem NewPage.table_get_zero {s s' : Mm} {t : BitVec 64} (h : NewPage s s' t) {i : Nat}
    (hi : i < 512) : table_get s'.mem t i = 0 := by
  have haligned := h.aligned
  unfold Aligned at haligned
  unfold table_get
  apply read64_eq_zero
  intro x h1 h2
  apply h.zero
  unfold pageOf
  omega

theorem NewPage.ne_of_not_free {s s' : Mm} {t : BitVec 64} (h : NewPage s s' t) {k : Nat}
    (hk : k ∉ freePages s.pmm) : k ≠ pageOf t := by
  rintro rfl
  exact hk h.was_free

theorem not_free_of_used {p : Pmm} {k : Nat} (h : p.page_used k = true) : k ∉ freePages p := by
  rw [mem_freePages, h]
  simp

/-! ## What a step leaves alone -/

structure Only (W : Set Nat) (s s' : Mm) : Prop where
  free : freePages s'.pmm ⊆ freePages s.pmm
  used : ∀ k, s.pmm.page_used k = true → s'.pmm.page_used k = true
  same : ∀ k, k ∉ freePages s.pmm → k ∉ W → SamePage s.mem s'.mem k
  cr3 : s'.cr3 = s.cr3
  current_pgd : s'.current_pgd = s.current_pgd

theorem Only.refl (W : Set Nat) (s : Mm) : Only W s s :=
  ⟨Finset.Subset.refl _, fun _ h => h, fun _ _ _ _ _ => rfl, rfl, rfl⟩

theorem Only.mono {W W' : Set Nat} {s s' : Mm} (h : Only W s s') (hsub : W ⊆ W') : Only W' s s' :=
  ⟨h.free, h.used, fun k hfree hW => h.same k hfree (fun hk => hW (hsub hk)), h.cr3, h.current_pgd⟩

theorem Only.trans_into {W W' : Set Nat} {s s2 : Mm} (h1 : Only W s s1) (h2 : Only W' s1 s2)
    (hsub : W' ⊆ W ∪ freePages s.pmm) : Only W s s2 := by
  refine ⟨h2.free.trans h1.free, fun k hk => h2.used k (h1.used k hk), ?_, h2.cr3.trans h1.cr3,
    h2.current_pgd.trans h1.current_pgd⟩
  intro k hfree hW x hx
  have hW' : k ∉ W' := fun hk => (hsub hk).elim hW hfree
  rw [h2.same k (fun h => hfree (h1.free h)) hW' x hx, h1.same k hfree hW x hx]

theorem Only.trans {W : Set Nat} {s s2 : Mm} (h1 : Only W s s1) (h2 : Only W s1 s2) :
    Only W s s2 := h1.trans_into h2 Set.subset_union_left

theorem NewPage.only {s s' : Mm} {t : BitVec 64} (h : NewPage s s' t) : Only ∅ s s' := by
  refine ⟨?_, ?_, fun k hk _ => h.same k (h.ne_of_not_free hk), h.cr3, h.current_pgd⟩
  · rw [h.free_eq]
    exact Finset.erase_subset _ _
  · intro k hk
    simp [h.used, hk]

@[simp] theorem table_set_pmm (s : Mm) (t : BitVec 64) (i : Nat) (e : BitVec 64) :
    (table_set s t i e).pmm = s.pmm := rfl

theorem only_table_set (s : Mm) {t : BitVec 64} {i : Nat} (e : BitVec 64) (ht : Aligned t)
    (hi : i < 512) : Only {pageOf t} s (table_set s t i e) :=
  ⟨Finset.Subset.refl _, fun _ h => h, fun _ _ hk => samePage_table_set s e ht hi hk, rfl, rfl⟩

theorem only_kmemcpy {s : Mm} (src : Nat) (hf : Aligned f) :
    Only {pageOf f} s { s with mem := kmemcpy s.mem f.toNat src PAGE_SIZE } := by
  unfold Aligned at hf
  refine ⟨Finset.Subset.refl _, fun _ h => h, ?_, rfl, rfl⟩
  intro k _ hk x hx
  have hk : k ≠ pageOf f := hk
  unfold pageOf at hk
  dsimp only
  rw [kmemcpy_outside]
  unfold PAGE_SIZE
  omega

theorem samePage_kmemcpy_into (m src : Mem) {phys : BitVec 64} {n k : Nat} (d : Nat)
    (hphys : Aligned phys) (hn : n ≤ 4096) (hk : k ≠ pageOf phys) :
    SamePage m (kmemcpy_into m src phys.toNat d n) k := by
  intro x hx
  unfold Aligned at hphys
  unfold pageOf at hk
  rw [kmemcpy_into_apply, if_neg (by omega)]

theorem only_kmemcpy_into {s : Mm} {phys : BitVec 64} {n : Nat} (src : Mem) (d : Nat)
    (hphys : Aligned phys) (hn : n ≤ 4096) :
    Only {pageOf phys} s { s with mem := kmemcpy_into s.mem src phys.toNat d n } :=
  ⟨Finset.Subset.refl _, fun _ hk => hk, fun _ _ hk => samePage_kmemcpy_into s.mem src d hphys
    hn hk, rfl, rfl⟩

/-! ## The forest -/

/-- A kind of paths through the tables: a part of the top level and all that is below it. -/
class PathKind (V : List Nat → Prop) : Prop where
  of_prefix : ∀ p q, p <+: q → V q → V p
  last_lt : ∀ p i, V (p ++ [i]) → i < 512

instance : PathKind UserPath := ⟨UserPath.of_prefix, fun _ _ h => h.last_lt⟩

/-- No table on a path of the kind `V` is reached in two ways, each one lies in an allocated page,
and none has a huge entry. -/
structure Forest (V : List Nat → Prop) (s : Mm) (roots : Set (BitVec 64)) : Prop where
  aligned : ∀ r ∈ roots, Aligned r
  unshared : Radix.Unshared child (table_get s.mem) V 3 roots
  used : ∀ r ∈ roots, ∀ p t, V p → p.length ≤ 3 → node s.mem r p = some t →
    s.pmm.page_used (pageOf t) = true
  small : ∀ r ∈ roots, ∀ p i, V (p ++ [i]) → p.length = 1 ∨ p.length = 2 →
    has (slot s.mem r p i) PTE_PRESENT = true → has (slot s.mem r p i) PTE_HUGE = false

abbrev Tables (s : Mm) (roots : Set (BitVec 64)) : Prop := Forest UserPath s roots

variable {V : List Nat → Prop} {s s' : Mm} {roots : Set (BitVec 64)} {r t : BitVec 64}
  {p : List Nat} {i : Nat}

theorem Forest.node_aligned (h : Forest V s roots) (hr : r ∈ roots) (hp : node s.mem r p = some t) :
    Aligned t := Paging.node_aligned (h.aligned r hr) hp

theorem Forest.not_free (h : Forest V s roots) (hr : r ∈ roots) (hu : V p) (hn : p.length ≤ 3)
    (hp : node s.mem r p = some t) : pageOf t ∉ freePages s.pmm :=
  not_free_of_used (h.used r hr p t hu hn hp)

theorem Forest.ne_new (hT : Forest V s roots) (hnew : NewPage s s1 f) (hr : r ∈ roots)
    (hp : V p) (hn : p.length ≤ 3) (ht : node s.mem r p = some t) : t ≠ f := by
  rintro rfl
  exact hT.not_free hr hp hn ht hnew.was_free

theorem Forest.node_next (h : Forest V s roots) (hr : r ∈ roots) (hu : V (p ++ [i]))
    (hp : node s.mem r p = some t) (he : has (table_get s.mem t i) PTE_PRESENT = true) :
    node s.mem r (p ++ [i]) = some (pte_addr (table_get s.mem t i)) := by
  rw [node_snoc, hp, Option.bind_some]
  apply child_of_small he
  intro hd
  have hsmall := h.small r hr p i hu hd
  rw [slot_of_node hp] at hsmall
  exact hsmall he

theorem node_of_slot (m : Mem) (r : BitVec 64) (p : List Nat) (i : Nat) :
    node m r (p ++ [i]) = child p.length (slot m r p i) := by
  rw [node_snoc]
  cases h : node m r p with
  | none => rw [slot_of_none h, Option.bind_none, child_of_absent (zero_has _)]
  | some t => rw [slot_of_node h, Option.bind_some]

theorem node_of_slots {m : Mem} {q : List Nat}
    (h : ∀ p i, V (p ++ [i]) → p.length ≤ 2 → slot m' r p i = slot m r p i)
    (hq : V q) (hn : q.length ≤ 3) : node m' r q = node m r q := by
  rcases List.eq_nil_or_concat' q with rfl | ⟨p, i, rfl⟩
  · rw [node_nil, node_nil]
  rw [List.length_append, List.length_singleton] at hn
  rw [node_of_slot, node_of_slot, h p i hq (by omega)]

def Grown (V : List Nat → Prop) (m m' : Mem) (roots : Set (BitVec 64)) (r : BitVec 64)
    (path : List Nat) (f : BitVec 64) : Prop :=
  ∀ r' ∈ roots, ∀ q, V q → q.length ≤ 4 → node m' r' q = if r' = r ∧
    q = path then some f else node m r' q

theorem Grown.unshared (h : Grown V s.mem m' roots r p f) (hT : Forest V s roots)
    (hfresh : ∀ r' ∈ roots, ∀ q x, V q → q.length ≤ 3 → node s.mem r' q = some x → x ≠ f) :
    Radix.Unshared child (table_get m') V 3 roots := by
  intro r1 h1 r2 h2 p1 p2 x hp1 hp2 hn1 hn2 hx1 hx2
  have e1 := h r1 h1 p1 hp1 (by omega)
  have e2 := h r2 h2 p2 hp2 (by omega)
  unfold node at e1 e2
  rw [hx1] at e1
  rw [hx2] at e2
  split_ifs at e1 e2 with c1 c2 c2
  · exact ⟨c1.1.trans c2.1.symm, c1.2.trans c2.2.symm⟩
  · rw [Option.some.injEq] at e1
    exact absurd e1 (hfresh r2 h2 p2 x hp2 hn2 e2.symm)
  · rw [Option.some.injEq] at e2
    exact absurd e2 (hfresh r1 h1 p1 x hp1 hn1 e1.symm)
  · exact hT.unshared r1 h1 r2 h2 p1 p2 x hp1 hp2 hn1 hn2 e1.symm e2.symm

variable [PathKind V]

theorem PathKind.init (h : V (p ++ [i])) : V p := PathKind.of_prefix _ _ (List.prefix_append p [i]) h

theorem PathKind.index_lt (h : V (p ++ [i])) : i < 512 := PathKind.last_lt p i h

def WrittenAt (V : List Nat → Prop) (s : Mm) (m' : Mem) (roots : Set (BitVec 64)) (t : BitVec 64)
    (i : Nat) (e : BitVec 64) : Prop :=
  ∀ r ∈ roots, ∀ p t', V p → p.length ≤ 3 → node s.mem r p = some t' → ∀ j < 512,
    table_get m' t' j = if t' = t ∧ j = i then e else table_get s.mem t' j

theorem WrittenAt.agreeOff (h : WrittenAt V s m' roots t i e) :
    Radix.AgreeOff child (table_get s.mem) (table_get m') V 3 roots t i := by
  intro r hr p j t' hp hn hnode hne
  rw [h r hr p t' (PathKind.init hp) hn hnode j (PathKind.index_lt hp), if_neg hne]

theorem slot_write (hT : Forest V s roots) (hw : WrittenAt V s m' roots t i e)
    (hr : r ∈ roots) (hu : V (p ++ [i])) (hn : p.length ≤ 3) (hp : node s.mem r p = some t)
    {r' : BitVec 64} (hr' : r' ∈ roots) {q : List Nat} {j : Nat} (hq : V q)
    (hqn : q.length ≤ 3) (hj : j < 512) (hsame : node m' r' q = node s.mem r' q) :
    slot m' r' q j = if r' = r ∧ q = p ∧ j = i then e else slot s.mem r' q j := by
  cases ht' : node s.mem r' q with
  | none =>
    rw [slot_of_none (hsame.trans ht'), slot_of_none ht', if_neg]
    rintro ⟨rfl, rfl, rfl⟩
    rw [ht'] at hp
    cases hp
  | some t' =>
    rw [slot_of_node (hsame.trans ht'), slot_of_node ht', hw r' hr' q t' hq hqn ht' j hj]
    by_cases hhere : r' = r ∧ q = p ∧ j = i
    · obtain ⟨rfl, rfl, rfl⟩ := hhere
      rw [ht', Option.some.injEq] at hp
      rw [if_pos ⟨hp, rfl⟩, if_pos ⟨rfl, rfl, rfl⟩]
    · rw [if_neg hhere, if_neg]
      rintro ⟨rfl, rfl⟩
      obtain ⟨rfl, rfl⟩ := hT.unshared r' hr' r hr q p t' hq (PathKind.init hu) hqn hn ht' hp
      exact hhere ⟨rfl, rfl, rfl⟩

theorem writtenAt_table_set (hT : Forest V s roots) (hr : r ∈ roots) (hu : V (p ++ [i]))
    (hp : node s.mem r p = some t) (e : BitVec 64) :
    WrittenAt V s (table_set s t i e).mem roots t i e := by
  intro r' hr' q t' hq hqn ht' j hj
  exact table_get_set s e (hT.node_aligned hr hp) (hT.node_aligned hr' ht') (PathKind.index_lt hu) hj

structure Put (V : List Nat → Prop) (s s' : Mm) (roots : Set (BitVec 64)) (r : BitVec 64)
  (p : List Nat) (i : Nat)
    (e : BitVec 64) : Prop where
  tables : Forest V s' roots
  keeps : ∀ r' ∈ roots, ∀ q x, V q → q.length ≤ 3 → node s.mem r' q = some x →
    node s'.mem r' q = some x
  slots : ∀ r' ∈ roots, ∀ q j, V q → q.length ≤ 3 → j < 512 →
    slot s'.mem r' q j = if r' = r ∧ q = p ∧ j = i then e else slot s.mem r' q j

theorem put_of_same_nodes (hT : Forest V s roots) (hpmm : s'.pmm = s.pmm)
    (hw : WrittenAt V s s'.mem roots t i e) (hr : r ∈ roots) (hu : V (p ++ [i]))
    (hn : p.length ≤ 3) (hp : node s.mem r p = some t)
    (hnodes : ∀ r' ∈ roots, ∀ q, V q → q.length ≤ 3 → node s'.mem r' q = node s.mem r' q)
    (he : p.length = 1 ∨ p.length = 2 → has e PTE_PRESENT = true → has e PTE_HUGE = false) :
    Put V s s' roots r p i e := by
  have hslots : ∀ r' ∈ roots, ∀ q j, V q → q.length ≤ 3 → j < 512 →
      slot s'.mem r' q j = if r' = r ∧ q = p ∧ j = i then e else slot s.mem r' q j := by
    intro r' hr' q j hq hqn hj
    exact slot_write hT hw hr hu hn hp hr' hq hqn hj (hnodes r' hr' q hq hqn)
  refine ⟨⟨hT.aligned, ?_, ?_, ?_⟩, ?_, hslots⟩
  · intro r1 h1 r2 h2 p1 p2 x hp1 hp2 hn1 hn2 hx1 hx2
    have e1 := hnodes r1 h1 p1 hp1 hn1
    have e2 := hnodes r2 h2 p2 hp2 hn2
    unfold node at e1 e2
    rw [e1] at hx1
    rw [e2] at hx2
    exact hT.unshared r1 h1 r2 h2 p1 p2 x hp1 hp2 hn1 hn2 hx1 hx2
  · intro r' hr' q x hq hqn hx
    rw [hnodes r' hr' q hq hqn] at hx
    rw [hpmm]
    exact hT.used r' hr' q x hq hqn hx
  · intro r' hr' q j hq hqn hpres
    rw [hslots r' hr' q j (PathKind.init hq) (by omega) (PathKind.index_lt hq)] at hpres ⊢
    split_ifs at hpres ⊢ with hhere
    · obtain ⟨-, rfl, -⟩ := hhere
      exact he hqn hpres
    · exact hT.small r' hr' q j hq hqn hpres
  · intro r' hr' q x hq hqn hx
    rw [hnodes r' hr' q hq hqn, hx]

theorem put_leaf (hT : Forest V s roots) (hr : r ∈ roots) (hu : V (p ++ [i])) (hn : p.length = 3)
    (hp : node s.mem r p = some t) (e : BitVec 64) : Put V s (table_set s t i e) roots r p i e := by
  have hw := writtenAt_table_set hT hr hu hp e
  apply put_of_same_nodes hT (table_set_pmm s t i _) hw hr hu (by omega) hp
  · intro r' hr' q hq hqn
    apply Radix.node_off_write PathKind.of_prefix hT.unshared hw.agreeOff hr (PathKind.init hu)
      (by omega) hp hr'
      hq (by omega)
    rintro ⟨-, hpre⟩
    have hlen := hpre.length_le
    rw [List.length_append, List.length_singleton] at hlen
    omega
  · omega

theorem child_or_user (hu : UserFlag u) (d : Nat) (e : BitVec 64) :
    child d (e ||| u) = child d e := by
  apply child_congr
  · rw [has_or, hu.has (by decide), Bool.or_false]
  · rw [has_or, hu.has (by decide), Bool.or_false]
  · rw [addr_or, hu.addr]
    simp

theorem child_tableEntry (hf : pte_addr f = f) (hu : UserFlag u) (d : Nat) :
    child d (tableEntry f u) = some f := by
  rw [child_of_small (tableEntry_present f u) (fun _ => tableEntry_huge f hu), tableEntry_addr f hu, hf]

theorem put_or (hT : Forest V s roots) (hr : r ∈ roots) (hu : V (p ++ [i])) (hn : p.length ≤ 2)
    (hp : node s.mem r p = some t) (huser : UserFlag u) :
    Put V s (table_set s t i (table_get s.mem t i ||| u)) roots r p i
      (table_get s.mem t i ||| u) := by
  have hw := writtenAt_table_set hT hr hu hp (table_get s.mem t i ||| u)
  apply put_of_same_nodes hT (table_set_pmm s t i _) hw hr hu (by omega) hp
  · intro r' hr' q hq hqn
    apply Radix.node_same_child PathKind.of_prefix hT.unshared hw.agreeOff hr (PathKind.init hu)
      (by omega) hp _
      hr' hq (by omega)
    rw [hw r hr p t (PathKind.init hu) (by omega) hp i (PathKind.index_lt hu), if_pos ⟨rfl, rfl⟩]
    exact child_or_user huser _ _
  · intro hd hpres
    rw [has_or, huser.has (by decide), Bool.or_false] at hpres ⊢
    have hsmall := hT.small r hr p i hu hd
    rw [slot_of_node hp] at hsmall
    exact hsmall hpres

/-! ### A new table -/

theorem writtenAt_new (hT : Forest V s roots) (hnew : NewPage s s1 f) (hr : r ∈ roots)
    (hu : V (p ++ [i])) (hp : node s.mem r p = some t) (e : BitVec 64) :
    WrittenAt V s (table_set s1 t i e).mem roots t i e := by
  intro r' hr' q x hq hqn hx j hj
  have hxalign := hT.node_aligned hr' hx
  rw [table_get_set s1 _ (hT.node_aligned hr hp) hxalign (PathKind.index_lt hu) hj]
  congr 1
  apply (hnew.same _ _).table_get hxalign hj
  exact fun h => hT.ne_new hnew hr' hq hqn hx (pageOf_inj hxalign hnew.aligned h)

theorem put_new (hT : Forest V s roots) (hnew : NewPage s s1 f) (hr : r ∈ roots)
    (hu : V (p ++ [i])) (hn : p.length ≤ 2) (hp : node s.mem r p = some t)
    (habsent : has (table_get s.mem t i) PTE_PRESENT = false) (huser : UserFlag u) :
    Put V s (table_set s1 t i (tableEntry f u)) roots r p i (tableEntry f u) := by
  have hw := writtenAt_new hT hnew hr hu hp (tableEntry f u)
  have hnone : node s.mem r (p ++ [i]) = none := by
    rw [node_snoc, hp, Option.bind_some, child_of_absent habsent]
  -- The new table stays empty.
  have hzero : ∀ j < 512, table_get (table_set s1 t i (tableEntry f u)).mem f j = 0 := by
    intro j hj
    have htf := hT.ne_new hnew hr (PathKind.init hu) (by omega) hp
    rw [table_get_set s1 _ (hT.node_aligned hr hp) hnew.aligned (PathKind.index_lt hu) hj,
      if_neg (fun h => htf h.1.symm), hnew.table_get_zero hj]
  have hgrow : Grown V s.mem (table_set s1 t i (tableEntry f u)).mem roots r (p ++ [i]) f := by
    intro r' hr' q hq hqn
    apply Radix.node_grow PathKind.of_prefix hT.unshared hw.agreeOff hr (PathKind.init hu) (by omega) hp
      (child_of_absent habsent) _ _ hr' hq hqn
    · rw [hw r hr p t (PathKind.init hu) (by omega) hp i (PathKind.index_lt hu), if_pos ⟨rfl, rfl⟩]
      exact child_tableEntry hnew.addr huser _
    · intro j hj
      rw [hzero j (PathKind.index_lt hj), child_of_absent (zero_has _)]
  have hslots : ∀ r' ∈ roots, ∀ q j, V q → q.length ≤ 3 → j < 512 →
      slot (table_set s1 t i (tableEntry f u)).mem r' q j =
        if r' = r ∧ q = p ∧ j = i then tableEntry f u else slot s.mem r' q j := by
    intro r' hr' q j hq hqn hj
    have hnode := hgrow r' hr' q hq (by omega)
    split_ifs at hnode with hhere
    · -- The new table was not there before, and its entries are 0.
      obtain ⟨rfl, rfl⟩ := hhere
      rw [slot_of_node hnode, slot_of_none hnone, hzero j hj, if_neg]
      rintro ⟨-, h, -⟩
      simp at h
    · exact slot_write hT hw hr hu (by omega) hp hr' hq hqn hj hnode
  refine ⟨⟨hT.aligned, ?_, ?_, ?_⟩, ?_, hslots⟩
  · exact hgrow.unshared hT fun r' hr' q x hq hqn hx => hT.ne_new hnew hr' hq hqn hx
  · intro r' hr' q x hq hqn hx
    rw [hgrow r' hr' q hq (by omega)] at hx
    rw [table_set_pmm, hnew.used]
    split_ifs at hx with hhere
    · rw [Option.some.injEq] at hx
      simp [hx]
    · simp [hT.used r' hr' q x hq hqn hx]
  · intro r' hr' q j hq hqn hpres
    rw [hslots r' hr' q j (PathKind.init hq) (by omega) (PathKind.index_lt hq)] at hpres ⊢
    split_ifs at hpres ⊢ with hhere
    · exact tableEntry_huge f huser
    · exact hT.small r' hr' q j hq hqn hpres
  · intro r' hr' q x hq hqn hx
    rw [hgrow r' hr' q hq (by omega), if_neg, hx]
    rintro ⟨rfl, rfl⟩
    cases hnone.symm.trans hx

/-! ## `ensure_table` -/

theorem ensure_table_same {t : BitVec 64} {i : Nat}
    (h : has (table_get s.mem t i) PTE_PRESENT = true) : ensure_table s t i 0 = .ok s := by
  unfold ensure_table
  rw [h]
  have hor : table_get s.mem t i ||| 0 = table_get s.mem t i := by simp
  simp only [Bool.not_true, Bool.false_eq_true, if_false, hor]
  unfold table_set table_get
  rw [write64_read64]
  rfl

/-- The entry that `ensure_table` leaves: the old one with the user bit added, or one for a page
that was free. -/
def EnsuredEntry (s : Mm) (old u e : BitVec 64) : Prop :=
  (has old PTE_PRESENT = true ∧ e = old ||| u) ∨
    (has old PTE_PRESENT = false ∧ ∃ f, pte_addr f = f ∧ pageOf f ∈ freePages s.pmm ∧ e = tableEntry f u)

theorem EnsuredEntry.present {old : BitVec 64} (h : EnsuredEntry s old u e) :
    has e PTE_PRESENT = true := by
  rcases h with ⟨hp, rfl⟩ | ⟨-, f, -, -, rfl⟩
  · rw [has_or, hp, Bool.true_or]
  · exact tableEntry_present f u

theorem EnsuredEntry.user {old : BitVec 64} (h : EnsuredEntry s old PTE_USER e) :
    has e PTE_USER = true := by
  rcases h with ⟨-, rfl⟩ | ⟨-, f, -, -, rfl⟩
  · rw [has_or, show has PTE_USER PTE_USER = true by decide, Bool.or_true]
  · exact tableEntry_user f

theorem EnsuredEntry.keeps_user {old : BitVec 64} (h : EnsuredEntry s old u e)
    (hp : has old PTE_PRESENT = true) (hu : has old PTE_USER = true) : has e PTE_USER = true := by
  rcases h with ⟨-, rfl⟩ | ⟨ha, -⟩
  · rw [has_or, hu, Bool.true_or]
  · rw [hp] at ha
    cases ha

theorem ensure_table_spec (hT : Forest V s roots) (hr : r ∈ roots) (hu : V (p ++ [i]))
    (hn : p.length ≤ 2) (hp : node s.mem r p = some t) (huser : UserFlag u)
    (h : ensure_table s t i u = .ok s') :
    ∃ e, EnsuredEntry s (slot s.mem r p i) u e ∧ Put V s s' roots r p i e ∧ Only {pageOf t} s s' := by
  have halign := hT.node_aligned hr hp
  rw [slot_of_node hp]
  unfold ensure_table at h
  split_ifs at h with hpres
  · rw [bind_ok] at h
    obtain ⟨⟨f, s1⟩, halloc, h⟩ := h
    cases h
    have hnew := alloc_page_new halloc
    rw [Bool.not_eq_true'] at hpres
    refine ⟨tableEntry f u, .inr ⟨hpres, f, hnew.addr, hnew.was_free, rfl⟩,
      put_new hT hnew hr hu hn hp hpres huser, ?_⟩
    exact (hnew.only.mono (Set.empty_subset _)).trans (only_table_set s1 _ halign (PathKind.index_lt hu))
  · cases h
    simp only [Bool.not_eq_true', Bool.not_eq_false] at hpres
    exact ⟨_, .inl ⟨hpres, rfl⟩, put_or hT hr hu hn hp huser,
      only_table_set s _ halign (PathKind.index_lt hu)⟩

end Relis.Paging
